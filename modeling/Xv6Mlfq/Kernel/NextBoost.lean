import Xv6Mlfq.BoostAccount
import Xv6Mlfq.Kernel.Snapshot

/-!
# Xv6Mlfq.Kernel.NextBoost — the time to the next boost that `getpstat` reports

`getpstat` reduces `mlfq_ticks` modulo `BOOST_INTERVAL`, and `scheduler` tests whether it is at least `BOOST_INTERVAL`.  The two
agree exactly when the counter is below the interval (`timely_iff`): on one CPU always when a process can read it, on several CPUs
not between the charge that completes the interval and the test of the CPU that made it (`next_boost_late`).
-/

namespace Xv6Mlfq

open CInt Function

/-- `next_boost_in`, from `mlfq_ticks`. -/
def nextBoostIn (mlfqTicks : ℕ) : ℤ := BOOST_INTERVAL - (mlfqTicks % BOOST_INTERVAL : ℕ)

/-- `mlfq_ticks` after `k` more charges. -/
def afterCharges (k mlfqTicks : ℕ) : ℕ := incU64^[k] mlfqTicks

theorem afterCharges_eq {k t : ℕ} (h : t + k < 2 ^ 64) : afterCharges k t = t + k := by
  induction k generalizing t with
  | zero => rfl
  | succ k ih =>
    show incU64^[k] (incU64 t) = _
    rw [incU64_of_lt (by omega)]
    have := ih (t := t + 1) (by omega)
    rw [afterCharges] at this
    omega

/-- The report is the least number of charges after which the test succeeds. -/
def Timely (mlfqTicks : ℕ) : Prop :=
  ∃ k : ℕ, (k : ℤ) = nextBoostIn mlfqTicks ∧ IsLeast {k | BOOST_INTERVAL ≤ afterCharges k mlfqTicks} k

theorem timely_iff {t : ℕ} : Timely t ↔ t < BOOST_INTERVAL := by
  have hB : BOOST_INTERVAL = 100 := rfl
  constructor
  · rintro ⟨k, hk, -, hleast⟩
    by_contra hge
    -- the test succeeds at once, and the report is not 0
    have h0 : k ≤ 0 := hleast (show BOOST_INTERVAL ≤ afterCharges 0 t from not_lt.mp hge)
    have hmod : t % BOOST_INTERVAL < BOOST_INTERVAL := Nat.mod_lt t (by decide)
    rw [nextBoostIn] at hk
    omega
  · intro ht
    refine ⟨BOOST_INTERVAL - t, ?_, ?_, fun k hk => ?_⟩
    · rw [nextBoostIn, Nat.mod_eq_of_lt ht]
      omega
    · show BOOST_INTERVAL ≤ afterCharges _ t
      rw [afterCharges_eq (by omega)]
      omega
    · have hk' : BOOST_INTERVAL ≤ afterCharges k t := hk
      by_contra hlt
      rw [afterCharges_eq (by omega)] at hk'
      omega

variable {C : ℕ} {s : Sys C} {h : List (Sys C × Ev C)}

/-- A CPU runs a process that may call `getpstat`. -/
def CanRead (s : Sys C) : Prop := ∃ c i, s.cpu c = .run i ∧ s.thread i = .normal

/-- On one CPU, a process that may read the counter runs after the boost test. -/
theorem untested_of_canRead {s : Sys 1} {h : List (Sys 1 × Ev 1)} (hr : Reach 1 h s) (hread : CanRead s) (c : Fin 1) :
    untested c h = false := by
  obtain ⟨c', i, hpc, hth⟩ := hread
  obtain rfl : c = c' := Subsingleton.elim c c'
  by_contra hu
  rcases untested_at hr c (by simpa using hu) with htest | ⟨j, hpc', hth'⟩
  · rw [hpc] at htest
    cases htest
  · obtain rfl : i = j := by simpa [hpc] using hpc'
    rw [hth] at hth'
    cases hth'

/-- **The time to the next boost.**  `next_boost_in` is the least number of charges after which the test of `scheduler` succeeds
exactly when `mlfq_ticks` is below the interval: on one CPU always, on several whenever each CPU that has charged a tick has made the
boost test since. -/
theorem next_boost_right (hC : C ≤ NCPU) (hr : Reach C h s) (hread : CanRead s) :
    (Timely s.mlfqTicks ↔ s.mlfqTicks < BOOST_INTERVAL) ∧
      (C = 1 ∨ (∀ c, untested c h = false) → s.mlfqTicks < BOOST_INTERVAL) := by
  refine ⟨timely_iff, fun hcond => ?_⟩
  have hall : ∀ c, untested c h = false := by
    rcases hcond with rfl | hall
    · exact untested_of_canRead hr hread
    · exact hall
  have hnone : untestedCpus h = ∅ := Finset.filter_eq_empty_iff.mpr fun c _ => by simp [hall c]
  have hb := (hr.account hC).bound
  rw [hnone, Finset.card_empty] at hb
  simp only [BOOST_INTERVAL] at *
  omega

/-- `initproc` on one CPU after its first tick. -/
def firstTick : List (Ev 1) :=
  [⟨0, .boostTest⟩, ⟨0, .scanSlot⟩, ⟨0, .dispatch⟩, ⟨0, .resume⟩, ⟨0, .timer⟩, ⟨0, .charge⟩, ⟨0, .count⟩, ⟨0, .yield⟩,
    ⟨0, .boostTest⟩] ++ List.replicate (NPROC + 1) ⟨0, .scanSlot⟩ ++ [⟨0, .dispatch⟩, ⟨0, .resume⟩]

theorem next_boost_right_first : ∃ (h : List (Sys 1 × Ev 1)) (s : Sys 1), Reach 1 h s ∧ s.mlfqTicks = 1 ∧
    nextBoostIn s.mlfqTicks = 99 ∧ Timely s.mlfqTicks := by
  obtain ⟨h, s, hr, ⟨hpc, hth⟩, hm⟩ := exists_reach_of_replay (C := 1)
    (fun _ s => (s.cpu 0 = .run 0 ∧ s.thread 0 = .normal) ∧ s.mlfqTicks = 1) firstTick (by decide +kernel)
  obtain ⟨hiff, hone⟩ := next_boost_right (by decide) hr ⟨0, 0, hpc, hth⟩
  exact ⟨h, s, hr, hm, by rw [hm]; rfl, hiff.mpr (hone (.inl rfl))⟩

/-- The run on two CPUs up to the charge that completes the interval, which CPU 1 makes while CPU 0 runs `initproc`. -/
def ticksToInterval : List (Ev 2) := forkOnTwo ++ (List.replicate 49 (tickOnTwo ++ selectOnTwo)).flatten ++ tickOnTwo.take 12

/-- There the test is true at once, and `next_boost_in` is a whole interval. -/
theorem next_boost_late : ∃ (h : List (Sys 2 × Ev 2)) (s : Sys 2), Reach 2 h s ∧ CanRead s ∧
    nextBoostIn s.mlfqTicks = 100 ∧ IsLeast {k | BOOST_INTERVAL ≤ afterCharges k s.mlfqTicks} 0 := by
  obtain ⟨h, s, hr, ⟨hpc, hth⟩, hm⟩ := exists_reach_of_replay (C := 2)
    (fun _ s => (s.cpu 0 = .run 0 ∧ s.thread 0 = .normal) ∧ s.mlfqTicks = 100) ticksToInterval (by decide +kernel)
  refine ⟨h, s, hr, ⟨0, 0, hpc, hth⟩, by rw [hm]; rfl, ?_, fun k _ => Nat.zero_le k⟩
  show BOOST_INTERVAL ≤ afterCharges 0 s.mlfqTicks
  rw [hm]
  decide

end Xv6Mlfq
