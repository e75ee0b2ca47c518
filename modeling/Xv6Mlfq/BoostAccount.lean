import Mathlib.Data.Fintype.Card
import Xv6Mlfq.Scan

/-!
# Xv6Mlfq.BoostAccount — `mlfq_ticks` on any number of CPUs

`mlfq_ticks` is incremented on the timer path of every CPU and tested and zeroed by the scheduler of
whichever CPU comes first.  A CPU that has counted a tick makes the boost test before it counts
another one (`untested_at`), so the counter exceeds `BOOST_INTERVAL - 1` by at most the number of CPUs
that still owe the test, and every tick is consumed by exactly one boost (`boost_account`).
-/

namespace Xv6Mlfq

open CInt Lts Finset

variable {C : ℕ}

/-- CPU `c` has counted a tick and not made the boost test since. -/
def untested (c : Fin C) : List (Sys C × Ev C) → Bool
  | [] => false
  | (_, e) :: h =>
    if e = ⟨c, .count⟩ then true else if e = ⟨c, .boostTest⟩ then false else untested c h

/-- `e` is a boost test that calls `priority_boost`. -/
def Fires (s : Sys C) (e : Ev C) : Prop := e.act = .boostTest ∧ BOOST_INTERVAL ≤ s.mlfqTicks

instance (s : Sys C) (e : Ev C) : Decidable (Fires s e) := inferInstanceAs (Decidable (_ ∧ _))

/-- The ticks that a boost consumes. -/
def consumed (s : Sys C) (e : Ev C) : ℕ := if Fires s e then s.mlfqTicks else 0

section Step

variable {s s' : Sys C} {e : Ev C} {c : Fin C} {h : List (Sys C × Ev C)}

/-- The thread of a running process is moved by its own CPU only. -/
theorem Trans.thread_of_ne {a : Act} {c' : Fin C} {i : Slot} (hw : Wf s) (ht : Trans s c' a s')
    (hpc : s.cpu c = .run i) (hne : c ≠ c') : s'.thread i = s.thread i := by
  have hst : (s.proc i).state = .running := hw.running c i hpc
  have hown : ∀ j, s.cpu c' = .run j → i ≠ j := by
    rintro j hj rfl
    exact hne (hw.run_inj c c' i hpc hj)
  cases ht with
  | @dispatch j hj =>
    have hij : i ≠ j := by
      rintro rfl
      rw [(hw.selected c' i hj).2] at hst; cases hst
    simp [hij]
  | @allocOk _ j _ _ _ hu =>
    have hij : i ≠ j := by
      rintro rfl
      rw [hu] at hst; cases hst
    simp [hij]
  | resumeSleep hj _ | resume hj _ _ | timerRun hj _ | charge hj _ _ | count hj _ | yield hj _ _ => simp [hown _ hj]
  | trapExit hj _ _ _ | sleep hj _ _ | exit hj _ _ _ => simp [hown _ hj]
  | _ => rfl

/-- Between counting a tick and the boost test. -/
def OwesTest (s : Sys C) (c : Fin C) : Prop :=
  s.cpu c = .test ∨ ∃ i, s.cpu c = .run i ∧ s.thread i = .counted

/-- A CPU that owes the test makes it next in `scheduler`. -/
theorem OwesTest.step (hw : Wf s) (ho : OwesTest s c) (hs : s.step e = some s') :
    OwesTest s' c ∨ e = ⟨c, .boostTest⟩ := by
  obtain ⟨c', a⟩ := e
  have ht : Trans s c' a s' := trans_of_step hs
  rcases eq_or_ne c c' with rfl | hne
  · rcases ho with hpc | ⟨i, hpc, hth⟩
    · cases ht with
      | boostFire _ _ | boostPass _ _ => exact .inr rfl
      | timerIdle _ | wakeup _ _ => exact .inl (.inl hpc)
      | _ hpc' => rw [hpc] at hpc'; cases hpc'
    · have hcur : ∀ j, s.cpu c = .run j → s.thread j = .counted := by
        intro j hj
        obtain rfl : i = j := by simpa [hpc] using hj
        exact hth
      have hno : ∀ j, s.cpu c = .run j → ¬ s.thread j = .normal := by
        intro j hj h
        rw [hcur j hj] at h; cases h
      cases ht with
      | yield _ _ _ => exact .inl (.inl (by simp))
      | resumeSleep hj h | resume hj h _ | charge hj h _ | count hj h | trapExit hj h _ _ => rw [hcur _ hj] at h; cases h
      | timerRun hj h | forkParent hj h _ | forkReady hj h _ _ => exact absurd h (hno _ hj)
      | timerIdle h => rw [hpc] at h; cases h
      | wakeup h _ => simp [Sys.mayWake, hpc, hth] at h
      | sleep hj h _ | exit hj h _ _ | allocOk hj h _ _ | allocFail hj h _ _ _ | kill hj h _ => exact absurd h.1 (hno _ hj)
      | setkilled hj h _ | setprocpriority hj h _ _ _ | setprocpriorityBad hj h _ _ | reparent hj h _ => exact absurd h.1 (hno _ hj)
      | reparentSkip hj h _ | waitFree hj h _ _ _ | waitSkip hj h _ _ => exact absurd h.1 (hno _ hj)
      | _ hj => rw [hpc] at hj; cases hj
  · refine .inl ?_
    rcases ho with hpc | ⟨i, hpc, hth⟩
    · exact .inl ((ht.cpu_of_ne hne).trans hpc)
    · exact .inr ⟨i, (ht.cpu_of_ne hne).trans hpc, (ht.thread_of_ne hw hpc hne).trans hth⟩

/-- A section that counts a tick. -/
theorem count_step (hs : s.step ⟨c, .count⟩ = some s') :
    s'.mlfqTicks = incU64 s.mlfqTicks ∧ OwesTest s' c ∧ ¬ OwesTest s c := by
  have ht : Trans s c .count s' := trans_of_step hs
  cases ht with
  | @count i hpc hth =>
    refine ⟨rfl, .inr ⟨i, hpc, by simp⟩, ?_⟩
    rintro (h | ⟨j, h, hth'⟩)
    · rw [hpc] at h; cases h
    · obtain rfl : i = j := by simpa [hpc] using h
      rw [hth] at hth'; cases hth'

/-- A section that does not write `mlfq_ticks`. -/
theorem mlfqTicks_step (hs : s.step e = some s') (hc : e.act ≠ .count) (hf : ¬ Fires s e) :
    s'.mlfqTicks = s.mlfqTicks := by
  have ht := trans_of_step hs
  obtain ⟨c, a⟩ := e
  dsimp only at ht hc
  cases ht with
  | boostFire _ hm => exact absurd ⟨rfl, hm⟩ hf
  | count _ _ => exact absurd rfl hc
  | _ => rfl

theorem fires_step (hs : s.step e = some s') (hf : Fires s e) : s'.mlfqTicks = 0 := by
  obtain ⟨c, a⟩ := e
  obtain ⟨rfl, hm⟩ : a = .boostTest ∧ _ := hf
  have ht : Trans s c .boostTest s' := trans_of_step hs
  cases ht with
  | boostFire _ _ => rfl
  | boostPass _ hlt => omega

end Step

/-! ## The account -/

section Account

variable {s s' : Sys C} {e : Ev C} {h : List (Sys C × Ev C)}

theorem untested_at (hr : Reach C h s) (c : Fin C) (hu : untested c h = true) : OwesTest s c := by
  revert hu
  refine hr.inv_hist (I := fun h s => untested c h = true → OwesTest s c) (by simp [untested]) ?_
  intro h s e s' hr ih hs hu
  rw [untested] at hu
  split_ifs at hu with h1 h2
  · subst h1
    exact (count_step hs).2.1
  · exact ((ih hu).step (Reach.wf hr) hs).resolve_right h2

/-- The CPUs that owe the boost test. -/
def untestedCpus (h : List (Sys C × Ev C)) : Finset (Fin C) := univ.filter fun c => untested c h = true

/-- Ticks counted, ticks in `mlfq_ticks`, ticks consumed. -/
structure Account (h : List (Sys C × Ev C)) (s : Sys C) : Prop where
  bound : s.mlfqTicks ≤ BOOST_INTERVAL - 1 + (untestedCpus h).card
  sum : acts .count h = s.mlfqTicks + total consumed h

theorem Account.lt (ha : Account h s) : s.mlfqTicks < BOOST_INTERVAL + C := by
  have hle : (untestedCpus h).card ≤ C := card_finset_fin_le _
  have hb := ha.bound
  simp only [BOOST_INTERVAL] at *
  omega

theorem Account.count {c : Fin C} (hC : C ≤ NCPU) (hr : Reach C h s) (ha : Account h s)
    (hs : s.step ⟨c, .count⟩ = some s') : Account ((s, ⟨c, .count⟩) :: h) s' := by
  obtain ⟨hm, -, hno⟩ := count_step hs
  have hlt := ha.lt
  have hinc : incU64 s.mlfqTicks = s.mlfqTicks + 1 := by
    refine incU64_of_lt ?_
    simp only [BOOST_INTERVAL, NCPU] at *
    omega
  -- the CPU did not owe the test, now it does
  have hnot : c ∉ untestedCpus h := fun hc => hno (untested_at hr c (mem_filter.mp hc).2)
  have hcpus : insert c (untestedCpus h) ⊆ untestedCpus ((s, ⟨c, .count⟩) :: h) := by
    intro d hd
    refine mem_filter.mpr ⟨mem_univ d, ?_⟩
    rcases mem_insert.mp hd with rfl | hd
    · simp [untested]
    · rw [untested]
      split_ifs with h1 h2
      · rfl
      · cases h2
      · exact (mem_filter.mp hd).2
  have hcard := card_le_card hcpus
  rw [card_insert_of_notMem hnot] at hcard
  have hb := ha.bound
  have hsum := ha.sum
  refine ⟨by omega, ?_⟩
  simp only [acts, total_cons, if_true, consumed, Fires] at hsum ⊢
  simp only [reduceCtorEq, false_and, if_false]
  omega

theorem Account.fires (ha : Account h s) (hs : s.step e = some s') (hf : Fires s e) :
    Account ((s, e) :: h) s' := by
  have hm := fires_step hs hf
  have hc : ¬ e.act = .count := by rw [hf.1]; simp
  have hsum := ha.sum
  refine ⟨by omega, ?_⟩
  simp only [acts, total_cons, consumed, if_pos hf, if_neg hc] at hsum ⊢
  omega

theorem Account.step (hC : C ≤ NCPU) (hr : Reach C h s) (ha : Account h s) (hs : s.step e = some s') :
    Account ((s, e) :: h) s' := by
  by_cases hc : e.act = .count
  · obtain ⟨c, a⟩ := e
    obtain rfl : a = .count := hc
    exact ha.count hC hr hs
  by_cases hf : Fires s e
  · exact ha.fires hs hf
  have hm := mlfqTicks_step hs hc hf
  have hsum := ha.sum
  refine ⟨?_, ?_⟩
  · by_cases ht : e.act = .boostTest
    · -- a test that passes
      have hlt : ¬ BOOST_INTERVAL ≤ s.mlfqTicks := fun h => hf ⟨ht, h⟩
      omega
    · have hcpus : untestedCpus ((s, e) :: h) = untestedCpus h := by
        refine filter_congr fun c _ => ?_
        rw [untested, if_neg (fun h => hc (by rw [h])), if_neg (fun h => ht (by rw [h]))]
      rw [hm, hcpus]
      exact ha.bound
  · simp only [acts, total_cons, consumed, if_neg hf, if_neg hc] at hsum ⊢
    omega

theorem Reach.account (hC : C ≤ NCPU) (hr : Reach C h s) : Account h s := by
  refine hr.inv_hist (I := Account) ⟨Nat.zero_le _, rfl⟩ ?_
  intro h s e s' hr ha hs
  exact ha.step hC hr hs

/-- **Boost accounting.**  `mlfq_ticks` exceeds `BOOST_INTERVAL - 1` by at most the number of CPUs that
have counted a tick and not made the boost test since; so it stays below `BOOST_INTERVAL + C`, every
boost consumes between `BOOST_INTERVAL` and `BOOST_INTERVAL + C - 1` ticks, and all ticks ever counted
are in `mlfq_ticks` or were consumed by one boost. -/
theorem boost_account (hC : C ≤ NCPU) (hr : Reach C h s) :
    s.mlfqTicks ≤ BOOST_INTERVAL - 1 + (untestedCpus h).card ∧
    s.mlfqTicks < BOOST_INTERVAL + C ∧
    (∀ x ∈ h, Fires x.1 x.2 →
      BOOST_INTERVAL ≤ consumed x.1 x.2 ∧ consumed x.1 x.2 ≤ BOOST_INTERVAL + C - 1) ∧
    acts .count h = s.mlfqTicks + total consumed h := by
  have ha := hr.account hC
  refine ⟨ha.bound, ha.lt, fun x hx hf => ?_, ha.sum⟩
  obtain ⟨h1, -, -, -, hr1, -⟩ := hr.split hx
  have hlt := (Reach.account hC hr1).lt
  rw [consumed, if_pos hf]
  exact ⟨hf.2, by omega⟩

end Account

/-! ## A run on two CPUs -/

/-- CPU 0 runs `initproc`, which forks a child into `proc[1]`; CPU 1 runs the child. -/
def forkOnTwo : List (Ev 2) :=
  [⟨0, .boostTest⟩, ⟨0, .scanSlot⟩, ⟨0, .dispatch⟩, ⟨0, .resume⟩, ⟨0, .alloc 1 .ok⟩, ⟨0, .forkParent⟩,
    ⟨0, .forkReady⟩, ⟨1, .boostTest⟩, ⟨1, .scanSlot⟩, ⟨1, .scanSlot⟩, ⟨1, .dispatch⟩, ⟨1, .resume⟩]

/-- Both CPUs take a tick, up to the boost test of CPU 1; each process raises the other one, which its
tick has demoted, to priority 0 again. -/
def tickOnTwo : List (Ev 2) :=
  [⟨0, .timer⟩, ⟨0, .charge⟩, ⟨0, .count⟩, ⟨0, .yield⟩, ⟨1, .setprocpriority 0 1 0⟩,
    ⟨0, .boostTest⟩, ⟨0, .scanSlot⟩, ⟨0, .dispatch⟩, ⟨0, .resume⟩,
    ⟨1, .timer⟩, ⟨1, .charge⟩, ⟨1, .count⟩, ⟨1, .yield⟩, ⟨0, .setprocpriority 0 2 0⟩,
    ⟨0, .setprocpriority 1 2 0⟩, ⟨1, .boostTest⟩]

/-- CPU 1 goes on with the child. -/
def selectOnTwo : List (Ev 2) := [⟨1, .scanSlot⟩, ⟨1, .scanSlot⟩, ⟨1, .dispatch⟩, ⟨1, .resume⟩]

/-- 50 ticks of each CPU; the last boost test calls `priority_boost`. -/
def ticksToBoost : List (Ev 2) := (List.replicate 49 (tickOnTwo ++ selectOnTwo)).flatten ++ tickOnTwo

/-- The first boost on two CPUs consumes the 100 ticks counted so far. -/
theorem boost_account_first : ∃ (h : List (Sys 2 × Ev 2)) (s : Sys 2), Reach 2 h s ∧
    s.cpu 1 = .boostTick ∧ acts .count h = 100 ∧ acts .count h = s.mlfqTicks + total consumed h ∧
    s.mlfqTicks ≤ BOOST_INTERVAL - 1 + (untestedCpus h).card := by
  obtain ⟨h, s, hr, hpc, hcount⟩ := exists_reach_of_replay (C := 2)
    (fun h s => s.cpu 1 = .boostTick ∧ acts .count h = 100) (forkOnTwo ++ ticksToBoost)
    (by decide +kernel)
  obtain ⟨hb, -, -, hsum⟩ := boost_account (by decide) hr
  exact ⟨h, s, hr, hpc, hcount, hsum, hb⟩

end Xv6Mlfq
