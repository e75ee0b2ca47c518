import Xv6Mlfq.Kernel.Safe

/-!
# Xv6Mlfq.Kernel.Exclusion — one CPU per process, and no deadlock

What the invariant says of every reachable state: a process is on at most one CPU and, while its lock
is free, on one exactly if it is `RUNNING` (`one_cpu_per_process`); no cycle of CPUs waits for one
another's locks, and an interrupt never finds a lock held by the code it interrupts (`no_deadlock`); a CPU
switches threads with the lock of the process held, and no other (`switch_discipline`).
-/

namespace Xv6Mlfq

open Abs LockOrder

variable {C : ℕ} {m : Machine C} {h : List (Machine C × Event C)} {p : Slot} {c : Fin C}

/-! ## Processes and CPUs -/

/-- A process whose lock is free is on a CPU exactly if it is `RUNNING`. -/
theorem MachineReach.running_iff (hr : MachineReach C h m) (hl : m.holder (.proc p) = none) :
    m.mem.state p = .running ↔ ∃ c, (m.cpu c).proc = some p := by
  obtain ⟨A, K, hg⟩ := hr.good
  constructor
  · intro hst
    obtain ⟨c, hc⟩ := hg.owned.onCpu p hst
    exact ⟨c, (hg.owned.fits c).cur.symm.trans hc⟩
  · rintro ⟨c, hc⟩
    refine ((hg.owned.fits c).running p ((hg.owned.fits c).cur.trans hc)).resolve_right ?_
    rintro ⟨f, hf⟩
    have hheld := ((hg.owned.fits c).know _ hf).1
    rw [(hg.locked.agrees c _).mpr hheld] at hl
    cases hl

theorem MachineReach.proc_inj (hr : MachineReach C h m) {c' : Fin C}
    (hc : (m.cpu c).proc = some p) (hc' : (m.cpu c').proc = some p) : c = c' := by
  obtain ⟨A, K, hg⟩ := hr.good
  exact hg.owned.inj c c' p ((hg.owned.fits c).cur.trans hc) ((hg.owned.fits c').cur.trans hc')

/-- The only panic of the process layer is that of `exit` in `initproc`. -/
theorem MachineReach.panics (hr : MachineReach C h m) {x : Panic} (hx : x ∈ m.panics) :
    x = .initExiting := by
  obtain ⟨A, K, hg⟩ := hr.good
  exact hg.panics x hx

/-- **A process is on at most one CPU.** -/
theorem one_cpu_per_process (hr : MachineReach C h m) :
    (∀ c c' p, c ≠ c' → (m.cpu c).proc = some p → (m.cpu c').proc ≠ some p) ∧
    (∀ p, m.holder (.proc p) = none →
      (m.mem.state p = .running ↔ ∃! c, (m.cpu c).proc = some p) ∧
      (m.mem.state p ∈ [.unused, .used, .sleeping, .runnable, .zombie] ↔
        ¬ ∃ c, (m.cpu c).proc = some p)) ∧
    Panic.schedLock ∉ m.panics ∧ Panic.schedRunning ∉ m.panics := by
  refine ⟨fun c c' p hne hc hc' => hne (hr.proc_inj hc hc'), fun p hl => ⟨?_, ?_⟩, ?_, ?_⟩
  · rw [hr.running_iff hl]
    constructor
    · rintro ⟨c, hc⟩
      exact ⟨c, hc, fun c' hc' => hr.proc_inj hc' hc⟩
    · rintro ⟨c, hc, -⟩
      exact ⟨c, hc⟩
  · rw [← hr.running_iff hl]
    cases m.mem.state p <;> simp
  · exact fun hx => by cases hr.panics hx
  · exact fun hx => by cases hr.panics hx

theorem one_cpu_per_process_init : ∃ h m, MachineReach 2 h m ∧
    m.holder (.proc initproc) = none ∧ (m.cpu 0).proc = some initproc ∧
    m.mem.state initproc = .running ∧ (m.cpu 1).proc ≠ some initproc := by
  -- one more step, and the lock is free
  obtain ⟨h, m, hr, hl, hc⟩ := exists_machineReach_of_replay
    (fun (_ : List (Machine 2 × Event 2)) m =>
      m.holder (.proc initproc) = none ∧ (m.cpu 0).proc = some initproc)
    (contended ++ [.run 0 .go]) (by decide +kernel)
  obtain ⟨hdistinct, hfree, -⟩ := one_cpu_per_process hr
  have hone : ∃! c, (m.cpu c).proc = some initproc :=
    ⟨0, hc, fun c hc' => by_contra fun hne => hdistinct c 0 initproc hne hc' hc⟩
  exact ⟨h, m, hr, hl, hc, (hfree initproc hl).1.mpr hone, hdistinct 0 1 initproc (by decide) hc⟩

/-! ## Waiting for locks -/

/-- The lock a CPU spins for. -/
def Machine.waiting (m : Machine C) (c : Fin C) : Option Lock :=
  match m.code c with
  | .spin l :: _ => some l
  | _ => none

/-- A CPU waits only for a lock that comes after all those it holds. -/
theorem Good.waiting {A : Fin C → Abs} {K : Slot → Option Slot} (hg : Good m A K) {l : Lock}
    (hw : m.waiting c = some l) : ∀ l' ∈ (A c).held, l'.rank < l.rank := by
  unfold Machine.waiting at hw
  split at hw <;> cases hw
  next rest hc =>
  exact (hg.needs hc rfl).2

/-- **No deadlock.** -/
theorem no_deadlock (hr : MachineReach C h m) :
    (∀ c i j, m.waiting c = some (.proc i) → m.holder (.proc j) ≠ some c) ∧
    (∀ c dev m', m.step (.intr c dev) = some m' → ∀ l, m.holder l ≠ some c) ∧
    (∀ l, ¬ Relation.TransGen (WaitsFor m.holder m.waiting) l l) := by
  obtain ⟨A, K, hg⟩ := hr.good
  refine ⟨fun c i j hw hl => ?_, fun c dev m' hs l hl => ?_, ?_⟩
  · have hlt := hg.waiting hw _ ((hg.locked.agrees c _).mp hl)
    simp at hlt
  · simp only [Machine.step] at hs
    split_ifs at hs with hi
    have hheld : l ∈ (A c).held := (hg.locked.agrees c l).mp hl
    rw [(hg.has_of_intr hi).1.1] at hheld
    cases hheld
  · exact not_waitsFor_cycle hg.locked.agrees fun c l hw => hg.waiting hw

theorem no_deadlock_contended : ∃ h m, MachineReach 2 h m ∧
    m.waiting 1 = some (.proc initproc) ∧ m.holder (.proc initproc) = some 0 ∧
    (∀ j, m.holder (.proc j) ≠ some 1) ∧
    ¬ Relation.TransGen (WaitsFor m.holder m.waiting) (.proc initproc) (.proc initproc) := by
  obtain ⟨h, m, hr, hw, hl⟩ := exists_machineReach_of_replay
    (fun (_ : List (Machine 2 × Event 2)) m =>
      m.waiting 1 = some (.proc initproc) ∧ m.holder (.proc initproc) = some 0)
    contended (by decide +kernel)
  obtain ⟨hone, -, hacyclic⟩ := no_deadlock hr
  exact ⟨h, m, hr, hw, hl, fun j => hone 1 initproc j hw, hacyclic _⟩

/-! ## Context switches -/

/-- **Locks and interrupts.**  A CPU that holds a lock has interrupts off, and it switches between threads with one lock held: that of
the process. -/
theorem switch_discipline (hr : MachineReach C h m) (c : Fin C) :
    (∀ l, m.holder l = some c → 0 < (m.cpu c).noff) ∧ (0 < (m.cpu c).noff → (m.cpu c).intr = false) ∧
    (∀ i rest, m.code c = i :: rest → i = .sched ∨ i = .schedExit ∨ (∃ j, i = .swtch j) →
      (m.cpu c).noff = 1 ∧ ∃ p, (m.cpu c).proc = some p ∧ ∀ l, m.holder l = some c ↔ l = .proc p) ∧
    ∀ x ∈ m.panics, x = .initExiting := by
  obtain ⟨A, K, hg⟩ := hr.good
  have hmem : ∀ l, m.holder l = some c ↔ l ∈ (A c).held := hg.locked.agrees c
  have hone : ∀ p, (A c).held = [.proc p] → (A c).pend = 0 → (m.cpu c).proc = some p →
      (m.cpu c).noff = 1 ∧ ∃ p, (m.cpu c).proc = some p ∧ ∀ l, m.holder l = some c ↔ l = .proc p := by
    intro p hheld hpend hp
    refine ⟨by rw [hg.locked.noff, hheld, hpend]; rfl, p, hp, fun l => ?_⟩
    rw [hmem l, hheld, List.mem_singleton]
  refine ⟨fun l hl => ?_, fun hn => ?_, fun i rest hc hi => ?_, hg.panics⟩
  · have hlen := List.length_pos_of_mem ((hmem l).mp hl)
    rw [hg.locked.noff]
    omega
  · exact Bool.eq_false_iff.mpr fun hi => hn.ne' (hg.locked.intr c hi)
  · rcases hi with rfl | rfl | ⟨p, rfl⟩
    · obtain ⟨p, ht, hheld, hpend, -⟩ := hg.atSched hc
      exact hone p hheld hpend (hg.thread_eq ht)
    · obtain ⟨p, ht, hheld, hpend, -⟩ := hg.atSchedExit hc
      exact hone p hheld hpend (hg.thread_eq ht)
    · obtain ⟨-, hA⟩ := hg.needs hc rfl
      exact hone p (by rw [hA]; rfl) (by rw [hA]; rfl) (by rw [← (hg.owned.fits c).cur, hA]; rfl)

theorem switch_discipline_init : ∃ h m, MachineReach 2 h m ∧ m.holder (.proc initproc) = some 0 ∧ (m.cpu 0).intr = false := by
  obtain ⟨h, m, hr, hl⟩ := exists_machineReach_of_replay
    (fun (_ : List (Machine 2 × Event 2)) m => m.holder (.proc initproc) = some 0) contended (by decide +kernel)
  obtain ⟨hnoff, hintr, -⟩ := switch_discipline hr 0
  exact ⟨h, m, hr, hl, hintr (hnoff _ hl)⟩

end Xv6Mlfq
