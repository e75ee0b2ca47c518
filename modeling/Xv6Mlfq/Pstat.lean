import Xv6Mlfq.Proc
import Xv6Mlfq.Lib.Count
import Mathlib.Algebra.BigOperators.Fin

/-!
# Xv6Mlfq.Pstat — the records of `getpstat` and `getprocinfo`

What the two calls make of the process table, slot by slot, each slot as it is when its lock is held.  `Pstat.Consistent` is
what the entries and the counters of a `struct pstat` have to do with each other; `Pstat.consistent` says that the loop of
`getpstat` keeps it, from slot to slot, whatever becomes of the table between the slots.
-/

namespace Xv6Mlfq

open Function Tally

variable {k : Pstat} {f : Slot → Proc} {i : Slot}

/-- A name: `char name[16]`. -/
abbrev Name := Fin 16 → UInt8

/-- The value of a state in `enum procstate`. -/
def ProcState.code : ProcState → ℤ
  | .unused => 0
  | .used => 1
  | .sleeping => 2
  | .runnable => 3
  | .running => 4
  | .zombie => 5

/-- `struct proc_stat` -/
structure ProcStat where
  inuse : ℤ
  pid : ℤ
  ppid : ℤ
  state : ℤ
  priority : ℤ
  ticksCurrent : ℤ
  ticksTotal : ℤ
  timeSlice : ℤ
  numScheduled : ℤ
  numDemoted : ℤ
  numBoosted : ℤ
  name : Name

/-- An entry after `memset`. -/
def ProcStat.zero : ProcStat := ⟨0, 0, 0, 0, 0, 0, 0, 0, 0, 0, 0, fun _ => 0⟩

/-- `struct pstat`, with the fields of `struct mlfq_stat` first. -/
structure Pstat where
  globalTicks : ℤ
  lastBoostTick : ℤ
  nextBoostIn : ℤ
  queueCount : Fin NMLFQ → ℤ
  totalProcesses : ℤ
  runningCount : ℤ
  sleepingCount : ℤ
  runnableCount : ℤ
  procs : Slot → ProcStat

def Pstat.zero : Pstat := ⟨0, 0, 0, fun _ => 0, 0, 0, 0, 0, fun _ => .zero⟩

/-- The entry of a process; `f` is the table, for the pid of the parent. -/
def Proc.stat (p : Proc) (f : Slot → Proc) (name : Name) : ProcStat where
  inuse := 1
  pid := p.pid
  ppid := match p.parent with
    | some q => (f q).pid
    | none => 0
  state := p.state.code
  priority := p.priority
  ticksCurrent := p.ticksUsed
  ticksTotal := p.ticksTotal
  timeSlice := if p.priority = 0 then MLFQ_TICKS_0 else if p.priority = 1 then MLFQ_TICKS_1 else MLFQ_TICKS_2
  numScheduled := p.numScheduled
  numDemoted := p.numDemoted
  numBoosted := p.numBoosted
  name := name

/-- `queue_count[priority]++`, if there is such a queue. -/
def countQueue (q : Fin NMLFQ → ℤ) (priority : ℤ) : Fin NMLFQ → ℤ :=
  fun i => if priority = (i.val : ℤ) then q i + 1 else q i

/-- The body of the loop of `getpstat`, at slot `i` of table `f`. -/
def Pstat.add (k : Pstat) (f : Slot → Proc) (i : Slot) (name : Name) : Pstat :=
  let p := f i
  if p.state = .unused then k
  else
    { k with
      procs := update k.procs i (p.stat f name)
      totalProcesses := k.totalProcesses + 1
      queueCount := countQueue k.queueCount p.priority
      runningCount := if p.state = .running then k.runningCount + 1 else k.runningCount
      sleepingCount := if p.state = .sleeping then k.sleepingCount + 1 else k.sleepingCount
      runnableCount := if p.state = .runnable then k.runnableCount + 1 else k.runnableCount }

/-- An entry in use. -/
abbrev ProcStat.Used (e : ProcStat) : Prop := e.inuse = 1

/-- An entry in use, in a state. -/
abbrev ProcStat.In (st : ProcState) (e : ProcStat) : Prop := e.Used ∧ e.state = st.code

/-- What the entries and the counters have to do with each other. -/
structure Pstat.Consistent (k : Pstat) : Prop where
  total : k.totalProcesses = count ProcStat.Used k.procs
  queues : k.totalProcesses = ∑ q, k.queueCount q
  running : k.runningCount = count (ProcStat.In .running) k.procs
  sleeping : k.sleepingCount = count (ProcStat.In .sleeping) k.procs
  runnable : k.runnableCount = count (ProcStat.In .runnable) k.procs
  state : ∀ i, (k.procs i).Used → ¬ (k.procs i).In .running → ¬ (k.procs i).In .sleeping → ¬ (k.procs i).In .runnable →
    (k.procs i).In .used ∨ (k.procs i).In .zombie
  slice : ∀ i, (k.procs i).Used → (k.procs i).timeSlice = getTimeSlice (k.procs i).priority ∧
    0 ≤ (k.procs i).ticksCurrent ∧ (k.procs i).ticksCurrent ≤ (k.procs i).timeSlice
  bit : ∀ i, (k.procs i).inuse = 0 ∨ (k.procs i).inuse = 1

theorem Pstat.consistent_zero : Pstat.zero.Consistent := by
  have hzero : ∀ i, ¬ (Pstat.zero.procs i).Used := fun _ => by simp [Pstat.zero, ProcStat.zero]
  have hin : ∀ st i, ¬ (Pstat.zero.procs i).In st := fun _ i h => hzero i h.1
  refine ⟨?_, ?_, ?_, ?_, ?_, fun i h => absurd h (hzero i), fun i h => absurd h (hzero i), fun i => .inl rfl⟩
  · rw [count_eq_zero _ hzero]
    rfl
  · simp [Pstat.zero]
  · rw [count_eq_zero _ (hin _)]
    rfl
  · rw [count_eq_zero _ (hin _)]
    rfl
  · rw [count_eq_zero _ (hin _)]
    rfl

theorem sum_countQueue {q : Fin NMLFQ → ℤ} {priority : ℤ} (h0 : 0 ≤ priority) (h2 : priority ≤ NMLFQ - 1) :
    ∑ i, countQueue q priority i = ∑ i, q i + 1 := by
  have hcases : priority = 0 ∨ priority = 1 ∨ priority = 2 := by
    have : (NMLFQ : ℤ) - 1 = 2 := by decide
    omega
  have hsum : ∀ f : Fin NMLFQ → ℤ, ∑ i, f i = f 0 + f 1 + f 2 := fun f => Fin.sum_univ_three f
  have hval : ((0 : Fin NMLFQ).val : ℤ) = 0 ∧ ((1 : Fin NMLFQ).val : ℤ) = 1 ∧ ((2 : Fin NMLFQ).val : ℤ) = 2 := by decide
  rw [hsum, hsum]
  simp only [countQueue, hval.1, hval.2.1, hval.2.2]
  rcases hcases with rfl | rfl | rfl <;> simp <;> omega

theorem Proc.timeSlice_stat (p : Proc) (f : Slot → Proc) (name : Name) :
    (p.stat f name).timeSlice = getTimeSlice p.priority := by
  show (if p.priority = 0 then _ else if p.priority = 1 then _ else _) = _
  unfold getTimeSlice
  split_ifs <;> rfl

theorem ProcState.code_inj {a b : ProcState} (h : a.code = b.code) : a = b := by
  cases a <;> cases b <;> first | rfl | cases h

/-- **The loop of `getpstat`** at one slot. -/
theorem Pstat.Consistent.add (hk : k.Consistent) (name : Name)
    (hnew : ¬ (k.procs i).Used) (hprio : 0 ≤ (f i).priority ∧ (f i).priority ≤ NMLFQ - 1)
    (hticks : 0 ≤ (f i).ticksUsed ∧ (f i).ticksUsed ≤ getTimeSlice (f i).priority) : (k.add f i name).Consistent := by
  unfold Pstat.add
  by_cases hst : (f i).state = .unused
  · rwa [if_pos hst]
  rw [if_neg hst]
  have hused : ((f i).stat f name).Used := rfl
  have hin : ∀ st, ((f i).stat f name).In st ↔ (f i).state = st := fun st =>
    ⟨fun h => ProcState.code_inj h.2, fun h => ⟨rfl, congrArg ProcState.code h⟩⟩
  -- the counter of a state, before and after
  have hcount : ∀ (st : ProcState) (c : ℤ), c = count (ProcStat.In st) k.procs →
      (if (f i).state = st then c + 1 else c) =
        count (ProcStat.In st) (update k.procs i ((f i).stat f name)) := by
    intro st c hc
    have hup := count_update (ProcStat.In st) k.procs i ((f i).stat f name)
    have hold : ¬ (k.procs i).In st := fun h => hnew h.1
    simp only [hold, hin, if_false] at hup
    split_ifs with hs <;> simp only [hs, if_true, if_false] at hup <;> omega
  refine ⟨?_, ?_, hcount _ _ hk.running, hcount _ _ hk.sleeping, hcount _ _ hk.runnable, ?_, ?_, ?_⟩
  · have hup := count_update ProcStat.Used k.procs i ((f i).stat f name)
    rw [if_neg hnew, if_pos hused] at hup
    have := hk.total
    show k.totalProcesses + 1 = count ProcStat.Used (update k.procs i ((f i).stat f name))
    omega
  · show k.totalProcesses + 1 = ∑ q, countQueue k.queueCount (f i).priority q
    rw [sum_countQueue hprio.1 hprio.2, hk.queues]
  · intro j
    rcases eq_or_ne j i with rfl | hne
    · simp only [update_self, hin]
      intro _ hrun hsleep hready
      cases hcase : (f j).state with
      | unused => exact absurd hcase hst
      | used => exact .inl rfl
      | zombie => exact .inr rfl
      | running => exact absurd hcase hrun
      | sleeping => exact absurd hcase hsleep
      | runnable => exact absurd hcase hready
    · simp only [update_of_ne hne]
      exact hk.state j
  · intro j
    rcases eq_or_ne j i with rfl | hne
    · simp only [update_self, Proc.timeSlice_stat]
      exact fun _ => ⟨rfl, hticks⟩
    · simp only [update_of_ne hne]
      exact hk.slice j
  · intro j
    rcases eq_or_ne j i with rfl | hne
    · simp only [update_self]
      exact .inr rfl
    · simp only [update_of_ne hne]
      exact hk.bit j

/-- The loop touches the entry of one slot. -/
theorem Pstat.procs_add {j : Slot} {name : Name} (hne : j ≠ i) :
    (k.add f i name).procs j = k.procs j := by
  unfold Pstat.add
  by_cases hst : (f i).state = .unused
  · rw [if_pos hst]
  · rw [if_neg hst]
    exact update_of_ne hne _ _

/-! ## `getprocinfo` -/

/-- The record of `getprocinfo`. -/
structure Pinfo where
  inuse : ℤ
  pid : ℤ
  priority : ℤ
  state : ℤ
  ticksUsed : ℤ
  ticksTotal : ℤ
  name : Name

/-- What the body of the loop of `getprocinfo` makes of the record `r` of the slot before. -/
def Proc.info (p : Proc) (name : Name) (r : Pinfo) : Pinfo :=
  if p.state = .unused then ⟨0, 0, 0, 0, 0, 0, update r.name 0 0⟩
  else ⟨1, p.pid, p.priority, p.state.code, p.ticksUsed, p.ticksTotal, name⟩

/-- A record agrees with a process. -/
structure Pinfo.Agrees (r : Pinfo) (p : Proc) (name : Name) : Prop where
  inuse : r.inuse = if p.state = .unused then 0 else 1
  used : p.state ≠ .unused → r.pid = p.pid ∧ r.priority = p.priority ∧ r.state = p.state.code ∧
    r.ticksUsed = p.ticksUsed ∧ r.ticksTotal = p.ticksTotal ∧ r.name = name
  free : p.state = .unused → r.pid = 0 ∧ r.priority = 0 ∧ r.state = 0 ∧ r.ticksUsed = 0 ∧ r.ticksTotal = 0 ∧ r.name 0 = 0

theorem Proc.info_agrees (p : Proc) (name : Name) (r : Pinfo) : (p.info name r).Agrees p name := by
  unfold Proc.info
  by_cases hst : p.state = .unused
  · rw [if_pos hst]
    exact ⟨by rw [if_pos hst], fun h => absurd hst h, fun _ => by simp⟩
  · rw [if_neg hst]
    exact ⟨by rw [if_neg hst], fun _ => by simp, fun h => absurd h hst⟩

end Xv6Mlfq
