import Xv6Mlfq.Lib.Bytes
import Xv6Mlfq.Pstat

/-!
# Xv6Mlfq.Layout — the bytes that `getprocinfo` and `getpstat` copy to the user

The two calls, alone on the machine, as functions from the kernel memory they read to the bytes they copy out.  `Agree` relates
memories that hold the same live processes; the rest of memory shows through in the bytes of names behind the terminating NUL and, in
`getprocinfo`, in a record that is not cleared (`snapshots_leak`).  `decodeProcinfo` reads the records as the user programs
declare them, and `decodePinfo` as `pinfo.h` declares them, field by field instead of record by record.
-/

namespace Xv6Mlfq

open Bytes CInt Function

/-! ## Bytes of records -/

/-- The bytes of an `int`. -/
def intBytes (x : ℤ) : List UInt8 := le 4 (toU32 x)

/-- The bytes of a `struct` of `int`s. -/
def intsBytes (xs : List ℤ) : List UInt8 := xs.flatMap intBytes

def nameBytes (name : Name) : List UInt8 := List.ofFn name

/-- The record of `getprocinfo`. -/
def Pinfo.bytes (r : Pinfo) : List UInt8 :=
  intsBytes [r.inuse, r.pid, r.priority, r.state, r.ticksUsed, r.ticksTotal] ++ nameBytes r.name

/-- `struct proc_stat` -/
def ProcStat.bytes (e : ProcStat) : List UInt8 :=
  intsBytes [e.inuse, e.pid, e.ppid, e.state, e.priority, e.ticksCurrent, e.ticksTotal, e.timeSlice, e.numScheduled, e.numDemoted,
    e.numBoosted] ++ nameBytes e.name

/-- `struct pstat` -/
def Pstat.bytes (k : Pstat) : List UInt8 :=
  intsBytes ([k.globalTicks, k.lastBoostTick, k.nextBoostIn] ++ List.ofFn k.queueCount ++
    [k.totalProcesses, k.runningCount, k.sleepingCount, k.runnableCount]) ++
    (List.finRange NPROC).flatMap fun i => (k.procs i).bytes

/-! ## The calls -/

/-- The kernel memory that the calls read; `stack` is what is on the kernel stack where `getprocinfo` has its record. -/
structure KernelData where
  proc : Slot → Proc
  name : Slot → Name
  stack : Pinfo
  ticks : ℕ
  lastBoostTick : ℤ
  mlfqTicks : ℕ

namespace KernelData

/-- The loop of `getprocinfo`: the record at each `copyout`. -/
def records (d : KernelData) : List Slot → Pinfo → List Pinfo
  | [], _ => []
  | i :: rest, r => (d.proc i).info (d.name i) r :: d.records rest ((d.proc i).info (d.name i) r)

/-- What a call of `getprocinfo` that succeeds leaves at `addr`. -/
def getprocinfo (d : KernelData) : List UInt8 := (d.records (List.finRange NPROC) d.stack).flatMap Pinfo.bytes

/-- What a call of `getpstat` that succeeds leaves at `addr`. -/
def getpstat (d : KernelData) : List UInt8 :=
  ((List.finRange NPROC).foldl (fun (k : Pstat) i => k.add d.proc i (d.name i))
    { Pstat.zero with
      globalTicks := ofU32 d.ticks
      lastBoostTick := d.lastBoostTick
      nextBoostIn := BOOST_INTERVAL - (d.mlfqTicks % BOOST_INTERVAL : ℕ) }).bytes

end KernelData

/-! ## Records read back -/

/-- The `int` at an offset. -/
def intAt (bs : List UInt8) (off : ℕ) : ℤ := ofU32 (leAt (fun k => bs.getD k 0) off 4)

/-- Element `i` of an array of `struct procinfo`, as `mlfqmon.c`, `pstat.c` and `schedtest.c` declare it. -/
def decodeProcinfo (bs : List UInt8) (i : ℕ) : Pinfo where
  inuse := intAt bs (40 * i)
  pid := intAt bs (40 * i + 4)
  priority := intAt bs (40 * i + 8)
  state := intAt bs (40 * i + 12)
  ticksUsed := intAt bs (40 * i + 16)
  ticksTotal := intAt bs (40 * i + 20)
  name := fun j => bs.getD (40 * i + 24 + j.val) 0

/-- The elements `i` of the arrays of `struct pinfo`, as `pinfo.h` declares it. -/
def decodePinfo (bs : List UInt8) (i : ℕ) : Pinfo where
  inuse := intAt bs (4 * i)
  pid := intAt bs (4 * NPROC + 4 * i)
  priority := intAt bs (8 * NPROC + 4 * i)
  state := intAt bs (12 * NPROC + 4 * i)
  ticksUsed := intAt bs (16 * NPROC + 4 * i)
  ticksTotal := intAt bs (20 * NPROC + 4 * i)
  name := fun j => bs.getD (24 * NPROC + 16 * i + j.val) 0

/-- Two records show the same; of the name in a record that is not in use, only its first byte counts. -/
def Pinfo.Same (r r' : Pinfo) : Prop :=
  r.inuse = r'.inuse ∧ r.pid = r'.pid ∧ r.priority = r'.priority ∧ r.state = r'.state ∧ r.ticksUsed = r'.ticksUsed ∧
    r.ticksTotal = r'.ticksTotal ∧ r.name 0 = r'.name 0 ∧ (r'.inuse ≠ 0 → r.name = r'.name)

theorem Pinfo.Agrees.iff_same {p : Proc} {name : Name} {r r' : Pinfo} (h : r'.Agrees p name) : r.Agrees p name ↔ r.Same r' := by
  obtain ⟨hinuse, hused, hfree⟩ := h
  unfold Pinfo.Same
  by_cases hst : p.state = .unused
  · obtain ⟨h1, h2, h3, h4, h5, h6⟩ := hfree hst
    rw [hinuse, if_pos hst, h1, h2, h3, h4, h5, h6]
    constructor
    · rintro ⟨hi, -, hf⟩
      rw [if_pos hst] at hi
      have := hf hst
      tauto
    · rintro ⟨hi, g1, g2, g3, g4, g5, g6, -⟩
      exact ⟨by rw [if_pos hst, hi], fun hc => absurd hst hc, fun _ => ⟨g1, g2, g3, g4, g5, g6⟩⟩
  · obtain ⟨h1, h2, h3, h4, h5, h6⟩ := hused hst
    rw [hinuse, if_neg hst, h1, h2, h3, h4, h5, h6]
    constructor
    · rintro ⟨hi, hu, -⟩
      rw [if_neg hst] at hi
      obtain ⟨g1, g2, g3, g4, g5, g6⟩ := hu hst
      exact ⟨hi, g1, g2, g3, g4, g5, by rw [g6], fun _ => g6⟩
    · rintro ⟨hi, g1, g2, g3, g4, g5, -, g6⟩
      exact ⟨by rw [if_neg hst, hi], fun _ => ⟨g1, g2, g3, g4, g5, g6 (by decide)⟩, fun hc => absurd hc hst⟩

/-- The values that the fields of a process have in C. -/
structure Proc.Ints (p : Proc) : Prop where
  pid : IsInt p.pid
  priority : IsInt p.priority
  ticksUsed : IsInt p.ticksUsed
  ticksTotal : IsInt p.ticksTotal

/-- The values that the fields of a record have in C. -/
structure Pinfo.Ints (r : Pinfo) : Prop where
  inuse : IsInt r.inuse
  pid : IsInt r.pid
  priority : IsInt r.priority
  state : IsInt r.state
  ticksUsed : IsInt r.ticksUsed
  ticksTotal : IsInt r.ticksTotal

theorem intAt_append {x : ℤ} (hx : IsInt x) (pre post : List UInt8) : intAt (pre ++ (intBytes x ++ post)) pre.length = x := by
  rw [intAt, intBytes, leAt_append (toU32_lt x), ofU32_toU32 hx]

theorem intAt_congr {bs bs' : List UInt8} {off off' : ℕ} (h : ∀ j < 4, bs.getD (off + j) 0 = bs'.getD (off' + j) 0) :
    intAt bs off = intAt bs' off' := by
  have hle : leAt (fun k => bs.getD k 0) off 4 = leAt (fun k => bs'.getD k 0) off' 4 := leAt_congr h
  rw [intAt, hle, intAt]

@[simp] theorem length_intBytes (x : ℤ) : (intBytes x).length = 4 := length_le 4 _

@[simp] theorem Pinfo.length_bytes (r : Pinfo) : r.bytes.length = 40 := by
  simp [Pinfo.bytes, intsBytes, nameBytes]

theorem Pinfo.name_bytes (r : Pinfo) : (decodeProcinfo r.bytes 0).name = r.name := by
  have hlen : (intsBytes [r.inuse, r.pid, r.priority, r.state, r.ticksUsed, r.ticksTotal]).length = 24 := by
    simp [intsBytes]
  funext j
  show r.bytes.getD (24 + j.val) 0 = r.name j
  rw [Pinfo.bytes, List.getD_append_right _ _ _ _ (by omega), hlen, Nat.add_sub_cancel_left, nameBytes,
    List.getD_eq_getElem _ 0 (by simp only [List.length_ofFn]; exact j.isLt), List.getElem_ofFn]

/-- A record is what its bytes stand for. -/
theorem Pinfo.decode_bytes {r : Pinfo} (hr : r.Ints) : decodeProcinfo r.bytes 0 = r := by
  -- each field, with the fields before and after it
  have hfield : ∀ (xs ys : List ℤ) (x : ℤ), IsInt x →
      [r.inuse, r.pid, r.priority, r.state, r.ticksUsed, r.ticksTotal] = xs ++ x :: ys →
      intAt r.bytes (intsBytes xs).length = x := by
    intro xs ys x hx hsplit
    rw [Pinfo.bytes, hsplit, intsBytes, List.flatMap_append, List.flatMap_cons, List.append_assoc, List.append_assoc]
    exact intAt_append hx _ _
  have hfields : decodeProcinfo r.bytes 0 = ⟨intAt r.bytes 0, intAt r.bytes 4, intAt r.bytes 8, intAt r.bytes 12, intAt r.bytes 16,
      intAt r.bytes 20, (decodeProcinfo r.bytes 0).name⟩ := rfl
  have hinuse := hfield [] _ _ hr.inuse rfl
  have hpid := hfield [r.inuse] _ _ hr.pid rfl
  have hpriority := hfield [r.inuse, r.pid] _ _ hr.priority rfl
  have hstate := hfield [r.inuse, r.pid, r.priority] _ _ hr.state rfl
  have hused := hfield [r.inuse, r.pid, r.priority, r.state] _ _ hr.ticksUsed rfl
  have htotal := hfield [r.inuse, r.pid, r.priority, r.state, r.ticksUsed] _ _ hr.ticksTotal rfl
  simp only [intsBytes, List.flatMap_cons, List.flatMap_nil, List.length_append, length_intBytes, List.length_nil]
    at hinuse hpid hpriority hstate hused htotal
  rw [hfields, hinuse, hpid, hpriority, hstate, hused, htotal, r.name_bytes]

/-- An array of records, read back element by element. -/
theorem decodeProcinfo_flatMap {l : List Pinfo} {i : ℕ} (hi : i < l.length) :
    decodeProcinfo (l.flatMap Pinfo.bytes) i = decodeProcinfo (l.get ⟨i, hi⟩).bytes 0 := by
  have hbyte : ∀ j < 40, (l.flatMap Pinfo.bytes).getD (40 * i + j) 0 = (l.get ⟨i, hi⟩).bytes.getD j 0 :=
    fun j hj => getD_flatMap l (fun r _ => r.length_bytes) hi hj
  have hint : ∀ off ≤ 36, intAt (l.flatMap Pinfo.bytes) (40 * i + off) = intAt (l.get ⟨i, hi⟩).bytes off := by
    intro off hoff
    refine intAt_congr fun j hj => ?_
    rw [Nat.add_assoc, hbyte (off + j) (by omega)]
  have hinuse := hint 0 (by omega)
  have hname : ∀ j : Fin 16, (l.flatMap Pinfo.bytes).getD (40 * i + 24 + j.val) 0 = (l.get ⟨i, hi⟩).bytes.getD (24 + j.val) 0 := by
    intro j
    rw [Nat.add_assoc, hbyte (24 + j.val) (by omega)]
  simp only [decodeProcinfo, Nat.mul_zero, Nat.zero_add, ← hinuse, ← hint 4 (by omega), ← hint 8 (by omega), ← hint 12 (by omega),
    ← hint 16 (by omega), ← hint 20 (by omega), hname, Nat.add_zero]

theorem Proc.info_ints {p : Proc} (hp : p.Ints) (name : Name) (r : Pinfo) : (p.info name r).Ints := by
  have hsmall : IsInt 0 ∧ IsInt 1 := by decide
  unfold Proc.info
  by_cases hst : p.state = .unused
  · rw [if_pos hst]
    exact ⟨hsmall.1, hsmall.1, hsmall.1, hsmall.1, hsmall.1, hsmall.1⟩
  · rw [if_neg hst]
    refine ⟨hsmall.2, hp.pid, hp.priority, ?_, hp.ticksUsed, hp.ticksTotal⟩
    show IsInt p.state.code
    cases p.state <;> decide

namespace KernelData

variable {d d' : KernelData} {i : Slot} {r r' : Pinfo}

@[simp] theorem length_records (l : List Slot) (r : Pinfo) : (d.records l r).length = l.length := by
  induction l generalizing r with
  | nil => rfl
  | cons i l ih => simp [records, ih]

/-- The record of slot `i`. -/
def record (d : KernelData) (i : Slot) : Pinfo := (d.records (List.finRange NPROC) d.stack).getD i d.stack

/-- Each record is made of the slot it is for, and of the record before. -/
theorem record_eq (d : KernelData) (i : Slot) : ∃ r, d.record i = (d.proc i).info (d.name i) r := by
  have hi : i.val < (List.finRange NPROC).length := by simp
  have hget : ∀ (l : List Slot) (r : Pinfo) (i : ℕ) (hi : i < l.length),
      ∃ r', (d.records l r).getD i d.stack = (d.proc (l.get ⟨i, hi⟩)).info (d.name (l.get ⟨i, hi⟩)) r' := by
    intro l
    induction l with
    | nil => simp
    | cons s l ih =>
      rintro r (_ | i) hi
      · exact ⟨r, rfl⟩
      · exact ih _ i (by simpa using hi)
  simpa [record] using hget _ d.stack i hi

/-- The bytes of slot `i` are those of its record. -/
theorem decodeProcinfo_getprocinfo (d : KernelData) (i : Slot) :
    decodeProcinfo d.getprocinfo i = decodeProcinfo (d.record i).bytes 0 := by
  have hi : i.val < (d.records (List.finRange NPROC) d.stack).length := by simp
  rw [getprocinfo, decodeProcinfo_flatMap hi, record, List.getD_eq_getElem _ _ hi]
  rfl

theorem name_getprocinfo (d : KernelData) (i : Slot) : (decodeProcinfo d.getprocinfo i).name = (d.record i).name := by
  rw [decodeProcinfo_getprocinfo, Pinfo.name_bytes]

/-- **`getprocinfo` is an array of `struct procinfo`**: its element `i` is slot `i`. -/
theorem decode_getprocinfo (hd : ∀ i, (d.proc i).Ints) (i : Slot) :
    (decodeProcinfo d.getprocinfo i).Agrees (d.proc i) (d.name i) := by
  obtain ⟨r, hr⟩ := d.record_eq i
  rw [decodeProcinfo_getprocinfo, hr, Pinfo.decode_bytes (Proc.info_ints (hd i) _ r)]
  exact (d.proc i).info_agrees _ r

/-! ## Two memories with the same live processes -/

/-- The name as a C string. -/
def cString (name : Name) : List UInt8 := (nameBytes name).takeWhile (· ≠ 0)

/-- `p->parent->pid`, or 0 -/
def ppid (d : KernelData) (i : Slot) : ℤ :=
  match (d.proc i).parent with
  | some q => (d.proc q).pid
  | none => 0

/-- The same process, as far as the two calls are to tell. -/
structure SameProc (d d' : KernelData) (i : Slot) : Prop where
  pid : (d.proc i).pid = (d'.proc i).pid
  ppid : d.ppid i = d'.ppid i
  priority : (d.proc i).priority = (d'.proc i).priority
  ticksUsed : (d.proc i).ticksUsed = (d'.proc i).ticksUsed
  ticksTotal : (d.proc i).ticksTotal = (d'.proc i).ticksTotal
  numScheduled : (d.proc i).numScheduled = (d'.proc i).numScheduled
  numDemoted : (d.proc i).numDemoted = (d'.proc i).numDemoted
  numBoosted : (d.proc i).numBoosted = (d'.proc i).numBoosted
  name : cString (d.name i) = cString (d'.name i)

/-- The same live processes and tick counters. -/
structure Agree (d d' : KernelData) : Prop where
  state : ∀ i, (d.proc i).state = (d'.proc i).state
  live : ∀ i, (d.proc i).state ≠ .unused → SameProc d d' i
  ticks : d.ticks = d'.ticks
  lastBoostTick : d.lastBoostTick = d'.lastBoostTick
  mlfqTicks : d.mlfqTicks = d'.mlfqTicks

/-- The names of the live processes agree, the bytes behind the terminating NUL included. -/
def SameNames (d d' : KernelData) : Prop := ∀ i, (d.proc i).state ≠ .unused → d.name i = d'.name i

theorem Agree.info_eq (ha : Agree d d') (hn : SameNames d d')
    (hr : (d.proc i).state ≠ .unused ∨ ∀ j ≠ 0, r.name j = r'.name j) :
    (d.proc i).info (d.name i) r = (d'.proc i).info (d'.name i) r' := by
  unfold Proc.info
  by_cases hst : (d.proc i).state = .unused
  · have hname := hr.resolve_left (not_not.mpr hst)
    have heq : update r.name 0 0 = update r'.name 0 0 := by
      ext j
      by_cases hj : j = 0
      · simp [hj]
      · simp [update_of_ne hj, hname j hj]
    rw [if_pos hst, if_pos ((ha.state i).symm.trans hst), heq]
  · have hp := ha.live i hst
    rw [if_neg hst, if_neg (fun h => hst ((ha.state i).trans h)), hp.pid, hp.priority, hp.ticksUsed, hp.ticksTotal, ha.state i,
      hn i hst]

theorem Agree.records_eq (ha : Agree d d') (hn : SameNames d d') (l : List Slot) : d.records l r = d'.records l r := by
  induction l generalizing r with
  | nil => rfl
  | cons i l ih =>
    have hinfo : (d.proc i).info (d.name i) r = (d'.proc i).info (d'.name i) r := ha.info_eq hn (.inr fun _ _ => rfl)
    rw [records, records, hinfo, ih]

theorem Agree.add_eq (ha : Agree d d') (hn : SameNames d d') (k : Pstat) :
    k.add d.proc i (d.name i) = k.add d'.proc i (d'.name i) := by
  unfold Pstat.add
  by_cases hst : (d.proc i).state = .unused
  · rw [if_pos hst, if_pos ((ha.state i).symm.trans hst)]
  · have hp := ha.live i hst
    have hfields : ∀ d : KernelData, (d.proc i).stat d.proc (d.name i) = ⟨1, (d.proc i).pid, d.ppid i, (d.proc i).state.code,
        (d.proc i).priority, (d.proc i).ticksUsed, (d.proc i).ticksTotal,
        if (d.proc i).priority = 0 then MLFQ_TICKS_0 else if (d.proc i).priority = 1 then MLFQ_TICKS_1 else MLFQ_TICKS_2,
        (d.proc i).numScheduled, (d.proc i).numDemoted, (d.proc i).numBoosted, d.name i⟩ := fun _ => rfl
    have hstat : (d.proc i).stat d.proc (d.name i) = (d'.proc i).stat d'.proc (d'.name i) := by
      rw [hfields, hfields, hp.pid, hp.ppid, ha.state i, hp.priority, hp.ticksUsed, hp.ticksTotal, hp.numScheduled, hp.numDemoted,
        hp.numBoosted, hn i hst]
    rw [if_neg hst, if_neg (fun h => hst ((ha.state i).trans h)), hstat, hp.priority, ha.state i]

/-- The name in the record of a slot in use. -/
theorem Agree.name_eq (ha : Agree d d') (h : d.getprocinfo = d'.getprocinfo) (hst : (d.proc i).state ≠ .unused) :
    d.name i = d'.name i := by
  obtain ⟨r, hr⟩ := d.record_eq i
  obtain ⟨r', hr'⟩ := d'.record_eq i
  have hname := d.name_getprocinfo i
  rw [h, d'.name_getprocinfo i, hr, hr', Proc.info, Proc.info, if_neg hst, if_neg fun hc => hst ((ha.state i).trans hc)] at hname
  exact hname.symm

/-- The name in the first record, if the first slot is not in use. -/
theorem Agree.stack_eq (ha : Agree d d') (h : d.getprocinfo = d'.getprocinfo) (hst : (d.proc 0).state = .unused) (j : Fin 16)
    (hj : j ≠ 0) : d.stack.name j = d'.stack.name j := by
  have hfirst : ∀ d : KernelData, (d.record 0).name = ((d.proc 0).info (d.name 0) d.stack).name := fun _ => rfl
  have hname := d.name_getprocinfo 0
  rw [h, d'.name_getprocinfo 0, hfirst, hfirst, Proc.info, Proc.info, if_pos hst, if_pos ((ha.state 0).symm.trans hst)] at hname
  have hbyte : update d'.stack.name 0 0 j = update d.stack.name 0 0 j := congrFun hname j
  rw [update_of_ne hj, update_of_ne hj] at hbyte
  exact hbyte.symm

/-- A table with one process in the given slot, its name a single byte with `b` somewhere behind the NUL, and `b` on the stack. -/
def oneProc (slot : Slot) (b : UInt8) : KernelData where
  proc := fun i => if i = slot then { Proc.zero with state := .runnable, pid := 1 } else .zero
  name := fun _ j => if j = 0 then 105 else if j = 2 then b else 0
  stack := ⟨0, 0, 0, 0, 0, 0, fun _ => b⟩
  ticks := 0
  lastBoostTick := 0
  mlfqTicks := 0

theorem oneProc_agree (slot : Slot) (b b' : UInt8) : Agree (oneProc slot b) (oneProc slot b') where
  state := fun _ => rfl
  live := fun _ _ => ⟨rfl, rfl, rfl, rfl, rfl, rfl, rfl, rfl, by simp [cString, nameBytes, oneProc, List.ofFn_succ]⟩
  ticks := rfl
  lastBoostTick := rfl
  mlfqTicks := rfl

/-- **When snapshots show the live processes only**: of two memories with the same live processes, both calls copy out the same bytes
exactly when the names agree in all 16 bytes and, for `getprocinfo`, the first slot is in use or the 15 bytes that its record has on
the stack agree. -/
theorem snapshots_eq_iff (ha : Agree d d') : (d.getprocinfo = d'.getprocinfo ∧ d.getpstat = d'.getpstat) ↔
    SameNames d d' ∧ ((d.proc 0).state ≠ .unused ∨ ∀ j ≠ 0, d.stack.name j = d'.stack.name j) := by
  constructor
  · rintro ⟨h, -⟩
    refine ⟨fun i hst => ha.name_eq h hst, ?_⟩
    by_cases hst : (d.proc 0).state = .unused
    · exact .inr (ha.stack_eq h hst)
    · exact .inl hst
  · rintro ⟨hn, hs⟩
    constructor
    · have hcons : List.finRange NPROC = 0 :: (List.finRange NPROC).tail := rfl
      have hinfo := ha.info_eq hn hs
      rw [getprocinfo, getprocinfo, hcons, records, records, hinfo, ha.records_eq hn]
    · have hadd : (fun (k : Pstat) (i : Slot) => k.add d.proc i (d.name i)) = fun k i => k.add d'.proc i (d'.name i) :=
        funext fun k => funext fun i => ha.add_eq hn k
      rw [getpstat, getpstat, hadd, ha.ticks, ha.lastBoostTick, ha.mlfqTicks]

/-- What is on the stack does not matter if the first slot is in use. -/
theorem snapshots_eq_oneProc : (oneProc 0 1).getprocinfo = { oneProc 0 1 with stack := (oneProc 0 2).stack }.getprocinfo ∧
    (oneProc 0 1).getpstat = { oneProc 0 1 with stack := (oneProc 0 2).stack }.getpstat :=
  (snapshots_eq_iff ⟨fun _ => rfl, fun _ _ => ⟨rfl, rfl, rfl, rfl, rfl, rfl, rfl, rfl, rfl⟩, rfl, rfl, rfl⟩).mpr
    ⟨fun _ _ => rfl, .inl (by decide)⟩

/-- The bytes behind the terminating NUL of a name reach the user through both calls, and so does, if the first slot is unused, the
kernel stack through `getprocinfo`. -/
theorem snapshots_leak :
    (Agree (oneProc 0 1) (oneProc 0 2) ∧ (oneProc 0 1).getprocinfo ≠ (oneProc 0 2).getprocinfo ∧
      (oneProc 0 1).getpstat ≠ (oneProc 0 2).getpstat) ∧
    Agree (oneProc 1 1) { oneProc 1 1 with stack := (oneProc 1 2).stack } ∧
      (oneProc 1 1).getprocinfo ≠ { oneProc 1 1 with stack := (oneProc 1 2).stack }.getprocinfo := by
  refine ⟨⟨oneProc_agree 0 1 2, fun h => ?_, fun h => ?_⟩, ⟨fun _ => rfl, fun _ _ => ⟨rfl, rfl, rfl, rfl, rfl, rfl, rfl, rfl, rfl⟩, rfl, rfl,
    rfl⟩, fun h => ?_⟩
  · have h26 := congrArg (fun l => l.getD 26 0) h
    revert h26
    decide +kernel
  · have h86 := congrArg (fun l => l.getD 86 0) h
    revert h86
    decide +kernel
  · have h26 := congrArg (fun l => l.getD 26 0) h
    revert h26
    decide +kernel

/-! ## The bytes read as a `struct pinfo` -/

theorem oneProc_ints (slot : Slot) (b : UInt8) (i : Slot) : ((oneProc slot b).proc i).Ints := by
  by_cases hi : i = slot <;> simp only [oneProc, hi, if_true, if_false] <;> exact ⟨by decide, by decide, by decide, by decide⟩

/-- No process, and nothing but zeros on the stack. -/
def noProc : KernelData := ⟨fun _ => .zero, fun _ _ => 0, ⟨0, 0, 0, 0, 0, 0, fun _ => 0⟩, 0, 0, 0⟩

end KernelData

end Xv6Mlfq
