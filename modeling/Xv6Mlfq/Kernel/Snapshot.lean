import Xv6Mlfq.Kernel.Search
import Xv6Mlfq.Kernel.Simulation
import Xv6Mlfq.Pstat

/-!
# Xv6Mlfq.Kernel.Snapshot — what `getpstat` and `getprocinfo` deliver

Both calls read the table slot by slot, each slot under its lock, and other CPUs act between the slots.  A slot is read where
the call releases its lock; `kstat` and `delivered` are what the reads of a call have made of the buffer of `getpstat` and of
the records at the user address of `getprocinfo`.  The names of the processes are not part of the machine: they are any
function of the step.
-/

namespace Xv6Mlfq

open CInt Function Machine

variable {C : ℕ} {m m0 : Machine C} {c : Fin C} {ch : Choice} {i : Instr} {k rest : List Instr} {p j : Slot}
  {h h0 : List (Machine C × Event C)} {names : Machine C × Event C → Slot → Name}
  {Q : Option (ℕ × ℕ) → Prop} {x : Option (ℕ × ℕ)}

/-- What an instruction of `getpstat` reads. -/
def Pstat.read (s : Pstat) (d : Mem) (names : Slot → Name) : Instr → Pstat
  | .release .ticks => { s with globalTicks := ofU32 d.ticks, lastBoostTick := d.lastBoostTick }
  | .release .mlfq => { s with nextBoostIn := BOOST_INTERVAL - (d.mlfqTicks % BOOST_INTERVAL : ℕ) }
  | .release (.proc j) => s.add d.proc j (names j)
  | _ => s

/-- `*kstat`, after the steps of the call. -/
def kstat (names : Machine C × Event C → Slot → Name) (p : Slot) (rest : List Instr) (h : List (Machine C × Event C)) :
    Pstat :=
  h.foldr (fun x s => match own (.proc p) rest x with
    | some i => s.read x.1.mem (names x) i
    | none => s) .zero

/-- The local variable `pinfo` of `getprocinfo`, and the records it has copied out. -/
structure Infos where
  pinfo : Pinfo
  user : Slot → Option Pinfo

/-- An instruction of `getprocinfo`. -/
def Infos.read (s : Infos) (d : Mem) (names : Slot → Name) (ch : Choice) : Instr → Infos
  | .release (.proc j) => { s with pinfo := (d.proc j).info (names j) s.pinfo }
  | .infoNext j => if ch = .copyout true then { s with user := update s.user j (some s.pinfo) } else s
  | _ => s

/-- The records, after the steps of the call; `pinfo` starts with what is on the stack. -/
def infos (pinfo : Pinfo) (names : Machine C × Event C → Slot → Name) (p : Slot) (rest : List Instr)
    (h : List (Machine C × Event C)) : Infos :=
  h.foldr (fun x s => match own (.proc p) rest x with
    | some i => s.read x.1.mem (names x) x.2.choice i
    | none => s) ⟨pinfo, fun _ => none⟩

/-- A step of the call in which `kalloc` or `copyout` fails. -/
def Fails (p : Slot) (rest : List Instr) (x : Machine C × Event C) : Bool :=
  match own (.proc p) rest x with
  | some .getpstat => x.2.choice = .alloc .noMemory
  | some (.infoNext _) => x.2.choice = .copyout false
  | _ => false

/-- The entry of a slot. -/
def Mem.entry (d : Mem) (names : Slot → Name) (j : Slot) : ProcStat :=
  if (d.proc j).state = .unused then .zero else (d.proc j).stat d.proc (names j)

/-! ## How far a call has come -/

/-- The call may execute the instruction when it has read `n` slots and copied `d` records out; `none` if it has failed. -/
@[simp] def Instr.reads (i : Instr) (Q : Option (ℕ × ℕ) → Prop) (x : Option (ℕ × ℕ)) : Prop :=
  match i with
  | .acquire _ | .spin _ | .popOff | .leafCalls => Q x
  | .release (.proc j) => ∃ d, x = some (j.val, d) ∧ Q (some (j.val + 1, d))
  | .release _ => Q x
  | .getpstat => x = some (0, 0) ∧ Q (some (NPROC, 0)) ∧ Q none
  | .statFrom j => ∃ d, x = some (j.val, d) ∧ Q (some (NPROC, d))
  | .infoFrom j => x = some (j.val, j.val) ∧ Q (some (NPROC, NPROC)) ∧ Q none
  | .infoNext j => x = some (j.val + 1, j.val) ∧ Q (some (NPROC, NPROC)) ∧ Q none
  | _ => False

/-- What an instruction of the call does to how far it has come. -/
def Instr.readsTo (ch : Choice) (x : Option (ℕ × ℕ)) : Instr → Option (ℕ × ℕ)
  | .release (.proc _) => x.map fun y => (y.1 + 1, y.2)
  | .getpstat => if ch = .alloc .ok then x else none
  | .infoNext _ => if ch = .copyout true then x.map fun y => (y.1, y.2 + 1) else none
  | _ => x

theorem Instr.next_of_reads (hw : i.reads Q x) : ∃ y, Q y := by
  cases i <;> simp only [Instr.reads] at hw
  case acquire | spin | popOff | leafCalls => exact ⟨_, hw⟩
  case release l =>
    cases l <;> simp only at hw
    case proc =>
      obtain ⟨d, -, hQ⟩ := hw
      exact ⟨_, hQ⟩
    all_goals exact ⟨_, hw⟩
  case getpstat | infoFrom | infoNext => exact ⟨_, hw.2.1⟩
  case statFrom =>
    obtain ⟨d, -, hQ⟩ := hw
    exact ⟨_, hQ⟩

/-- **A step of the calls.** -/
theorem Pushes.reads (hp : Pushes m c ch i k) (hw : i.reads Q x) :
    k.foldr Instr.reads Q (i.readsTo ch x) := by
  cases hp with
  | lockOp hk =>
    cases i with
    | release l =>
      cases hk
      cases l with
      | proc j =>
        obtain ⟨d, rfl, hQ⟩ := hw
        exact hQ
      | _ => exact hw
    | acquire | spin | popOff =>
      cases hk
      exact hw
    | _ => cases hk
  | any hx =>
    cases i <;> simp only [Instr.reads] at hw <;> simp only [Instr.expandAny, reduceCtorEq] at hx
    case leafCalls => split at hx <;> cases hx <;> simpa [Instr.readsTo] using hw
  | proc hp hk =>
    cases i <;> simp only [Instr.reads] at hw <;>
      simp only [Instr.expandProc, reduceCtorEq, Option.some.injEq, Prod.mk.injEq] at hk
    case getpstat =>
      obtain ⟨rfl, hQ, hQ'⟩ := hw
      split at hk <;> cases hk
      · simpa [Instr.readsTo] using hQ
      · simpa [Instr.readsTo] using hQ'
    case statFrom j =>
      obtain ⟨d, rfl, hQ⟩ := hw
      obtain ⟨rfl, rfl⟩ := hk
      simp only [Instr.readsTo, loop]
      cases hn : nextSlot j with
      | some j' =>
        have hval := nextSlot_eq_some.mp hn
        simpa [hval] using hQ
      | none =>
        have hval := succ_eq_of_nextSlot_none hn
        simpa [hval] using hQ
    case infoFrom j =>
      obtain ⟨rfl, hQ, hQ'⟩ := hw
      obtain ⟨rfl, rfl⟩ := hk
      simpa [Instr.readsTo] using ⟨hQ, hQ'⟩
    case infoNext j =>
      obtain ⟨rfl, hQ, hQ'⟩ := hw
      split at hk <;> cases hk
      rename_i ok
      cases ok with
      | false => simpa [Instr.readsTo] using hQ'
      | true =>
        simp only [Instr.readsTo, loop, if_true]
        cases hn : nextSlot j with
        | some j' =>
          have hval := nextSlot_eq_some.mp hn
          simpa [hval] using ⟨hQ, hQ'⟩
        | none =>
          have hval := succ_eq_of_nextSlot_none hn
          simpa [hval] using hQ
  | cpuOp hk => cases i <;> first | exact hw.elim | cases hk
  | _ => exact hw.elim

/-! ## What the reads have to do with the table -/

/-- Slot `j` is read in a step of the call. -/
def ReadAt (p : Slot) (rest : List Instr) (j : Slot) (x : Machine C × Event C) : Prop :=
  own (.proc p) rest x = some (.release (.proc j))

/-- What the steps of a call have to do with how far it has come. -/
structure Reads (r : Pinfo) (names : Machine C × Event C → Slot → Name) (p : Slot) (rest : List Instr)
    (h : List (Machine C × Event C)) (x : Option (ℕ × ℕ)) : Prop where
  failed : x = none → ∃ y ∈ h, Fails p rest y = true
  consistent : (kstat names p rest h).Consistent
  fresh : ∀ n d, x = some (n, d) → ∀ j : Slot, n ≤ j.val → (kstat names p rest h).procs j = .zero
  entry : ∀ n d, x = some (n, d) → ∀ j : Slot, j.val < n → ∃ y ∈ h, ReadAt p rest j y ∧
    (kstat names p rest h).procs j = y.1.mem.entry (names y) j
  pinfo : ∀ n d, x = some (n, d) → ∀ j : Slot, n = j.val + 1 → ∃ y ∈ h, ReadAt p rest j y ∧
    (infos r names p rest h).pinfo.Agrees (y.1.mem.proc j) (names y j)
  user : ∀ n d, x = some (n, d) → ∀ j : Slot, j.val < d → ∃ y ∈ h, ReadAt p rest j y ∧
    ∃ q, (infos r names p rest h).user j = some q ∧ q.Agrees (y.1.mem.proc j) (names y j)

theorem Reads.nil (r : Pinfo) : Reads r names p rest [] (some (0, 0)) where
  failed := by simp
  consistent := Pstat.consistent_zero
  fresh := fun _ _ _ _ _ => rfl
  entry := by
    intro n d hx j hj
    cases hx
    omega
  pinfo := by
    intro n d hx j hj
    cases hx
    omega
  user := by
    intro n d hx j hj
    cases hx
    omega

theorem Pstat.procs_add_self {s : Pstat} {d : Mem} {names : Slot → Name} (hs : s.procs j = .zero) :
    (s.add d.proc j (names j)).procs j = d.entry names j := by
  unfold Pstat.add Mem.entry
  by_cases hst : (d.proc j).state = .unused
  · rw [if_pos hst, if_pos hst, hs]
  · rw [if_neg hst, if_neg hst]
    exact update_self _ _ _

section Step

variable {r : Pinfo} {x : Option (ℕ × ℕ)} {z : Machine C × Event C}

/-- A step that reads no slot and copies nothing out. -/
theorem Reads.quiet (ht : Reads r names p rest h x) (hc : (kstat names p rest (z :: h)).Consistent)
    (hk : (kstat names p rest (z :: h)).procs = (kstat names p rest h).procs)
    (hi : infos r names p rest (z :: h) = infos r names p rest h) : Reads r names p rest (z :: h) x := by
  have hmem : ∀ y ∈ h, y ∈ z :: h := fun y hy => List.mem_cons_of_mem _ hy
  refine ⟨fun hx => ?_, hc, ?_, ?_, ?_, ?_⟩
  · obtain ⟨y, hy, hf⟩ := ht.failed hx
    exact ⟨y, hmem y hy, hf⟩
  · rw [hk]
    exact ht.fresh
  · intro n d hx j hj
    obtain ⟨y, hy, hat, he⟩ := ht.entry n d hx j hj
    exact ⟨y, hmem y hy, hat, by rw [hk, he]⟩
  · intro n d hx j hj
    obtain ⟨y, hy, hat, he⟩ := ht.pinfo n d hx j hj
    exact ⟨y, hmem y hy, hat, by rwa [hi]⟩
  · intro n d hx j hj
    obtain ⟨y, hy, hat, he⟩ := ht.user n d hx j hj
    exact ⟨y, hmem y hy, hat, by rwa [hi]⟩

theorem kstat_cons (hown : own (.proc p) rest z = some i) :
    kstat names p rest (z :: h) = (kstat names p rest h).read z.1.mem (names z) i := by
  simp only [kstat, List.foldr_cons, hown]

theorem infos_cons (hown : own (.proc p) rest z = some i) :
    infos r names p rest (z :: h) = (infos r names p rest h).read z.1.mem (names z) z.2.choice i := by
  simp only [infos, List.foldr_cons, hown]

theorem Reads.other (ht : Reads r names p rest h x) (hown : own (.proc p) rest z = none) :
    Reads r names p rest (z :: h) x := by
  have hk : kstat names p rest (z :: h) = kstat names p rest h := by simp only [kstat, List.foldr_cons, hown]
  have hi : infos r names p rest (z :: h) = infos r names p rest h := by simp only [infos, List.foldr_cons, hown]
  exact ht.quiet (by rw [hk]; exact ht.consistent) (by rw [hk]) hi

/-- A slot is read. -/
theorem Reads.release {d : ℕ} (ht : Reads r names p rest h (some (j.val, d))) (hz : MachineReach C h0 z.1)
    (hown : own (.proc p) rest z = some (.release (.proc j))) :
    Reads r names p rest (z :: h) (some (j.val + 1, d)) := by
  have hk : kstat names p rest (z :: h) = (kstat names p rest h).add z.1.mem.proc j (names z j) := kstat_cons hown
  have hi : infos r names p rest (z :: h) =
      { infos r names p rest h with pinfo := (z.1.mem.proc j).info (names z j) (infos r names p rest h).pinfo } :=
    infos_cons hown
  have hfresh : (kstat names p rest h).procs j = .zero := ht.fresh _ _ rfl j le_rfl
  have hmem : ∀ y ∈ h, y ∈ z :: h := fun y hy => List.mem_cons_of_mem _ hy
  refine ⟨by simp, ?_, ?_, ?_, ?_, ?_⟩
  · rw [hk]
    obtain ⟨hprio, hticks⟩ := hz.quantum j
    refine ht.consistent.add _ ?_ hprio hticks
    rw [hfresh]
    simp [ProcStat.zero]
  · intro n d' hx j' hj'
    cases hx
    have hne : j' ≠ j := by
      rintro rfl
      omega
    rw [hk, Pstat.procs_add hne]
    exact ht.fresh _ _ rfl j' (by omega)
  · intro n d' hx j' hj'
    cases hx
    rcases eq_or_ne j' j with rfl | hne
    · exact ⟨z, List.mem_cons_self, hown, by rw [hk, Pstat.procs_add_self hfresh]⟩
    · have hlt : j'.val < j.val := by
        have := Fin.val_ne_of_ne hne
        omega
      obtain ⟨y, hy, hat, he⟩ := ht.entry _ _ rfl j' hlt
      exact ⟨y, hmem y hy, hat, by rw [hk, Pstat.procs_add hne, he]⟩
  · intro n d' hx j' hj'
    cases hx
    obtain rfl : j' = j := Fin.ext (by omega)
    refine ⟨z, List.mem_cons_self, hown, ?_⟩
    rw [hi]
    exact Proc.info_agrees _ _ _
  · intro n d' hx j' hj'
    cases hx
    obtain ⟨y, hy, hat, he⟩ := ht.user _ _ rfl j' hj'
    exact ⟨y, hmem y hy, hat, by rwa [hi]⟩

/-- A record is copied out. -/
theorem Reads.copyout (ht : Reads r names p rest h (some (j.val + 1, j.val)))
    (hown : own (.proc p) rest z = some (.infoNext j)) (hch : z.2.choice = .copyout true) :
    Reads r names p rest (z :: h) (some (j.val + 1, j.val + 1)) := by
  have hk : kstat names p rest (z :: h) = kstat names p rest h := kstat_cons hown
  have hi : infos r names p rest (z :: h) = { infos r names p rest h with
      user := update (infos r names p rest h).user j (some (infos r names p rest h).pinfo) } := by
    rw [infos_cons hown, Infos.read, if_pos hch]
  have hmem : ∀ y ∈ h, y ∈ z :: h := fun y hy => List.mem_cons_of_mem _ hy
  refine ⟨by simp, by rw [hk]; exact ht.consistent, ?_, ?_, ?_, ?_⟩
  · intro n d' hx
    cases hx
    rw [hk]
    exact ht.fresh _ _ rfl
  · intro n d' hx j' hj'
    cases hx
    obtain ⟨y, hy, hat, he⟩ := ht.entry _ _ rfl j' hj'
    exact ⟨y, hmem y hy, hat, by rw [hk, he]⟩
  · intro n d' hx j' hj'
    cases hx
    obtain ⟨y, hy, hat, he⟩ := ht.pinfo _ _ rfl j' hj'
    exact ⟨y, hmem y hy, hat, by rwa [hi]⟩
  · intro n d' hx j' hj'
    cases hx
    rw [hi]
    rcases eq_or_ne j' j with rfl | hne
    · obtain ⟨y, hy, hat, he⟩ := ht.pinfo _ _ rfl j' rfl
      exact ⟨y, hmem y hy, hat, _, update_self _ _ _, he⟩
    · have hlt : j'.val < j.val := by
        have := Fin.val_ne_of_ne hne
        omega
      obtain ⟨y, hy, hat, q, hq, he⟩ := ht.user _ _ rfl j' hlt
      exact ⟨y, hmem y hy, hat, q, (update_of_ne hne _ _).trans hq, he⟩

/-- The call fails. -/
theorem Reads.fail (ht : Reads r names p rest h x) (hown : own (.proc p) rest z = some i)
    (hf : Fails p rest z = true) : Reads r names p rest (z :: h) none := by
  have hk : kstat names p rest (z :: h) = kstat names p rest h := by
    rw [kstat_cons hown]
    cases i with
    | release l =>
      rw [Fails, hown] at hf
      cases hf
    | _ => rfl
  exact ⟨fun _ => ⟨z, List.mem_cons_self, hf⟩, by rw [hk]; exact ht.consistent, by simp, by simp, by simp, by simp⟩

end Step

/-- `getpstat` and `getprocinfo`. -/
theorem reads_rule (r : Pinfo) (names : Machine C × Event C → Slot → Name) (p : Slot) (rest : List Instr) :
    CallRule (.proc p) rest Instr.reads (Reads r names p rest) where
  inside := by
    intro i Q x hw
    refine ⟨?_, ?_, ?_, fun status => ?_⟩ <;> rintro rfl <;> exact hw
  next := Instr.next_of_reads
  other := fun hown ht => ht.other hown
  push := by
    intro h' h m c ch i k Q x hr htid hp hown hw ht
    refine ⟨i.readsTo ch x, hp.reads hw, ?_⟩
    cases i <;> simp only [Instr.reads] at hw
    case acquire | spin | popOff | leafCalls | statFrom | infoFrom =>
      refine ht.quiet ?_ ?_ (infos_cons hown)
      · rw [kstat_cons hown]
        exact ht.consistent
      · rw [kstat_cons hown]
        rfl
    case release l =>
      by_cases hl : ∃ j, l = .proc j
      · obtain ⟨j, rfl⟩ := hl
        obtain ⟨d, rfl, -⟩ := hw
        exact ht.release hr hown
      · have hto : (Instr.release l).readsTo ch x = x := by
          cases l with
          | proc j => exact absurd ⟨j, rfl⟩ hl
          | _ => rfl
        have hi : infos r names p rest ((m, .run c ch) :: h) = infos r names p rest h := by
          rw [infos_cons hown]
          cases l with
          | proc j => exact absurd ⟨j, rfl⟩ hl
          | _ => rfl
        have hk := ht.consistent
        rw [hto]
        -- the system-wide fields are not compared with anything
        refine ht.quiet ?_ ?_ hi <;> rw [kstat_cons hown]
        · cases l with
          | proc j => exact absurd ⟨j, rfl⟩ hl
          | ticks | mlfq => exact ⟨hk.total, hk.queues, hk.running, hk.sleeping, hk.runnable, hk.state, hk.slice, hk.bit⟩
          | _ => exact hk
        · cases l with
          | proc j => exact absurd ⟨j, rfl⟩ hl
          | _ => rfl
    case getpstat =>
      by_cases hch : ch = .alloc .ok
      · rw [Instr.readsTo, if_pos hch]
        refine ht.quiet ?_ ?_ (infos_cons hown) <;> rw [kstat_cons hown]
        · exact ht.consistent
        · rfl
      · rw [Instr.readsTo, if_neg hch]
        refine ht.fail hown ?_
        rw [Fails, hown]
        refine decide_eq_true ?_
        cases hp with
        | lockOp hk | cpuOp hk => cases hk
        | any hx => cases hx
        | proc _ hk =>
          simp only [Instr.expandProc] at hk
          split at hk <;> cases hk
          · exact absurd rfl hch
          · rfl
    case infoNext j =>
      obtain ⟨rfl, -⟩ := hw
      by_cases hch : ch = .copyout true
      · rw [Instr.readsTo, if_pos hch]
        exact ht.copyout hown hch
      · rw [Instr.readsTo, if_neg hch]
        refine ht.fail hown ?_
        rw [Fails, hown]
        refine decide_eq_true ?_
        cases hp with
        | lockOp hk | cpuOp hk => cases hk
        | any hx => cases hx
        | proc _ hk =>
          simp only [Instr.expandProc] at hk
          split at hk <;> cases hk
          rename_i ok
          cases ok with
          | false => rfl
          | true => exact absurd rfl hch

/-- A call that has returned, and has not failed. -/
structure Completed (p : Slot) (call : Call) (rest : List Instr) (m0 : Machine C) (h : List (Machine C × Event C))
    (m : Machine C) : Prop where
  call : InCall (.proc p) call.code rest m0 h m
  returned : m.stack (.proc p) = rest
  succeeds : ∀ x ∈ h, Fails p rest x = false

/-- **What `getpstat` delivers**: the entries are those of the slots as the call has read them, each once, and the counters
agree with them. -/
theorem getpstat_delivers (names : Machine C × Event C → Slot → Name) (hr : MachineReach C h0 m0)
    (hcall : Completed p .getpstat rest m0 h m) : (kstat names p rest h).Consistent ∧
      ∀ j, ∃ x ∈ h, ReadAt p rest j x ∧ (kstat names p rest h).procs j = x.1.mem.entry (names x) j := by
  have hw : Call.getpstat.code.foldr Instr.reads (fun y => y = some (NPROC, 0) ∨ y = none) (some (0, 0)) := by
    simp [Call.code]
  obtain ⟨x, hx, ht⟩ := (reads_rule ⟨0, 0, 0, 0, 0, 0, fun _ => 0⟩ names p rest).returned hr hcall.call hw (Reads.nil _)
    hcall.returned
  refine ⟨ht.consistent, fun j => ?_⟩
  rcases hx with rfl | rfl
  · exact ht.entry _ _ rfl j j.isLt
  · obtain ⟨y, hy, hf⟩ := ht.failed rfl
    cases hf.symm.trans (hcall.succeeds y hy)

/-- **What `getprocinfo` delivers**: a record for each slot, which agrees with the slot as the call has read it. -/
theorem getprocinfo_delivers (r : Pinfo) (names : Machine C × Event C → Slot → Name) (hr : MachineReach C h0 m0)
    (hcall : Completed p .getpinfo rest m0 h m) (j : Slot) : ∃ x ∈ h, ReadAt p rest j x ∧
      ∃ q, (infos r names p rest h).user j = some q ∧ q.Agrees (x.1.mem.proc j) (names x j) := by
  have hw : Call.getpinfo.code.foldr Instr.reads (fun y => y = some (NPROC, NPROC) ∨ y = none) (some (0, 0)) := by
    simp [Call.code]
  obtain ⟨x, hx, ht⟩ := (reads_rule r names p rest).returned hr hcall.call hw (Reads.nil _) hcall.returned
  rcases hx with rfl | rfl
  · exact ht.user _ _ rfl j j.isLt
  · obtain ⟨y, hy, hf⟩ := ht.failed rfl
    cases hf.symm.trans (hcall.succeeds y hy)

/-- **Snapshots**: whatever the other CPUs do, the entries and the counters of what `getpstat` delivers agree with each
other, and the records of `getprocinfo` agree with the table if it does not change. -/
theorem snapshots (names : Machine C × Event C → Slot → Name) (hr : MachineReach C h0 m0) :
    (∀ p rest h m, Completed p .getpstat rest m0 h m → (kstat names p rest h).Consistent ∧
      ∀ j, ∃ x ∈ h, ReadAt p rest j x ∧ (kstat names p rest h).procs j = x.1.mem.entry (names x) j) ∧
    ∀ p rest h m r f name, Completed p .getpinfo rest m0 h m → (∀ x ∈ h, x.1.mem.proc = f ∧ names x = name) →
      ∀ j, ∃ q, (infos r names p rest h).user j = some q ∧ q.Agrees (f j) (name j) := by
  refine ⟨fun p rest h m hcall => getpstat_delivers names hr hcall, fun p rest h m r f name hcall hsame j => ?_⟩
  obtain ⟨x, hx, -, q, hq, hag⟩ := getprocinfo_delivers r names hr hcall j
  obtain ⟨hf, hn⟩ := hsame x hx
  rw [hf, hn] at hag
  exact ⟨q, hq, hag⟩

/-- A call of `getpstat` of `initproc`, and one of `getprocinfo`, in runs of one CPU. -/
def pstatCall : List (Event 1) :=
  [.run 0 (.alloc .ok), .run 0 .leave] ++ goOn (8 + 5 * NPROC) ++ [.run 0 .leave]

def infoCall : List (Event 1) := (List.replicate NPROC (goOn 5 ++ [.run 0 (.copyout true)])).flatten

theorem snapshots_init :
    (∃ h0 m0 h m, MachineReach 1 h0 m0 ∧ Completed initproc .getpstat afterSyscall m0 h m ∧
      (kstat (fun _ _ _ => 0) initproc afterSyscall h).Consistent) ∧
    ∃ h0 m0 h m, MachineReach 1 h0 m0 ∧ Completed initproc .getpinfo afterSyscall m0 h m ∧
      ∀ j, ∃ q, (infos ⟨0, 0, 0, 0, 0, 0, fun _ => 0⟩ (fun _ _ _ => 0) initproc afterSyscall h).user j = some q ∧
        q.Agrees (m0.mem.proc j) (fun _ => 0) := by
  constructor
  · obtain ⟨h0, m0, h, m, hr, hcall, hret, hok⟩ := exists_inCall_of_replay Call.getpstat.code afterSyscall
      (fun _ _ h m => m.stack (.proc initproc) = afterSyscall ∧ ∀ x ∈ h, Fails initproc afterSyscall x = false)
      (initUser ++ trapTo .getpstat) pstatCall (by decide +kernel)
    have hdone : Completed initproc .getpstat afterSyscall m0 h m := ⟨hcall, hret, hok⟩
    exact ⟨h0, m0, h, m, hr, hdone, ((snapshots (fun _ _ _ => 0) hr).1 _ _ _ _ hdone).1⟩
  · obtain ⟨h0, m0, h, m, hr, hcall, ⟨hret, hok⟩, hsame⟩ := exists_inCall_of_replay Call.getpinfo.code afterSyscall
      (fun _ m0 h m => (m.stack (.proc initproc) = afterSyscall ∧ ∀ x ∈ h, Fails initproc afterSyscall x = false) ∧
        ∀ x ∈ h, ∀ j, x.1.mem.proc j = m0.mem.proc j)
      (initUser ++ trapTo .getpinfo) infoCall (by decide +kernel)
    have hdone : Completed initproc .getpinfo afterSyscall m0 h m := ⟨hcall, hret, hok⟩
    refine ⟨h0, m0, h, m, hr, hdone, fun j => ?_⟩
    exact (snapshots (fun _ _ _ => 0) hr).2 _ _ _ _ _ m0.mem.proc (fun _ _ => 0) hdone
      (fun x hx => ⟨funext (hsame x hx), rfl⟩) j

end Xv6Mlfq
