import Xv6Mlfq.Lib.Path
import Xv6Mlfq.Lib.Ring
import Xv6Mlfq.Lib.Own
import Mathlib.Data.Fintype.Card

/-!
# Xv6Mlfq.Virtio — requests to the disk

`virtio_disk.c` with the device.  A call of `virtio_disk_rw` is named by its buffer, whose sleep-lock the caller holds
(`bread`, `bwrite`), so that there is at most one for each buffer.  A step is one `alloc_desc` or `free_desc`, one test of a
loop, or the straight code between them, by who holds `vdisk_lock`; a sleeping caller may come back at any time.  The device
takes the chains from the available ring, in order, and completes those it has taken in any order, with status 0.

* `step`: the machine.
* `Inv`: who has which descriptor, and where each published chain is.
* `request_bookkeeping`: descriptors, completions, rings and panics.

The addresses and lengths in the descriptors and the `ops` array are left out: only the device reads them.
-/

namespace Xv6Mlfq.Virtio

open Function

/-- `NUM`, the number of descriptors -/
abbrev NUM : ℕ := 8

def VRING_DESC_F_NEXT : ℕ := 1

def VRING_DESC_F_WRITE : ℕ := 2

/-- `struct virtq_desc` -/
structure Desc where
  flags : ℕ
  next : ℕ
  deriving DecidableEq

/-- `struct virtq_avail` and `struct virtq_used`; `idx` has 16 bits. -/
structure Virtq where
  ring : Fin NUM → Fin NUM
  idx : ℕ

/-- `disk.info[i]` -/
structure Info (B : Type) where
  b : Option B
  status : ℕ

/-- How far a call of `virtio_disk_rw` is: outside; at `acquire`, or in `sleep` for descriptors; in `alloc3_desc`, with those it
has got; in its error path, with those still to be freed; with the chain written to the ring; at the test of `b->disk`; in
`sleep` for the completion; in `free_chain`, at descriptor `n`. -/
inductive Phase
  | out | entering
  | alloc (idx : List (Fin NUM)) | undo (idx : List (Fin NUM))
  | written (i j k : Fin NUM) | testing (i j k : Fin NUM) | asleep (i j k : Fin NUM)
  | freeing (i j k : Fin NUM) (n : ℕ)
  deriving DecidableEq

inductive Holder (B : Type)
  | rw (b : B) | intr
  deriving DecidableEq

/-- `.null`: a null pointer is dereferenced. -/
inductive Panic
  | freeDesc1 | freeDesc2 | intrStatus | null
  deriving DecidableEq

/-- `struct disk`, the `disk` flags of the buffers, the lock, the calls, and the device: how many entries of the available ring
it has taken (16 bits), and the chains it has taken and not completed. -/
structure Disk (B : Type) where
  desc : Fin NUM → Desc
  avail : Virtq
  used : Virtq
  free : Fin NUM → Bool
  usedIdx : ℕ
  info : Fin NUM → Info B
  disk : B → Bool
  vdiskLock : Option (Holder B)
  phase : B → Phase
  seen : ℕ
  taken : List (Fin NUM)
  panicked : Option Panic

inductive Event (B : Type)
  /- `virtio_disk_rw` -/
  | call (b : B) | acquire (b : B) | allocDesc (b : B) | undo (b : B) | write (b : B) (write : Bool) | publish (b : B)
  | test (b : B) | freeChain (b : B)
  /- `virtio_disk_intr`: `acquire`, a round of the loop or `release` -/
  | intr | intrLoop
  /- the device -/
  | take | complete (i : Fin NUM)

variable {B : Type} {p : Phase} {w : Bool} {x : Fin NUM} {d : Fin NUM → Desc} {idx q : List (Fin NUM)}
  {v : Option (Holder B)} {r : ℕ} {v' : Virtq}

/-- `virtio_disk_init` -/
def init : Disk B where
  desc := fun _ => ⟨0, 0⟩
  avail := ⟨fun _ => 0, 0⟩
  used := ⟨fun _ => 0, 0⟩
  free := fun _ => true
  usedIdx := 0
  info := fun _ => ⟨none, 0⟩
  disk := fun _ => false
  vdiskLock := none
  phase := fun _ => .out
  seen := 0
  taken := []
  panicked := none

/-- `alloc_desc`: the first free descriptor. -/
def allocDesc (free : Fin NUM → Bool) : Option (Fin NUM) := (List.finRange NUM).find? fun i => free i

/-- `free_desc` -/
def Disk.freeDesc (s : Disk B) (i : ℕ) : Disk B :=
  if h : i < NUM then
    if s.free ⟨i, h⟩ then { s with panicked := some .freeDesc2 }
    else { s with desc := update s.desc ⟨i, h⟩ ⟨0, 0⟩, free := update s.free ⟨i, h⟩ true }
  else { s with panicked := some .freeDesc1 }

/-- The chain of `virtio_disk_rw`. -/
def chain (desc : Fin NUM → Desc) (write : Bool) (i j k : Fin NUM) : Fin NUM → Desc :=
  let desc := update desc i ⟨VRING_DESC_F_NEXT, j⟩
  let desc := update desc j ⟨(if write then 0 else VRING_DESC_F_WRITE) ||| VRING_DESC_F_NEXT, k⟩
  update desc k ⟨VRING_DESC_F_WRITE, 0⟩

/-- A 16-bit index plus one. -/
def inc16 (n : ℕ) : ℕ := (n + 1) % 2 ^ 16

variable [DecidableEq B]

/-- From the format of the descriptors to the entry in the available ring. -/
def Disk.format (s : Disk B) (b : B) (write : Bool) (i j k : Fin NUM) : Disk B :=
  { s with
    desc := chain s.desc write i j k
    info := update s.info i ⟨some b, 0xff⟩
    disk := update s.disk b true
    avail := { s.avail with ring := update s.avail.ring (Fin.ofNat NUM s.avail.idx) i } }

/-- The device takes an entry of the available ring. -/
def Disk.take (s : Disk B) : Disk B :=
  { s with seen := inc16 s.seen, taken := s.avail.ring (Fin.ofNat NUM s.seen) :: s.taken }

/-- The device completes a chain it has taken. -/
def Disk.complete (s : Disk B) (i : Fin NUM) : Disk B :=
  { s with
    taken := s.taken.erase i
    info := update s.info i { s.info i with status := 0 }
    used := ⟨update s.used.ring (Fin.ofNat NUM s.used.idx) i, inc16 s.used.idx⟩ }

def Disk.setPhase (s : Disk B) (b : B) (p : Phase) : Disk B := { s with phase := update s.phase b p }

/-- `free_chain` at descriptor `n`, with the `release` and the return after the last. -/
def Disk.freeChain (s : Disk B) (b : B) (i j k : Fin NUM) (n : ℕ) : Disk B :=
  let d := s.desc (Fin.ofNat NUM n)
  let s := s.freeDesc n
  if d.flags &&& VRING_DESC_F_NEXT ≠ 0 then s.setPhase b (.freeing i j k d.next)
  else { s with vdiskLock := none }.setPhase b .out

/-- A round of the loop of `virtio_disk_intr`, or the `release` after it. -/
def Disk.intrLoop (s : Disk B) : Disk B :=
  if s.usedIdx = s.used.idx then { s with vdiskLock := none }
  else
    let id := s.used.ring (Fin.ofNat NUM s.usedIdx)
    if (s.info id).status ≠ 0 then { s with panicked := some .intrStatus }
    else match (s.info id).b with
      | none => { s with panicked := some .null }
      | some b => { s with disk := update s.disk b false, usedIdx := inc16 s.usedIdx }

/-- The step of `e`, if it is enabled. -/
def Disk.next (s : Disk B) : Event B → Option (Disk B)
  | .call b => if s.phase b = .out then some (s.setPhase b .entering) else none
  | .acquire b =>
    if s.vdiskLock = none then
      match s.phase b with
      | .entering => some ({ s with vdiskLock := some (.rw b) }.setPhase b (.alloc []))
      | .asleep i j k => some ({ s with vdiskLock := some (.rw b) }.setPhase b (.testing i j k))
      | _ => none
    else none
  | .allocDesc b =>
    match s.phase b with
    | .alloc idx =>
      if idx.length < 3 then
        match allocDesc s.free with
        | some i => some ({ s with free := update s.free i false }.setPhase b (.alloc (idx ++ [i])))
        | none => some (s.setPhase b (.undo idx))
      else none
    | _ => none
  | .undo b =>
    match s.phase b with
    | .undo (i :: idx) => some ((s.freeDesc i).setPhase b (.undo idx))
    -- `alloc3_desc` returns -1: `sleep(&disk.free[0])`
    | .undo [] => some ({ s with vdiskLock := none }.setPhase b .entering)
    | _ => none
  | .write b write =>
    match s.phase b with
    | .alloc [i, j, k] =>
      some ((s.format b write i j k).setPhase b (.written i j k))
    | _ => none
  | .publish b =>
    match s.phase b with
    | .written i j k => some ({ s with avail := { s.avail with idx := inc16 s.avail.idx } }.setPhase b (.testing i j k))
    | _ => none
  | .test b =>
    match s.phase b with
    | .testing i j k =>
      if s.disk b then some ({ s with vdiskLock := none }.setPhase b (.asleep i j k))
      else some ({ s with info := update s.info i { s.info i with b := none } }.setPhase b (.freeing i j k i))
    | _ => none
  | .freeChain b =>
    match s.phase b with
    | .freeing i j k n => some (s.freeChain b i j k n)
    | _ => none
  | .intr => if s.vdiskLock = none then some { s with vdiskLock := some .intr } else none
  | .intrLoop => if s.vdiskLock = some .intr then some s.intrLoop else none
  | .take => if s.seen ≠ s.avail.idx then some s.take else none
  | .complete i => if i ∈ s.taken then some (s.complete i) else none

/-- One step; none after a panic. -/
def step (s : Disk B) (e : Event B) : Option (Disk B) := if s.panicked = none then s.next e else none

/-! ## Steps by cases -/

/-- The steps, by cases. -/
inductive DiskStep (s : Disk B) : Event B → Disk B → Prop
  | call {b : B} : s.phase b = .out → DiskStep s (.call b) (s.setPhase b .entering)
  | enter {b : B} : s.vdiskLock = none → s.phase b = .entering →
      DiskStep s (.acquire b) ({ s with vdiskLock := some (.rw b) }.setPhase b (.alloc []))
  | wake {b : B} {i j k : Fin NUM} : s.vdiskLock = none → s.phase b = .asleep i j k →
      DiskStep s (.acquire b) ({ s with vdiskLock := some (.rw b) }.setPhase b (.testing i j k))
  | alloc {b : B} {idx : List (Fin NUM)} {i : Fin NUM} : s.phase b = .alloc idx → s.free i = true →
      DiskStep s (.allocDesc b) ({ s with free := update s.free i false }.setPhase b (.alloc (idx ++ [i])))
  | fail {b : B} {idx : List (Fin NUM)} : s.phase b = .alloc idx → DiskStep s (.allocDesc b) (s.setPhase b (.undo idx))
  | undo {b : B} {i : Fin NUM} {idx : List (Fin NUM)} : s.phase b = .undo (i :: idx) →
      DiskStep s (.undo b) ((s.freeDesc i).setPhase b (.undo idx))
  | retry {b : B} : s.phase b = .undo [] → DiskStep s (.undo b) ({ s with vdiskLock := none }.setPhase b .entering)
  | write {b : B} {w : Bool} {i j k : Fin NUM} : s.phase b = .alloc [i, j, k] →
      DiskStep s (.write b w) ((s.format b w i j k).setPhase b (.written i j k))
  | publish {b : B} {i j k : Fin NUM} : s.phase b = .written i j k →
      DiskStep s (.publish b)
        ({ s with avail := { s.avail with idx := inc16 s.avail.idx } }.setPhase b (.testing i j k))
  | sleep {b : B} {i j k : Fin NUM} : s.phase b = .testing i j k → s.disk b = true →
      DiskStep s (.test b) ({ s with vdiskLock := none }.setPhase b (.asleep i j k))
  | done {b : B} {i j k : Fin NUM} : s.phase b = .testing i j k → s.disk b = false →
      DiskStep s (.test b) ({ s with info := update s.info i { s.info i with b := none } }.setPhase b (.freeing i j k i))
  | free {b : B} {i j k : Fin NUM} {n : ℕ} : s.phase b = .freeing i j k n →
      DiskStep s (.freeChain b) (s.freeChain b i j k n)
  | intr : s.vdiskLock = none → DiskStep s .intr { s with vdiskLock := some .intr }
  | loop : s.vdiskLock = some .intr → DiskStep s .intrLoop s.intrLoop
  | take : s.seen ≠ s.avail.idx → DiskStep s .take s.take
  | complete {i : Fin NUM} : i ∈ s.taken → DiskStep s (.complete i) (s.complete i)

variable {s s' s0 : Disk B} {e : Event B} {h : List (Disk B × Event B)} {b b' : B} {i j k : Fin NUM} {n : ℕ} {desc : Fin NUM → Desc} {l : List (Fin NUM)}

theorem free_of_allocDesc {free : Fin NUM → Bool} (ha : allocDesc free = some i) : free i = true := by
  simpa using List.find?_some ha

theorem DiskStep.of_step (hs : step s e = some s') : DiskStep s e s' := by
  unfold step at hs
  rw [Option.ite_none_right_eq_some] at hs
  replace hs := hs.2
  cases e with
  | call b =>
    simp only [Disk.next, Option.ite_none_right_eq_some, Option.some.injEq] at hs
    obtain ⟨hout, rfl⟩ := hs
    exact .call hout
  | acquire b =>
    simp only [Disk.next, Option.ite_none_right_eq_some] at hs
    obtain ⟨hfree, hs⟩ := hs
    split at hs <;> cases hs
    · exact .enter hfree ‹_›
    · exact .wake hfree ‹_›
  | allocDesc b =>
    simp only [Disk.next] at hs
    split at hs
    · rw [Option.ite_none_right_eq_some] at hs
      obtain ⟨-, hs⟩ := hs
      split at hs <;> cases hs
      · exact .alloc ‹_› (free_of_allocDesc ‹_›)
      · exact .fail ‹_›
    · cases hs
  | undo b =>
    simp only [Disk.next] at hs
    split at hs <;> cases hs
    · exact .undo ‹_›
    · exact .retry ‹_›
  | write b w =>
    simp only [Disk.next] at hs
    split at hs <;> cases hs
    exact .write ‹_›
  | publish b =>
    simp only [Disk.next] at hs
    split at hs <;> cases hs
    exact .publish ‹_›
  | test b =>
    simp only [Disk.next] at hs
    split at hs
    · split_ifs at hs with hd <;> cases hs
      · exact .sleep ‹_› hd
      · exact .done ‹_› (by simpa using hd)
    · cases hs
  | freeChain b =>
    simp only [Disk.next] at hs
    split at hs <;> cases hs
    exact .free ‹_›
  | intr =>
    simp only [Disk.next, Option.ite_none_right_eq_some, Option.some.injEq] at hs
    obtain ⟨hfree, rfl⟩ := hs
    exact .intr hfree
  | intrLoop =>
    simp only [Disk.next, Option.ite_none_right_eq_some, Option.some.injEq] at hs
    obtain ⟨hlock, rfl⟩ := hs
    exact .loop hlock
  | take =>
    simp only [Disk.next, Option.ite_none_right_eq_some, Option.some.injEq] at hs
    obtain ⟨hne, rfl⟩ := hs
    exact .take hne
  | complete i =>
    simp only [Disk.next, Option.ite_none_right_eq_some, Option.some.injEq] at hs
    obtain ⟨hmem, rfl⟩ := hs
    exact .complete hmem

/-! ## Descriptors and completions of a call -/

namespace Phase

/-- The descriptors of a call: those of an `alloc3_desc` under way, the chain of a request, and those that `free_chain` has not
come to. -/
def owned : Phase → List (Fin NUM)
  | .out | .entering => []
  | .alloc idx | .undo idx => idx
  | .written i j k | .testing i j k | .asleep i j k => [i, j, k]
  | .freeing i j k n => [i, j, k].dropWhile fun x => x.val ≠ n

/-- The head of the chain of a request, until it has been found complete. -/
def request : Phase → Option (Fin NUM)
  | .written i _ _ | .testing i _ _ | .asleep i _ _ => some i
  | _ => none

/-- The same, from when the device has been told. -/
def awaits : Phase → Option (Fin NUM)
  | .testing i _ _ | .asleep i _ _ => some i
  | _ => none

/-- The call holds `vdisk_lock`. -/
def locked : Phase → Bool
  | .out | .entering | .asleep .. => false
  | _ => true

/-- Its descriptors have been linked. -/
def linked : Phase → Bool
  | .written .. | .testing .. | .asleep .. | .freeing .. => true
  | _ => false

theorem request_of_awaits (ha : p.awaits = some i) : p.request = some i := by
  cases p <;> first | exact ha | cases ha

theorem mem_owned_of_request (hr : p.request = some i) : i ∈ p.owned := by
  cases p with
  | written | testing | asleep =>
    cases hr
    exact List.mem_cons_self
  | out | entering | alloc | undo | freeing => cases hr

end Phase

/-- The completions of the chain of the call's request, since it was written to the ring. -/
def completions (b : B) : List (Disk B × Event B) → ℕ
  | [] => 0
  | (_, .write b' _) :: h => if b' = b then 0 else completions b h
  | (s, .complete i) :: h => if (s.phase b).request = some i then completions b h + 1 else completions b h
  | _ :: h => completions b h

/-- The descriptors that `free_chain` has freed in a call. -/
def freed (b : B) : List (Disk B × Event B) → List ℕ
  | [] => []
  | (_, .test b') :: h => if b' = b then [] else freed b h
  | (s, .freeChain b') :: h =>
    match s.phase b with
    | .freeing _ _ _ n => if b' = b then freed b h ++ [n] else freed b h
    | _ => freed b h
  | _ :: h => freed b h

/-- The descriptors of the list are linked in its order. -/
def Linked (desc : Fin NUM → Desc) : List (Fin NUM) → Prop
  | [] => True
  | [i] => (desc i).flags &&& VRING_DESC_F_NEXT = 0
  | i :: j :: l => (desc i).flags &&& VRING_DESC_F_NEXT ≠ 0 ∧ (desc i).next = j ∧ Linked desc (j :: l)

theorem Linked.congr {desc desc' : Fin NUM → Desc} (hl : Linked desc l)
    (hc : ∀ i ∈ l, desc' i = desc i) : Linked desc' l := by
  induction l with
  | nil => trivial
  | cons i l ih =>
    cases l with
    | nil =>
      show (desc' i).flags &&& VRING_DESC_F_NEXT = 0
      rw [hc i List.mem_cons_self]
      exact hl
    | cons j l =>
      obtain ⟨hflag, hnext, hl⟩ := hl
      have hi := hc i List.mem_cons_self
      exact ⟨by rw [hi]; exact hflag, by rw [hi]; exact hnext, ih hl fun x hx => hc x (List.mem_cons_of_mem _ hx)⟩

theorem linked_chain (hnd : [i, j, k].Nodup) :
    Linked (chain desc w i j k) [i, j, k] := by
  simp only [List.nodup_cons, List.mem_cons, List.not_mem_nil, or_false, not_or] at hnd
  obtain ⟨⟨hij, hik⟩, hjk, -⟩ := hnd
  simp only [Linked, chain, update_self, update_of_ne hij, update_of_ne hik, update_of_ne hjk]
  cases w <;> decide

theorem chain_of_not_mem (hx : x ∉ [i, j, k]) :
    chain desc w i j k x = desc x := by
  simp only [List.mem_cons, List.not_mem_nil, or_false, not_or] at hx
  obtain ⟨hi, hj, hk⟩ := hx
  simp only [chain, update_of_ne hi, update_of_ne hj, update_of_ne hk]

/-! ## The invariant -/

/-- `qa` is what the device has not taken from the available ring, `qu` what `virtio_disk_intr` has not taken from the used
ring. -/
structure Inv (h : List (Disk B × Event B)) (s : Disk B) (qa qu : List (Fin NUM)) : Prop where
  running : s.panicked = none
  parts : Own.Parts s.free (Phase.owned ∘ s.phase)
  lock : ∀ b, (s.phase b).locked = true ↔ s.vdiskLock = some (.rw b)
  linked : ∀ b, (s.phase b).linked = true → Linked s.desc (s.phase b).owned
  avail : Ring.Holds (2 ^ 16) s.avail.ring s.seen s.avail.idx qa
  used : Ring.Holds (2 ^ 16) s.used.ring s.usedIdx s.used.idx qu
  -- a chain that is not complete for its caller is in one place
  nodup : (qa ++ s.taken ++ qu).Nodup
  pending : ∀ i, i ∈ qa ++ s.taken ++ qu ↔ ∃ b, s.disk b = true ∧ (s.phase b).awaits = some i
  written : ∀ {b i j k}, s.phase b = .written i j k → s.disk b = true ∧ s.avail.ring (Fin.ofNat NUM s.avail.idx) = i
  busy : ∀ {b}, s.disk b = true → (s.phase b).request.isSome = true
  info : ∀ {b i}, (s.phase b).request = some i → (s.info i).b = some b
  status : ∀ i ∈ qu, (s.info i).status = 0
  completed : ∀ {b i}, (s.phase b).request = some i → completions b h = if s.disk b = true ∧ i ∉ qu then 0 else 1
  freeing : ∀ {b i j k n}, s.phase b = .freeing i j k n → [i, j, k].Nodup ∧ completions b h = 1 ∧
    n ∈ (s.phase b).owned.map Fin.val ∧ freed b h ++ (s.phase b).owned.map Fin.val = [i.val, j.val, k.val]

theorem phase_self : (s.setPhase b p).phase b = p := update_self _ _ _

theorem owned_eq_self (hp : p.owned = (s.phase b).owned) :
    update (Phase.owned ∘ s.phase) b p.owned = Phase.owned ∘ s.phase := by
  rw [hp]
  exact update_eq_self b _

theorem Inv.init : Inv (B := B) [] init [] [] where
  running := rfl
  parts := Own.Parts.empty
  lock := by
    intro b
    simp [Virtio.init, Phase.locked]
  linked := by
    intro b hl
    cases hl
  avail := Ring.Holds.nil (Nat.two_pow_pos 16)
  used := Ring.Holds.nil (Nat.two_pow_pos 16)
  nodup := List.nodup_nil
  pending := by simp [Virtio.init]
  written := by
    intro b i j k hp
    cases hp
  busy := by
    intro b hb
    cases hb
  info := by
    intro b i hr
    cases hr
  status := by simp
  completed := by
    intro b i hr
    cases hr
  freeing := by
    intro b i j k n hp
    cases hp

variable {qa qu : List (Fin NUM)}

/-- Two calls do not have the same request. -/
theorem Inv.eq_of_request (hi : Inv h s qa qu) (hb : (s.phase b).request = some i) (hb' : (s.phase b').request = some i) :
    b = b' :=
  hi.parts.unique (Phase.mem_owned_of_request hb) (Phase.mem_owned_of_request hb')

/-- Only one call holds the lock. -/
theorem Inv.eq_of_locked (hi : Inv h s qa qu) (hb : (s.phase b).locked = true) (hb' : (s.phase b').locked = true) : b = b' := by
  have h1 := (hi.lock b).mp hb
  have h2 := (hi.lock b').mp hb'
  rw [h1] at h2
  cases h2
  rfl

section Locks

variable {p : Phase}

theorem Inv.lock_keep (hi : Inv h s qa qu) (hp : p.locked = (s.phase b).locked) :
    ∀ b', (update s.phase b p b').locked = true ↔ s.vdiskLock = some (.rw b') := by
  intro b'
  rw [← hi.lock b', update_keeps (g := Phase.locked) hp]

theorem Inv.lock_acquire (hi : Inv h s qa qu) (hfree : s.vdiskLock = none) (hp : p.locked = true) :
    ∀ b', (update s.phase b p b').locked = true ↔ some (Holder.rw b) = some (.rw b') := by
  intro b'
  by_cases hb : b' = b
  · rw [hb, update_self, hp]
    simp
  · rw [update_of_ne hb, hi.lock b', hfree]
    simp [Ne.symm hb]

theorem Inv.lock_release (hi : Inv h s qa qu) (hb : (s.phase b).locked = true) (hp : p.locked = false) :
    ∀ b', (update s.phase b p b').locked = true ↔ none = some (Holder.rw b') := by
  intro b'
  by_cases hb' : b' = b
  · rw [hb', update_self, hp]
    simp
  · rw [update_of_ne hb']
    exact ⟨fun hl => absurd (hi.eq_of_locked hl hb) hb', fun hl => nomatch hl⟩

end Locks

section Moves

variable (hi : Inv h s qa qu)

include hi

/-- The chains in the rings: that of call `b`, and those of the others. -/
theorem Inv.pending_split (x : Fin NUM) : x ∈ qa ++ s.taken ++ qu ↔
    (s.disk b = true ∧ (s.phase b).awaits = some x) ∨ ∃ b' ≠ b, s.disk b' = true ∧ (s.phase b').awaits = some x := by
  rw [hi.pending]
  constructor
  · rintro ⟨b', hd, ha⟩
    by_cases hb : b' = b
    · exact .inl (hb ▸ ⟨hd, ha⟩)
    · exact .inr ⟨b', hb, hd, ha⟩
  · rintro (hb | ⟨b', -, hb⟩)
    · exact ⟨b, hb⟩
    · exact ⟨b', hb⟩

/-- **A step of call `b`** to phase `p`, of which the other calls see nothing. -/
theorem Inv.turn {qa' : List (Fin NUM)} (hphase : s'.phase = update s.phase b p) (hrunning : s'.panicked = none)
    (hparts : Own.Parts s'.free (update (Phase.owned ∘ s.phase) b p.owned))
    (hlock : ∀ b', (update s.phase b p b').locked = true ↔ s'.vdiskLock = some (.rw b'))
    (hlinked : ∀ b', (update s.phase b p b').linked = true → Linked s'.desc (update s.phase b p b').owned)
    (havail : Ring.Holds (2 ^ 16) s'.avail.ring s'.seen s'.avail.idx qa')
    (hused : Ring.Holds (2 ^ 16) s'.used.ring s'.usedIdx s'.used.idx qu) (hnodup : (qa' ++ s'.taken ++ qu).Nodup)
    (hpending : ∀ x, x ∈ qa' ++ s'.taken ++ qu ↔ (s'.disk b = true ∧ p.awaits = some x) ∨
      ∃ b' ≠ b, s.disk b' = true ∧ (s.phase b').awaits = some x)
    -- the other calls
    (hcell : (s.phase b).locked = true ∨ s'.avail = s.avail) (hdisk : ∀ b' ≠ b, s'.disk b' = s.disk b')
    (hinfo : ∀ x ∉ (s.phase b).owned, (s'.info x).b = (s.info x).b) (hstatus : ∀ x ∈ qu, (s'.info x).status = 0)
    (hcompletions : ∀ b' ≠ b, completions b' ((s, e) :: h) = completions b' h)
    (hfreed : ∀ b' ≠ b, freed b' ((s, e) :: h) = freed b' h)
    -- the call
    (hwritten : ∀ i j k, p = .written i j k → s'.disk b = true ∧ s'.avail.ring (Fin.ofNat NUM s'.avail.idx) = i)
    (hbusy : s'.disk b = true → p.request.isSome = true)
    (hrequest : ∀ x, p.request = some x → (s'.info x).b = some b ∧
      completions b ((s, e) :: h) = if s'.disk b = true ∧ x ∉ qu then 0 else 1)
    (hfreeing : ∀ i j k n, p = .freeing i j k n → [i, j, k].Nodup ∧ completions b ((s, e) :: h) = 1 ∧
      n ∈ p.owned.map Fin.val ∧ freed b ((s, e) :: h) ++ p.owned.map Fin.val = [i.val, j.val, k.val]) :
    Inv ((s, e) :: h) s' qa' qu := by
  have hself : s'.phase b = p := by rw [hphase, update_self]
  have hne : ∀ {b'}, b' ≠ b → s'.phase b' = s.phase b' := fun hb => by rw [hphase, update_of_ne hb]
  refine ⟨hrunning, ?_, ?_, ?_, havail, hused, hnodup, fun x => (hpending x).trans ⟨?_, ?_⟩, fun {b' i j k} hp => ?_,
    fun {b'} hd => ?_, fun {b' x} hr => ?_, hstatus, fun {b' x} hr => ?_, fun {b' i j k n} hp => ?_⟩
  · rw [hphase, comp_update]
    exact hparts
  · rw [hphase]
    exact hlock
  · rw [hphase]
    exact hlinked
  · rintro (hb | ⟨b', hb, hd, ha⟩)
    · exact ⟨b, by rwa [hself]⟩
    · exact ⟨b', (hdisk b' hb).trans hd, by rwa [hne hb]⟩
  · rintro ⟨b', hd, ha⟩
    by_cases hb : b' = b
    · rw [hb, hself] at ha
      exact .inl ⟨hb ▸ hd, ha⟩
    · rw [hne hb] at ha
      exact .inr ⟨b', hb, (hdisk b' hb).symm.trans hd, ha⟩
  all_goals by_cases hb : b' = b
  · rw [hb, hself] at hp
    exact hb ▸ hwritten i j k hp
  · rw [hne hb] at hp
    rcases hcell with hl | hsame
    · exact absurd (hi.eq_of_locked (by rw [hp]; rfl) hl) hb
    · rw [hdisk b' hb, hsame]
      exact hi.written hp
  · rw [hb, hself]
    exact hbusy (hb ▸ hd)
  · rw [hne hb]
    exact hi.busy ((hdisk b' hb).symm.trans hd)
  · rw [hb, hself] at hr
    rw [hb]
    exact (hrequest x hr).1
  · rw [hne hb] at hr
    rw [hinfo x fun hx => hb (hi.parts.unique (Phase.mem_owned_of_request hr) hx)]
    exact hi.info hr
  · rw [hb, hself] at hr
    rw [hb]
    exact (hrequest x hr).2
  · rw [hne hb] at hr
    rw [hdisk b' hb, hcompletions b' hb]
    exact hi.completed hr
  · rw [hb, hself] at hp ⊢
    exact hfreeing i j k n hp
  · rw [hne hb] at hp ⊢
    rw [hcompletions b' hb, hfreed b' hb]
    exact hi.freeing hp

/-- A step that moves a call, to where it has the same request, and may give or take descriptors and pass the lock. -/
theorem Inv.move {f : Fin NUM → Bool} {l : Option (Holder B)}
    (hparts : Own.Parts f (update (Phase.owned ∘ s.phase) b p.owned))
    (hlinked : ∀ b', (update s.phase b p b').linked = true → Linked d (update s.phase b p b').owned)
    (hlock : ∀ b', (update s.phase b p b').locked = true ↔ l = some (.rw b')) (hrequest : p.request = (s.phase b).request)
    (hawaits : p.awaits = (s.phase b).awaits) (hwritten : ∀ i j k, p ≠ .written i j k) (hfreeing : ∀ i j k n, p ≠ .freeing i j k n)
    (hcompletions : ∀ b', completions b' ((s, e) :: h) = completions b' h)
    (hfreed : ∀ b' ≠ b, freed b' ((s, e) :: h) = freed b' h) :
    Inv ((s, e) :: h) ({ s with desc := d, free := f, vdiskLock := l }.setPhase b p) qa qu := by
  refine hi.turn (b := b) rfl hi.running hparts hlock hlinked hi.avail hi.used hi.nodup (fun x => ?_) (.inr rfl) (fun _ _ => rfl)
    (fun _ _ => rfl) hi.status (fun b' _ => hcompletions b') hfreed
    (fun i j k hp => absurd hp (hwritten i j k)) (fun hd => ?_) (fun x hx => ?_) fun i j k n hp => absurd hp (hfreeing i j k n)
  · rw [hawaits]
    exact hi.pending_split x
  · rw [hrequest]
    exact hi.busy hd
  · rw [hrequest] at hx
    exact ⟨hi.info hx, (hcompletions b).trans (hi.completed hx)⟩

/-- The chains of the other calls stay linked if only the call's own descriptors change. -/
theorem Inv.linked_update (hout : ∀ x ∉ (s.phase b).owned, d x = s.desc x) (hp : p.linked =
    true → Linked d p.owned) : ∀ b', (update s.phase b p b').linked = true → Linked d (update s.phase b p b').owned := by
  intro b' hl
  by_cases hb : b' = b
  · rw [hb, update_self] at hl ⊢
    exact hp hl
  · rw [update_of_ne hb] at hl ⊢
    refine (hi.linked b' hl).congr fun x hx => hout x fun hx' => ?_
    exact hb (hi.parts.unique hx hx')

/-- The same for a step that leaves the descriptors alone. -/
theorem Inv.pass {l : Option (Holder B)} (howned : p.owned = (s.phase b).owned) (hlinked : p.linked = (s.phase
    b).linked) (hlock : ∀ b', (update s.phase b p b').locked = true ↔ l = some (.rw b')) (hrequest : p.request = (s.phase
    b).request) (hawaits : p.awaits = (s.phase b).awaits) (hwritten : ∀ i j k, p ≠ .written i j k) (hfreeing : ∀ i j k n, p ≠
    .freeing i j k n) (hcompletions : ∀ b', completions b' ((s, e) :: h) = completions b' h) (hfreed : ∀ b' ≠ b, freed b' ((s,
    e) :: h) = freed b' h) : Inv ((s, e) :: h) ({ s with vdiskLock := l }.setPhase b p) qa qu := by
  refine hi.move ?_ (hi.linked_update (fun _ _ => rfl) fun hl => ?_) hlock hrequest hawaits hwritten hfreeing hcompletions hfreed
  · rw [owned_eq_self howned]
    exact hi.parts
  · rw [howned]
    exact hi.linked b (hlinked ▸ hl)

theorem freeDesc_of_mem (hx : i ∈ (s.phase b).owned) : s.freeDesc i =
    { s with desc := update s.desc i ⟨0, 0⟩, free := update s.free i true } := by
  have hfree : s.free i = false := hi.parts.of_mem (o := b) hx
  simp [Disk.freeDesc, hfree]

theorem Inv.alloc (hp : s.phase b = .alloc idx) (hfree : s.free i = true) : Inv ((s, .allocDesc b) :: h)
    ({ s with free := update s.free i false }.setPhase b (.alloc (idx ++ [i]))) qa qu := by
  refine hi.move ?_ (hi.linked_update (fun _ _ => rfl) nofun) (hi.lock_keep (by rw [hp]; rfl)) (by rw [hp]; rfl) (by rw [hp]; rfl)
    nofun nofun (fun _ => rfl) fun _ _ => rfl
  have hgive := hi.parts.give (o := b) hfree
  refine hgive.perm fun b' => ?_
  by_cases hb : b' = b
  · rw [hb, update_self, update_self, comp_apply, hp]
    exact List.perm_append_singleton i idx
  · rw [update_of_ne hb, update_of_ne hb]

theorem Inv.undo (hp : s.phase b = .undo (i :: idx)) : Inv ((s, .undo b) :: h) ((s.freeDesc i).setPhase b
    (.undo idx)) qa qu := by
  have howned : (s.phase b).owned = i :: idx := by rw [hp]; rfl
  have hmem : i ∈ (s.phase b).owned := by rw [howned]; exact List.mem_cons_self
  rw [freeDesc_of_mem hi hmem]
  refine hi.move (hi.parts.release howned) (hi.linked_update (fun x hx => ?_) nofun) (hi.lock_keep (by rw [hp]; rfl))
    (by rw [hp]; rfl) (by rw [hp]; rfl) nofun nofun (fun _ => rfl) fun _ _ => rfl
  exact update_of_ne (fun he : x = i => hx (he ▸ hmem)) _ _

/-- A descriptor of a call that does not wait is not in the rings. -/
theorem Inv.not_pending (hx : i ∈ (s.phase b).owned) (ha : (s.phase b).awaits = none) : i ∉ qa ++ s.taken ++ qu := by
  intro hmem
  obtain ⟨b', -, hb'⟩ := (hi.pending i).mp hmem
  have he : b = b' := hi.parts.unique hx (Phase.mem_owned_of_request (Phase.request_of_awaits hb'))
  rw [he, hb'] at ha
  cases ha

end Moves

theorem length_lt_of_not_mem (hl : l.Nodup) (hi : i ∉ l) : l.length < NUM := by
  have hle := (List.nodup_cons.mpr ⟨hi, hl⟩).length_le_card
  rw [List.length_cons, Fintype.card_fin] at hle
  omega

theorem Inv.avail_room (hi : Inv h s qa qu) (hx : i ∈ (s.phase b).owned) (ha : (s.phase b).awaits = none) :
    qa.length < NUM := by
  have hnot := hi.not_pending hx ha
  simp only [List.mem_append, not_or] at hnot
  exact length_lt_of_not_mem hi.nodup.of_append_left.of_append_left hnot.1.1

theorem Inv.used_room (hi : Inv h s qa qu) (hx : i ∈ s.taken) : qu.length < NUM := by
  have hnd := hi.nodup
  rw [List.append_assoc] at hnd
  exact length_lt_of_not_mem hi.nodup.of_append_right (List.disjoint_of_nodup_append hnd.of_append_right hx)

theorem num_dvd : NUM ∣ 2 ^ 16 := by decide

theorem num_lt : NUM < 2 ^ 16 := by decide

theorem Inv.format (hi : Inv h s qa qu) (hp : s.phase b = .alloc [i, j, k]) :
    Inv ((s, .write b w) :: h) ((s.format b w i j k).setPhase b (.written i j k)) qa qu := by
  have howned : (s.phase b).owned = [i, j, k] := by rw [hp]; rfl
  have hmem : i ∈ (s.phase b).owned := by rw [howned]; exact List.mem_cons_self
  have hnot : i ∉ qu := fun hx => hi.not_pending hmem (by rw [hp]; rfl) (List.mem_append_right _ hx)
  refine hi.turn (b := b) (p := .written i j k) rfl hi.running ?_ (hi.lock_keep (by rw [hp]; rfl))
    (hi.linked_update (fun x hx => chain_of_not_mem (howned ▸ hx)) fun _ => linked_chain (howned ▸ hi.parts.nodup b))
    (hi.avail.write num_dvd (hi.avail_room hmem (by rw [hp]; rfl))) hi.used hi.nodup
    (fun x => (hi.pending_split x).trans (or_congr_left ?_)) (.inl (by rw [hp]; rfl)) (fun b' hb => update_of_ne hb _ _)
    (fun x hx => ?_) (fun x hx => ?_) (fun b' hb => if_neg (Ne.symm hb)) (fun _ _ => rfl) ?_ (fun _ => rfl) ?_ nofun
  · rw [owned_eq_self (by rw [howned]; rfl)]
    exact hi.parts
  · rw [hp]
    simp [Phase.awaits]
  · show (update s.info i ⟨some b, 0xff⟩ x).b = _
    rw [update_of_ne fun he : x = i => hx (he ▸ hmem)]
  · show (update s.info i ⟨some b, 0xff⟩ x).status = 0
    rw [update_of_ne fun he : x = i => hnot (he ▸ hx)]
    exact hi.status x hx
  · rintro _ _ _ ⟨⟩
    exact ⟨update_self _ _ _, update_self _ _ _⟩
  · rintro _ ⟨⟩
    refine ⟨congrArg Info.b (update_self i _ s.info), ?_⟩
    show (if b = b then 0 else completions b h) = if update s.disk b true b = true ∧ i ∉ qu then 0 else 1
    rw [if_pos rfl, if_pos ⟨update_self .., hnot⟩]

theorem Inv.publish (hi : Inv h s qa qu) (hp : s.phase b = .written i j k) :
    Inv ((s, .publish b) :: h) ({ s with avail := { s.avail with idx := inc16 s.avail.idx } }.setPhase b (.testing i j k))
      (qa ++ [i]) qu := by
  have hmem : i ∈ (s.phase b).owned := by rw [hp]; exact List.mem_cons_self
  have hnot := hi.not_pending hmem (by rw [hp]; rfl)
  have hreq : (s.phase b).request = some i := by rw [hp]; rfl
  obtain ⟨hdisk, hcell⟩ := hi.written hp
  have hperm : (qa ++ [i] ++ s.taken ++ qu).Perm (i :: (qa ++ s.taken ++ qu)) := by
    simp only [List.append_assoc, List.cons_append, List.nil_append]
    exact List.perm_middle
  refine hi.turn (b := b) (p := .testing i j k) rfl hi.running ?_ (hi.lock_keep (by rw [hp]; rfl))
    (hi.linked_update (fun _ _ => rfl) fun _ => ?_) (hi.avail.push num_dvd (hi.avail_room hmem (by rw [hp]; rfl)) hcell) hi.used
    (hperm.nodup_iff.mpr (List.nodup_cons.mpr ⟨hnot, hi.nodup⟩)) (fun x => hperm.mem_iff.trans ?_) (.inl (by rw [hp]; rfl))
    (fun _ _ => rfl) (fun _ _ => rfl) hi.status (fun _ _ => rfl) (fun _ _ => rfl) nofun (fun _ => rfl) ?_ nofun
  · rw [owned_eq_self (by rw [hp]; rfl)]
    exact hi.parts
  · have hl := hi.linked b (by rw [hp]; rfl)
    rw [hp] at hl
    exact hl
  · have hold : ¬ (s.disk b = true ∧ (s.phase b).awaits = some x) := fun hx => by
      rw [hp] at hx
      cases hx.2
    rw [List.mem_cons, hi.pending_split (b := b), or_iff_right hold]
    refine or_congr_left ⟨?_, ?_⟩
    · rintro rfl
      exact ⟨hdisk, rfl⟩
    · rintro ⟨-, ⟨⟩⟩
      rfl
  · rintro _ ⟨⟩
    exact ⟨hi.info hreq, hi.completed hreq⟩

theorem Inv.done (hi : Inv h s qa qu) (hp : s.phase b = .testing i j k) (hdisk : s.disk b = false) :
    Inv ((s, .test b) :: h) ({ s with info := update s.info i { s.info i with b := none } }.setPhase b (.freeing i j k i))
      qa qu := by
  have howned : (s.phase b).owned = [i, j, k] := by rw [hp]; rfl
  have hmem : i ∈ (s.phase b).owned := by rw [howned]; exact List.mem_cons_self
  have hfirst : (Phase.freeing i j k i).owned = [i, j, k] := by simp [Phase.owned]
  have hoff : ∀ {q : Prop}, ¬ (s.disk b = true ∧ q) := fun hd => by
    rw [hdisk] at hd
    cases hd.1
  refine hi.turn (b := b) (p := .freeing i j k i) rfl hi.running ?_ (hi.lock_keep (by rw [hp]; rfl))
    (hi.linked_update (fun _ _ => rfl) fun _ => ?_) hi.avail hi.used hi.nodup
    (fun x => (hi.pending_split x).trans (or_congr_left (iff_of_false hoff hoff))) (.inr rfl) (fun _ _ => rfl) (fun x hx => ?_)
    (fun x hx => ?_) (fun _ _ => rfl) (fun b' hb => if_neg (Ne.symm hb)) nofun (fun hd => (hoff ⟨hd, trivial⟩).elim) nofun ?_
  · rw [owned_eq_self (hfirst.trans howned.symm)]
    exact hi.parts
  · have hl := hi.linked b (by rw [hp]; rfl)
    rw [howned] at hl
    rw [hfirst]
    exact hl
  · show (update s.info i _ x).b = _
    rw [update_of_ne fun he : x = i => hx (he ▸ hmem)]
  · show (update s.info i _ x).status = 0
    rw [update_keeps (g := Info.status) (by rfl)]
    exact hi.status x hx
  · rintro _ _ _ _ ⟨⟩
    have hone := hi.completed (b := b) (i := i) (by rw [hp]; rfl)
    rw [if_neg hoff] at hone
    rw [hfirst]
    refine ⟨howned ▸ hi.parts.nodup b, hone, by simp, ?_⟩
    show (if b = b then [] else freed b h) ++ _ = _
    rw [if_pos rfl]
    rfl

/-! ### `free_chain` -/

/-- What is left to free begins with the descriptor `free_chain` is at. -/
theorem owned_freeing (hn : n ∈ (Phase.freeing i j k n).owned.map Fin.val) :
    ∃ x l, (Phase.freeing i j k n).owned = x :: l ∧ x.val = n := by
  cases ho : (Phase.freeing i j k n).owned with
  | nil =>
    rw [ho] at hn
    cases hn
  | cons x l =>
    have hhead := List.head_dropWhile_not (fun x : Fin NUM => decide (x.val ≠ n)) (l := [i, j, k])
      (by rw [show List.dropWhile _ _ = _ from ho]; exact List.cons_ne_nil _ _)
    simp only [show List.dropWhile (fun x : Fin NUM => decide (x.val ≠ n)) [i, j, k] = x :: l from ho, List.head_cons,
      decide_eq_false_iff_not, not_not] at hhead
    exact ⟨x, l, rfl, hhead⟩

/-- From a descriptor of the chain to the one after it. -/
theorem owned_freeing_next (hnd : [i, j, k].Nodup) {y : Fin NUM}
    (ho : (Phase.freeing i j k x).owned = x :: y :: l) : (Phase.freeing i j k y).owned = y :: l := by
  simp only [List.nodup_cons, List.mem_cons, List.not_mem_nil, or_false, not_or] at hnd
  obtain ⟨⟨hij, hik⟩, hjk, -⟩ := hnd
  simp only [Phase.owned, List.dropWhile_cons, ne_eq, Fin.val_inj, decide_not, Bool.not_eq_true', decide_eq_false_iff_not,
    ite_not, List.dropWhile_nil] at ho ⊢
  by_cases hi : i = x
  · subst hi
    simp only [if_true, List.cons.injEq, true_and] at ho
    obtain ⟨rfl, rfl⟩ := ho
    simp [hij]
  · by_cases hj : j = x
    · subst hj
      simp only [hi, if_true, if_false, List.cons.injEq, true_and] at ho
      obtain ⟨rfl, rfl⟩ := ho
      simp [hik, hjk]
    · by_cases hk : k = x <;> simp [hi, hj, hk] at ho

section

variable (hi : Inv h s qa qu)
include hi

/-- One `free_desc` of `free_chain`. -/
theorem Inv.freeOne
    (hp : s.phase b = .freeing i j k x) (howned : (s.phase b).owned = x :: l) (hpo : p.owned = l)
    (hlock : ∀ b', (update s.phase b p b').locked = true ↔ v = some (.rw b'))
    (hnext : p = .out ∧ l = [] ∨ ∃ (y : Fin NUM) (l' : List (Fin NUM)), p = .freeing i j k y ∧ l = y :: l') :
    Inv ((s, .freeChain b) :: h)
      ({ s with desc := update s.desc x ⟨0, 0⟩, free := update s.free x true, vdiskLock := v }.setPhase b p) qa qu := by
  have hmem : x ∈ (s.phase b).owned := by rw [howned]; exact List.mem_cons_self
  have hxl : x ∉ l := (List.nodup_cons.mp (howned ▸ hi.parts.nodup b)).1
  obtain ⟨hnd, hone, -, hfreed⟩ := hi.freeing hp
  obtain ⟨hrequest, hawaits, hwritten⟩ : p.request = none ∧ p.awaits = none ∧ ∀ x y z, p ≠ .written x y z := by
    rcases hnext with ⟨rfl, -⟩ | ⟨y, l', rfl, -⟩ <;> exact ⟨rfl, rfl, nofun⟩
  refine hi.turn (b := b) (p := p) rfl hi.running (hpo ▸ hi.parts.release howned) hlock
    (hi.linked_update (fun y hy => update_of_ne (fun he : y = x => hy (he ▸ hmem)) _ _) fun _ => ?_) hi.avail hi.used hi.nodup
    (fun x => (hi.pending_split x).trans (or_congr_left ?_)) (.inr rfl) (fun _ _ => rfl) (fun _ _ => rfl) hi.status
    (fun _ _ => rfl) (fun b' hb => ?_) (fun i j k he => absurd he (hwritten i j k))
    (fun hd => ?_) (fun x hx => ?_) fun i' j' k' n' ha => ?_
  · have hl := hi.linked b (by rw [hp]; rfl)
    rw [howned] at hl
    rw [hpo]
    have htail : Linked s.desc l := by
      rcases hnext with ⟨-, rfl⟩ | ⟨y, l', -, rfl⟩
      · trivial
      · exact hl.2.2
    exact htail.congr fun y hy => update_of_ne (fun he : y = x => hxl (he ▸ hy)) _ _
  · rw [hp, hawaits]
    simp [Phase.awaits]
  · rw [freed]
    split <;> simp [Ne.symm hb]
  · have hbusy := hi.busy hd
    rw [hp] at hbusy
    cases hbusy
  · rw [hrequest] at hx
    cases hx
  · rw [hpo]
    rcases hnext with ⟨rfl, -⟩ | ⟨y, l', rfl, rfl⟩
    · cases ha
    · cases ha
      have hlist : freed b ((s, .freeChain b) :: h) = freed b h ++ [x.val] := by simp [freed, hp]
      refine ⟨hnd, hone, List.mem_map_of_mem List.mem_cons_self, ?_⟩
      rw [hlist, ← hfreed, howned, List.map_cons, List.append_assoc]
      rfl

/-- `free_chain` frees the descriptors of the call, and none twice. -/
theorem Inv.free (hp : s.phase b = .freeing i j k n) :
    Inv ((s, .freeChain b) :: h) (s.freeChain b i j k n) qa qu ∧
      ((s.freeChain b i j k n).phase b = .out → freed b ((s, .freeChain b) :: h) = [i.val, j.val, k.val]) := by
  obtain ⟨hnd, -, hn, hfreed⟩ := hi.freeing hp
  obtain ⟨x, l, ho, rfl⟩ := owned_freeing (hp ▸ hn)
  have howned : (s.phase b).owned = x :: l := hp ▸ ho
  have hlinked := hi.linked b (by rw [hp]; rfl)
  have hlist : freed b ((s, .freeChain b) :: h) = freed b h ++ [x.val] := by simp [freed, hp]
  rw [howned] at hlinked hfreed
  unfold Disk.freeChain
  simp only [Fin.ofNat_val_eq_self, freeDesc_of_mem hi (b := b) (i := x) (by rw [howned]; exact List.mem_cons_self)]
  cases l with
  | nil =>
    have hflag : (s.desc x).flags &&& VRING_DESC_F_NEXT = 0 := hlinked
    rw [if_neg (by simp [hflag])]
    exact ⟨hi.freeOne hp howned rfl (hi.lock_release (by rw [hp]; rfl) rfl) (.inl ⟨rfl, rfl⟩), fun _ => hlist.trans hfreed⟩
  | cons y l =>
    obtain ⟨hflag, hnext, -⟩ := hlinked
    rw [if_pos hflag, hnext]
    refine ⟨hi.freeOne hp howned (owned_freeing_next hnd ho) (hi.lock_keep (by rw [hp]; rfl)) (.inr ⟨y, l, rfl, rfl⟩), ?_⟩
    intro hout
    rw [phase_self] at hout
    cases hout

/-! ### `virtio_disk_intr` and the device -/

theorem Inv.setLock (hlock : ∀ b, s.vdiskLock ≠ some (.rw b) ∧ v ≠ some (.rw b))
    (hcompletions : ∀ b, completions b ((s, e) :: h) = completions b h) (hfreed : ∀ b, freed b ((s, e) :: h) = freed b h) :
    Inv ((s, e) :: h) { s with vdiskLock := v } qa qu := by
  refine { hi with lock := fun b => ?_, completed := fun {b i} hr => ?_, freeing := fun {b i j k n} hp => ?_ }
  · rw [hi.lock b]
    exact iff_of_false (hlock b).1 (hlock b).2
  · rw [hcompletions]
    exact hi.completed hr
  · rw [hcompletions, hfreed]
    exact hi.freeing hp

theorem Inv.loop (hlock : s.vdiskLock = some .intr) :
    ∃ qu', Inv ((s, .intrLoop) :: h) s.intrLoop qa qu' := by
  unfold Disk.intrLoop
  by_cases hempty : s.usedIdx = s.used.idx
  · rw [if_pos hempty]
    exact ⟨qu, hi.setLock (fun b => by rw [hlock]; exact ⟨nofun, nofun⟩) (fun _ => rfl) fun _ => rfl⟩
  · rw [if_neg hempty]
    cases qu with
    | nil => exact absurd ((hi.used.empty_iff num_lt).mpr rfl) hempty
    | cons i qu =>
      obtain ⟨hfirst, hrest⟩ := hi.used.take num_dvd
      obtain ⟨b, hd, ha⟩ := (hi.pending i).mp (by simp)
      have hr := Phase.request_of_awaits ha
      have hnd := hi.nodup
      have hperm : (qa ++ s.taken ++ i :: qu).Perm (i :: (qa ++ s.taken ++ qu)) := List.perm_middle
      obtain ⟨hnot, hnd'⟩ := List.nodup_cons.mp (hperm.nodup_iff.mp hnd)
      have hoff : ∀ {b'}, update s.disk b false b' = true → b' ≠ b ∧ s.disk b' = true := by
        intro b' hd'
        by_cases hb : b' = b
        · rw [hb, update_self] at hd'
          cases hd'
        · rw [update_of_ne hb] at hd'
          exact ⟨hb, hd'⟩
      simp only [hfirst, hi.status i List.mem_cons_self, hi.info hr]
      rw [if_neg (by simp)]
      refine ⟨qu,
        { hi with
          used := hrest
          nodup := hnd'
          pending := fun x => ?_
          written := fun {b' _ _ _} hp => ?_
          busy := fun {b'} hb' => ?_
          status := fun x hx => hi.status x (List.mem_cons_of_mem _ hx)
          completed := fun {b' x} hx => ?_
          freeing := hi.freeing }⟩
      · have hold := (hperm.mem_iff (a := x)).symm.trans (hi.pending x)
        rw [List.mem_cons] at hold
        constructor
        · intro hx
          obtain ⟨b', hd', ha'⟩ := hold.mp (.inr hx)
          have hb : b' ≠ b := by
            rintro rfl
            rw [ha'] at ha
            cases ha
            exact hnot hx
          exact ⟨b', (update_of_ne hb _ _).trans hd', ha'⟩
        · rintro ⟨b', hd', ha'⟩
          obtain ⟨hb, hd'⟩ := hoff hd'
          refine (hold.mpr ⟨b', hd', ha'⟩).resolve_left ?_
          rintro rfl
          exact hb (hi.eq_of_request (Phase.request_of_awaits ha') hr)
      · have hb : b' ≠ b := by
          rintro rfl
          rw [show s.phase b' = _ from hp] at ha
          cases ha
        exact ⟨(update_of_ne hb _ _).trans (hi.written hp).1, (hi.written hp).2⟩
      · exact hi.busy (hoff hb').2
      · have hc : completions b' h = _ := hi.completed hx
        show completions b' h = if update s.disk b false b' = true ∧ x ∉ qu then 0 else 1
        by_cases hb : b' = b
        · rw [hb] at hx
          rw [hr] at hx
          cases hx
          rw [hc, hb, update_self, if_neg (by simp), if_neg (by simp)]
        · have hxi : x ≠ i := by
            rintro rfl
            exact hb (hi.eq_of_request hx hr)
          rw [hc, update_of_ne hb]
          simp [hxi]

theorem Inv.take (hne : s.seen ≠ s.avail.idx) : ∃ qa', Inv ((s, .take) :: h) s.take qa' qu := by
  cases qa with
  | nil => exact absurd ((hi.avail.empty_iff num_lt).mpr rfl) hne
  | cons i qa =>
    obtain ⟨hfirst, hrest⟩ := hi.avail.take num_dvd
    have hperm : (qa ++ i :: s.taken ++ qu).Perm (i :: qa ++ s.taken ++ qu) :=
      List.Perm.append_right qu List.perm_middle
    have htaken : s.take.taken = i :: s.taken := by
      rw [← hfirst]
      rfl
    refine ⟨qa,
      { hi with
        avail := hrest
        nodup := by rw [htaken]; exact hperm.nodup_iff.mpr hi.nodup
        pending := fun x => by rw [htaken]; exact hperm.mem_iff.trans (hi.pending x)
        completed := hi.completed
        freeing := hi.freeing }⟩

theorem Inv.complete (hmem : i ∈ s.taken) :
    Inv ((s, .complete i) :: h) (s.complete i) qa (qu ++ [i]) := by
  have hperm : (qa ++ s.taken.erase i ++ (qu ++ [i])).Perm (qa ++ s.taken ++ qu) := by
    simp only [List.append_assoc]
    refine List.Perm.append_left qa ?_
    have hsplit := (List.perm_cons_erase hmem).append_right qu
    refine List.Perm.trans ?_ hsplit.symm
    rw [← List.append_assoc]
    exact List.perm_append_singleton _ _
  have hall : i ∈ qa ++ s.taken ++ qu := by simp [hmem]
  obtain ⟨b, hd, ha⟩ := (hi.pending i).mp hall
  have hr := Phase.request_of_awaits ha
  have hnot : i ∉ qu := by
    have hnd := hi.nodup
    rw [List.append_assoc] at hnd
    exact List.disjoint_of_nodup_append hnd.of_append_right hmem
  refine
    { hi with
      used := hi.used.put num_dvd (hi.used_room hmem)
      nodup := hperm.nodup_iff.mpr hi.nodup
      pending := fun x => hperm.mem_iff.trans (hi.pending x)
      info := fun {b' x} hx => ?_
      status := fun x hx => ?_
      completed := fun {b' x} hx => ?_
      freeing := fun {b' x y z n} hp => ?_ }
  · show (update s.info i { s.info i with status := 0 } x).b = some b'
    by_cases hxi : x = i
    · rw [hxi, update_self]
      exact hxi ▸ hi.info hx
    · rw [update_of_ne hxi]
      exact hi.info hx
  · show (update s.info i { s.info i with status := 0 } x).status = 0
    by_cases hxi : x = i
    · rw [hxi, update_self]
    · rw [update_of_ne hxi]
      exact hi.status x (by simpa [hxi] using hx)
  · have hc : completions b' h = _ := hi.completed hx
    have hx' : (s.phase b').request = some x := hx
    show (if (s.phase b').request = some i then completions b' h + 1 else completions b' h) =
      if s.disk b' = true ∧ x ∉ qu ++ [i] then 0 else 1
    by_cases hxi : x = i
    · subst hxi
      have hb : b' = b := hi.eq_of_request hx hr
      rw [if_pos hx', hc, hb, if_pos ⟨hd, hnot⟩, if_neg (by simp)]
    · rw [if_neg (by rw [hx']; simpa using hxi), hc]
      simp [hxi]
  · have hreq : (s.phase b').request = none := by
      rw [show s.phase b' = _ from hp]
      rfl
    show _ ∧ (if (s.phase b').request = some i then completions b' h + 1 else completions b' h) = 1 ∧ _
    rw [hreq]
    exact hi.freeing hp

theorem Inv.step (hs : step s e = some s') : ∃ qa' qu', Inv ((s, e) :: h) s' qa' qu' := by
  cases DiskStep.of_step hs with
  | @call b hp =>
    have hl := hi.lock_keep (b := b) (p := .entering) (by rw [hp]; rfl)
    exact ⟨qa, qu, hi.pass (by rw [hp]; rfl) (by rw [hp]; rfl) hl (by rw [hp]; rfl) (by rw [hp]; rfl) nofun nofun
      (fun _ => rfl) fun _ _ => rfl⟩
  | @enter b hfree hp | @wake b i j k hfree hp =>
    exact ⟨qa, qu, hi.pass (by rw [hp]; rfl) (by rw [hp]; rfl) (hi.lock_acquire hfree rfl) (by rw [hp]; rfl)
      (by rw [hp]; rfl) nofun nofun (fun _ => rfl) fun _ _ => rfl⟩
  | alloc hp hfree => exact ⟨qa, qu, hi.alloc hp hfree⟩
  | @fail b idx hp =>
    have hl := hi.lock_keep (b := b) (p := .undo idx) (by rw [hp]; rfl)
    exact ⟨qa, qu, hi.pass (by rw [hp]; rfl) (by rw [hp]; rfl) hl (by rw [hp]; rfl) (by rw [hp]; rfl) nofun nofun
      (fun _ => rfl) fun _ _ => rfl⟩
  | undo hp => exact ⟨qa, qu, hi.undo hp⟩
  | @retry b hp =>
    exact ⟨qa, qu, hi.pass (by rw [hp]; rfl) (by rw [hp]; rfl) (hi.lock_release (by rw [hp]; rfl) rfl) (by rw [hp]; rfl)
      (by rw [hp]; rfl) nofun nofun (fun _ => rfl) fun _ _ => rfl⟩
  | write hp => exact ⟨qa, qu, hi.format hp⟩
  | publish hp => exact ⟨_, qu, hi.publish hp⟩
  | @sleep b i j k hp hd =>
    refine ⟨qa, qu, hi.pass (by rw [hp]; rfl) (by rw [hp]; rfl) (hi.lock_release (by rw [hp]; rfl) rfl) (by rw [hp]; rfl)
      (by rw [hp]; rfl) nofun nofun (fun _ => rfl) fun b' hb => ?_⟩
    show (if b = b' then [] else freed b' h) = _
    rw [if_neg (Ne.symm hb)]
  | done hp hd => exact ⟨qa, qu, hi.done hp hd⟩
  | free hp => exact ⟨qa, qu, (hi.free hp).1⟩
  | intr hfree =>
    exact ⟨qa, qu, hi.setLock (fun b => by rw [hfree]; exact ⟨nofun, nofun⟩) (fun _ => rfl) fun _ => rfl⟩
  | loop hlock => exact ⟨qa, hi.loop hlock⟩
  | take hne =>
    obtain ⟨qa', hi'⟩ := hi.take hne
    exact ⟨qa', qu, hi'⟩
  | complete hmem => exact ⟨qa, _, hi.complete hmem⟩

end

theorem inv_of_path (hp : Lts.Path step init h s) : ∃ qa qu, Inv h s qa qu := by
  induction hp with
  | nil => exact ⟨[], [], Inv.init⟩
  | snoc hp hs ih =>
    obtain ⟨qa, qu, hi⟩ := ih
    exact hi.step hs

/-! ## Bookkeeping -/

/-- The entries between two 16-bit indices. -/
def distance (r w : ℕ) : ℕ := (w + (2 ^ 16 - r)) % 2 ^ 16

/-- The entries of `v` from index `r` on are at most `NUM`, and `v'` has them too. -/
def KeepsEntries (r : ℕ) (v v' : Virtq) : Prop :=
  distance r v.idx ≤ NUM ∧ ∀ n < distance r v.idx, v'.ring (Fin.ofNat NUM (r + n)) = v.ring (Fin.ofNat NUM (r + n))

theorem KeepsEntries.of_eq {v : Virtq} (hq : Ring.Holds (2 ^ 16) v.ring r v.idx q)
    (he : v'.ring = v.ring) : KeepsEntries r v v' := by
  refine ⟨(hq.length_eq num_lt).trans_le hq.length_le, fun n _ => ?_⟩
  rw [he]

/-- An entry is written where there is none. -/
theorem KeepsEntries.of_update {v : Virtq} (hq : Ring.Holds (2 ^ 16) v.ring r v.idx q)
    (hroom : q.length < NUM) (he : v'.ring = update v.ring (Fin.ofNat NUM v.idx) i) : KeepsEntries r v v' := by
  have hlen : distance r v.idx = q.length := hq.length_eq num_lt
  refine ⟨hlen ▸ hq.length_le, fun n hn => ?_⟩
  rw [he, hq.write_eq, Ring.ofNat_mod num_dvd, update_of_ne (Ring.ofNat_add_ne (hlen ▸ hn) (by omega))]

omit [DecidableEq B] in
theorem rings_freeDesc : (s.freeDesc n).avail = s.avail ∧ (s.freeDesc n).used = s.used := by
  unfold Disk.freeDesc
  split_ifs <;> exact ⟨rfl, rfl⟩

theorem rings_freeChain : (s.freeChain b i j k n).avail = s.avail ∧ (s.freeChain b i j k n).used = s.used := by
  unfold Disk.freeChain
  dsimp only
  split_ifs <;> exact rings_freeDesc

theorem rings_intrLoop : s.intrLoop.avail = s.avail ∧ s.intrLoop.used = s.used := by
  unfold Disk.intrLoop
  dsimp only
  split_ifs
  · exact ⟨rfl, rfl⟩
  · exact ⟨rfl, rfl⟩
  · split <;> exact ⟨rfl, rfl⟩

theorem Inv.keeps (hi : Inv h s qa qu) (hs : Virtio.step s e = some s') :
    KeepsEntries s.seen s.avail s'.avail ∧ KeepsEntries s.usedIdx s.used s'.used := by
  have hquiet : s'.avail.ring = s.avail.ring → s'.used.ring = s.used.ring →
      KeepsEntries s.seen s.avail s'.avail ∧ KeepsEntries s.usedIdx s.used s'.used :=
    fun ha hu => ⟨.of_eq hi.avail ha, .of_eq hi.used hu⟩
  cases DiskStep.of_step hs with
  | @write b w i j k hp =>
    have hroom := hi.avail_room (b := b) (i := i) (by rw [hp]; exact List.mem_cons_self) (by rw [hp]; rfl)
    exact ⟨.of_update hi.avail hroom rfl, .of_eq hi.used rfl⟩
  | complete hmem => exact ⟨.of_eq hi.avail rfl, .of_update hi.used (hi.used_room hmem) rfl⟩
  | undo => exact hquiet (congrArg Virtq.ring rings_freeDesc.1) (congrArg Virtq.ring rings_freeDesc.2)
  | free => exact hquiet (congrArg Virtq.ring rings_freeChain.1) (congrArg Virtq.ring rings_freeChain.2)
  | loop => exact hquiet (congrArg Virtq.ring rings_intrLoop.1) (congrArg Virtq.ring rings_intrLoop.2)
  | call | enter | wake | alloc | fail | retry | publish | sleep | done | intr | take => exact hquiet rfl rfl

structure Bookkeeping (h : List (Disk B × Event B)) (s : Disk B) : Prop where
  running : s.panicked = none
  /- the descriptors that are not free are those of the calls, which are disjoint -/
  taken : ∀ i, s.free i = false ↔ ∃ b, i ∈ (s.phase b).owned
  disjoint : ∀ i b b', i ∈ (s.phase b).owned → i ∈ (s.phase b').owned → b = b'
  nodup : ∀ b, (s.phase b).owned.Nodup
  /- a call returns after one completion of its chain, having freed that chain -/
  returns : ∀ b s', step s (.freeChain b) = some s' → s'.phase b = .out → ∃ i j k n, s.phase b = .freeing i j k n ∧
    completions b h = 1 ∧ freed b ((s, .freeChain b) :: h) = [i.val, j.val, k.val]
  /- what has been written to a ring stays until it has been taken -/
  unpublished : ∀ b i j k, s.phase b = .written i j k → s.avail.ring (Fin.ofNat NUM s.avail.idx) = i
  avail : ∀ e s', step s e = some s' → KeepsEntries s.seen s.avail s'.avail
  used : ∀ e s', step s e = some s' → KeepsEntries s.usedIdx s.used s'.used

/-- **Disk request bookkeeping**: in every run, descriptors are shared out without overlap, every call returns after the
completion of its own chain and frees that, no ring entry is lost, and nothing panics. -/
theorem request_bookkeeping (hp : Lts.Path step init h s) : Bookkeeping h s := by
  obtain ⟨qa, qu, hi⟩ := inv_of_path hp
  refine
    { running := hi.running
      taken := hi.parts.taken
      disjoint := fun i b b' hb hb' => hi.parts.unique hb hb'
      nodup := hi.parts.nodup
      returns := fun b s' hs hout => ?_
      unpublished := fun b i j k hw => (hi.written hw).2
      avail := fun e s' hs => (hi.keeps hs).1
      used := fun e s' hs => (hi.keeps hs).2 }
  cases DiskStep.of_step hs with
  | @free _ i j k n hf => exact ⟨i, j, k, n, hf, (hi.freeing hf).2.1, (hi.free hf).2 hout⟩

/-- Two requests, completed in the other order, and a third call that finds too few descriptors. -/
def threeCalls : List (Event (Fin 3)) :=
  [.call 0, .acquire 0, .allocDesc 0, .allocDesc 0, .allocDesc 0, .write 0 true, .publish 0, .test 0,
    .call 1, .acquire 1, .allocDesc 1, .allocDesc 1, .allocDesc 1, .write 1 false, .take, .publish 1, .test 1,
    .call 2, .acquire 2, .allocDesc 2, .allocDesc 2, .allocDesc 2, .undo 2, .undo 2, .undo 2,
    .take, .complete 3, .intr, .intrLoop, .complete 0, .intrLoop, .intrLoop,
    .acquire 0, .test 0, .freeChain 0, .freeChain 0, .freeChain 0]

theorem request_bookkeeping_three : ∃ (h : List (Disk (Fin 3) × Event (Fin 3))) (s : Disk (Fin 3)),
    Lts.Path step init h s ∧ s.phase 0 = .out ∧ freed 0 h = [0, 1, 2] ∧ (s.phase 1).owned = [3, 4, 5] ∧ Bookkeeping h s := by
  have hrun : ∃ h s, Lts.Path step (init : Disk (Fin 3)) h s ∧
      (s.phase 0 = .out ∧ freed 0 h = [0, 1, 2] ∧ (s.phase 1).owned = [3, 4, 5]) :=
    Lts.exists_path_of_replay (fun h s => s.phase 0 = .out ∧ freed 0 h = [0, 1, 2] ∧ (s.phase 1).owned = [3, 4, 5])
      threeCalls (by decide +kernel)
  obtain ⟨h, s, hp, hout, hfreed, hother⟩ := hrun
  exact ⟨h, s, hp, hout, hfreed, hother, request_bookkeeping hp⟩

end Xv6Mlfq.Virtio
