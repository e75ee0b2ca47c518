import Xv6Mlfq.Pipe
import Xv6Mlfq.Vm.Copy

/-!
# Xv6Mlfq.PipeRead — a read from a pipe, and the reader's memory

`piperead` of `pipe.c` with its `copyout`s.  The copy loop holds `pi->lock`, so nobody else takes part in it; the loop before
it sleeps, and then the pipe and the memory are what the others have made of them.

* `ends_copyLoop`: the loop takes a byte out of the pipe and then copies it, so that a byte that cannot be copied is gone.
* `piperead_exact_iff`: what is taken out is what is returned and stored, exactly if the destination can be written.
* `piperead_loses_byte`: without, a byte is lost, and 0 is returned with the write end open.
-/

namespace Xv6Mlfq.Pipes

open Function CInt Exec Bytes Vm

variable {T : Type} [DecidableEq T] {σ σ' : Phys} {root addr i j k : ℕ} {n v : ℤ} {p p' : Pipe}
  {q : List UInt8} {b : UInt8} {looks : List (Bool × Pipe × Phys)}

/-! ## The code -/

/-- The second loop of `piperead`, with at most `k` more iterations: how many bytes are copied, and the pipe. -/
def copyLoop (root addr : ℕ) : ℕ → ℕ → Pipe → Code (ℕ × Pipe)
  | 0, i, p => pure (i, p)
  | k + 1, i, p =>
    if p.nread = p.nwrite then pure (i, p)
    else do
      if ← copyout root ((addr + i) % 2 ^ 64) [p.first] then copyLoop root addr k (i + 1) p.take
      else pure (i, p.take)

/-- The test of the first loop of `piperead`. -/
def Pipe.Waits (p : Pipe) : Prop := p.nread = p.nwrite ∧ p.writeopen = true

instance : DecidablePred Pipe.Waits := fun p => inferInstanceAs (Decidable (p.nread = p.nwrite ∧ p.writeopen = true))

/-- Where the first loop of `piperead` has come to. -/
inductive Waited
  | asleep | killed (p : Pipe) | ready (p : Pipe)

/-- The first loop of `piperead`.  `looks` tells for each iteration whether the process has been killed, and what the pipe and the
memory are after the `sleep`; without a next one, it is still asleep. -/
def waitLoop : List (Bool × Pipe × Phys) → Pipe → Code Waited
  | [], p => pure (if p.Waits then .asleep else .ready p)
  | (killed, next, mem) :: looks, p =>
    if p.Waits then
      if killed then pure (.killed p)
      else do
        set mem
        waitLoop looks next
    else pure (.ready p)

/-- `piperead`: what it returns, and the pipe it leaves; none if it is asleep -/
def piperead (root addr : ℕ) (n : ℤ) (looks : List (Bool × Pipe × Phys)) (p : Pipe) : Code (Option (ℤ × Pipe)) := do
  match ← waitLoop looks p with
  | .asleep => pure none
  | .killed p => pure (some (-1, p))
  | .ready p => do
    let (i, p) ← copyLoop root addr n.toNat 0 p
    pure (some (i, p))

/-! ## The copy loop -/

/-- The loop has copied `m` bytes, all it could, or has lost the next one. -/
structure Copied (σ σ' : Phys) (root addr k : ℕ) (q : List UInt8) (p' : Pipe) (m : ℕ) : Prop where
  le : m ≤ min k q.length
  stored : Stored σ σ' root addr (q.take m)
  all : m = min k q.length ↔ ∀ a, addr ≤ a → a < addr + min k q.length → σ.Writable root a
  left : Buffers p' (q.drop (if m = min k q.length then m else m + 1))

theorem Copied.done (hq : Buffers p q) (hm : min k q.length = 0) : Copied σ σ root addr k q p 0 where
  le := Nat.zero_le _
  stored := Stored.nil
  all := ⟨fun _ a hl hlt => by omega, fun _ => hm.symm⟩
  left := by rwa [if_pos hm.symm]

theorem Copied.lost (hs : Stored σ σ' root addr []) (hq : Buffers p' q) (hbad : ¬ σ.Writable root addr) :
    Copied σ σ' root addr (k + 1) (b :: q) p' 0 where
  le := Nat.zero_le _
  stored := hs
  all := iff_of_false (by rw [List.length_cons]; omega) fun hall => hbad (hall addr le_rfl (by rw [List.length_cons]; omega))
  left := by
    rw [if_neg (by rw [List.length_cons]; omega)]
    exact hq

theorem Copied.next {τ : Phys} {m : ℕ} (h : Copied τ σ' root (addr + 1) k q p' m) (hs : Stored σ τ root addr [b])
    (hw : σ.Writable root addr) : Copied σ σ' root addr (k + 1) (b :: q) p' (m + 1) := by
  have hmin : min (k + 1) (b :: q).length = min k q.length + 1 := by rw [List.length_cons]; omega
  have hsame : ∀ a, τ.Writable root a ↔ σ.Writable root a := fun a => by rw [← writes_iff, ← writes_iff, hs.writes]
  have hle := h.le
  refine ⟨by omega, hs.append h.stored, ?_, ?_⟩
  · rw [hmin, Nat.add_right_cancel_iff, h.all]
    refine ⟨fun hall a hl hlt => ?_, fun hall a hl hlt => (hsame a).mpr (hall a (by omega) (by omega))⟩
    rcases hl.eq_or_lt with rfl | hl
    · exact hw
    · exact (hsame a).mp (hall a hl (by omega))
  · have hleft := h.left
    rw [hmin]
    by_cases hm : m = min k q.length
    · rw [if_pos hm] at hleft
      rw [if_pos (by omega)]
      exact hleft
    · rw [if_neg hm] at hleft
      rw [if_neg (by omega)]
      exact hleft

theorem ends_copyLoop (hu : UserPages σ root) (hq : Buffers p q) (hi : addr + i < 2 ^ 64) :
    Ends (copyLoop root addr k i p) σ fun r σ' => ∃ m, r.1 = i + m ∧ Copied σ σ' root (addr + i) k q r.2 m := by
  induction k generalizing σ p q i with
  | zero => exact ends_pure.mpr ⟨0, rfl, Copied.done hq (Nat.zero_min _)⟩
  | succ k ih =>
    rw [copyLoop]
    by_cases hempty : p.nread = p.nwrite
    · rw [if_pos hempty, ends_pure]
      have hnil : q = [] := (hq.empty_iff pipesize_lt).mp hempty
      exact ⟨0, rfl, Copied.done hq (by rw [hnil]; rfl)⟩
    · obtain ⟨b, q', rfl, hfirst, hq'⟩ := hq.take hempty
      rw [if_neg hempty, ends_bind, Nat.mod_eq_of_lt hi, hfirst]
      refine (ends_copyout hu).mono fun ok τ hout => ?_
      obtain ⟨m, hm⟩ := hout
      cases ok with
      | true =>
        have hs := hm.stored_all
        -- what has been written is below `MAXVA`, so the next address does not wrap around
        have hw : σ.Writable root (addr + i) := writes_iff.mp (hm.good 0 (by have := hm.all.mp rfl; simp at this; omega))
        have hlt : addr + i < MAXVA := hw.1.1
        have hnext : addr + (i + 1) < 2 ^ 64 := by
          simp only [MAXVA] at hlt
          omega
        rw [if_pos rfl]
        refine (ih (hs.userPages hu) hq' hnext).mono fun r σ' hend => ?_
        obtain ⟨m, hr, hc⟩ := hend
        exact ⟨m + 1, by omega, hc.next hs hw⟩
      | false =>
        have hzero : m = 0 := by
          have hle := hm.le
          have hall := hm.all
          simp at hle hall
          omega
        subst hzero
        rw [if_neg (by decide), ends_pure]
        exact ⟨0, rfl, Copied.lost hm.stored hq' fun hw => hm.bad (Nat.succ_pos 0) (writes_iff.mpr hw)⟩

/-! ## The whole call -/

/-- The first loop ends where it need not wait. -/
theorem waitLoop_ready (hu : UserPages σ root) (hus : ∀ l ∈ looks, UserPages l.2.2 root) :
    Ends (waitLoop looks p) σ fun w σ1 => ∀ p1, w = .ready p1 → ¬ p1.Waits ∧ UserPages σ1 root := by
  induction looks generalizing p σ with
  | nil =>
    refine ends_pure.mpr fun p1 hr => ?_
    split_ifs at hr with hw
    cases hr
    exact ⟨hw, hu⟩
  | cons l looks ih =>
    obtain ⟨killed, next, mem⟩ := l
    rw [waitLoop]
    by_cases hw : p.Waits
    · rw [if_pos hw]
      cases killed with
      | true => exact ends_pure.mpr fun _ hr => by cases hr
      | false =>
        rw [if_neg (by decide), ends_bind, ends_set]
        exact ih (hus _ List.mem_cons_self) fun l hl => hus l (List.mem_cons_of_mem _ hl)
    · rw [if_neg hw]
      refine ends_pure.mpr fun p1 hr => ?_
      cases hr
      exact ⟨hw, hu⟩

/-- **When a read reports what it consumed.**  It copies from the pipe `p1` and to the memory `σ1` that it finds when it has stopped
waiting.  It has removed as many bytes as it returns, has stored just these, and returns 0 only at the end of the file, exactly when
what it copies to can be written; then it returns as many bytes as there are, up to `n`. -/
theorem piperead_exact_iff (hn : 0 < n) (haddr : addr < 2 ^ 64) (hu : UserPages σ root)
    (hus : ∀ l ∈ looks, UserPages l.2.2 root) (hrun : piperead root addr n looks p σ = .ok (some (v, p'), σ')) (hv : 0 ≤ v) :
    ∃ p1 σ1, waitLoop looks p σ = .ok (.ready p1, σ1) ∧ ∀ q, Buffers p1 q →
      ((Buffers p' (q.drop v.toNat) ∧
          (∀ a, σ1.Readable root a → σ'.user root a =
            if addr ≤ a ∧ a < addr + v.toNat then q.getD (a - addr) 0 else σ1.user root a) ∧
          (v = 0 → q = [] ∧ p1.writeopen = false)) ↔
        ∀ a, addr ≤ a → a < addr + min n.toNat q.length → σ1.Writable root a) ∧
      ((∀ a, addr ≤ a → a < addr + min n.toNat q.length → σ1.Writable root a) → v = min n q.length) := by
  obtain ⟨w, σ1, hwait, hready⟩ := (waitLoop_ready (p := p) hu hus).eval
  rw [piperead, bind_ok hwait] at hrun
  cases w with
  | asleep => cases hrun
  | killed p1 =>
    cases hrun
    omega
  | ready p1 =>
    obtain ⟨hgo, hu1⟩ := hready p1 rfl
    refine ⟨p1, σ1, hwait, fun q hq => ?_⟩
    obtain ⟨⟨i, p''⟩, τ, hl, m, hi, hc⟩ := (ends_copyLoop (k := n.toNat) hu1 hq (i := 0) haddr).eval
    dsimp only at hrun
    rw [bind_ok hl] at hrun
    have hret : Except.ok (some ((i : ℤ), p''), τ) = Except.ok (some (v, p'), σ') := hrun
    cases hret
    obtain rfl : i = m := by rwa [Nat.zero_add] at hi
    rw [Nat.add_zero] at hc
    have hle := hc.le
    have hleft := hc.left
    rw [← hc.all, Int.toNat_natCast]
    refine ⟨⟨fun h => ?_, fun hm => ⟨?_, fun a ha => ?_, fun hzero => ?_⟩⟩, fun hm => by omega⟩
    · -- a byte more has been taken out
      by_contra hne
      rw [if_neg hne] at hleft
      have hlen := (h.1.length_eq pipesize_lt).symm.trans (hleft.length_eq pipesize_lt)
      simp only [List.length_drop] at hlen
      omega
    · rwa [if_pos hm] at hleft
    · have hlen : (q.take i).length = i := by
        rw [List.length_take]
        omega
      rw [hc.stored.user a (reads_iff.mpr ha), splice, hlen]
      by_cases hin : addr ≤ a ∧ a < addr + i
      · rw [if_pos hin, if_pos hin, List.getD_eq_getElem?_getD, List.getD_eq_getElem?_getD, List.getElem?_take_of_lt (by omega)]
      · rw [if_neg hin, if_neg hin]
    · have hlen : q.length = 0 := by omega
      have hnil := List.eq_nil_of_length_eq_zero hlen
      refine ⟨hnil, ?_⟩
      have hempty := (hq.empty_iff pipesize_lt).mpr hnil
      cases hopen : p1.writeopen with
      | false => rfl
      | true => exact absurd ⟨hempty, hopen⟩ hgo

/-- A pipe with one byte. -/
def oneByte : Pipe := ⟨fun _ => 65, 0, 1, true, true⟩

theorem buffers_oneByte : Buffers oneByte [65] := by
  refine ⟨by decide, by decide, rfl, fun k hk => ?_⟩
  obtain rfl : k = 0 := by
    simp at hk
    exact hk
  rfl

/-- The byte is read to a page that can be written. -/
theorem piperead_exact_oneByte : ∃ σ σ' p', UserPages σ 0x80010 ∧
    piperead 0x80010 PGSIZE 1 [] oneByte σ = .ok (some (1, p'), σ') ∧
    Buffers p' [] ∧ σ'.user 0x80010 PGSIZE = 65 := by
  have hrun : Ends (userTable [(1, 0x80020)]) fourPages fun r σ => r = some 0x80010 ∧
      Ends (piperead 0x80010 PGSIZE 1 [] oneByte) σ fun r _ => r.map Prod.fst = some 1 := by
    decide +kernel
  obtain ⟨r, σ, he, rfl, hread⟩ := hrun.eval
  have htable := (ends_userTable (by decide) (by decide) rfl).of_eval he 0x80010 rfl
  have hu : UserPages σ 0x80010 := htable.userPages (by decide) (by decide)
  have hwrite : ∀ a, PGSIZE ≤ a → a < PGSIZE + 1 → σ.Writable 0x80010 a := by
    intro a hl hlt
    obtain rfl : a = PGSIZE := by omega
    exact writes_iff.mp (htable.writes (1, 0x80020) (by simp)).1
  obtain ⟨r, σ', hr, hval⟩ := hread.eval
  obtain ⟨⟨v, p'⟩, rfl, rfl⟩ := Option.map_eq_some_iff.mp hval
  obtain ⟨p1, σ1, hwait, hall⟩ := piperead_exact_iff (by decide) (by decide) hu (fun _ hl => by cases hl) hr (by decide)
  cases hwait
  obtain ⟨hleft, huser, -⟩ := (hall [65] buffers_oneByte).1.mpr hwrite
  refine ⟨σ, σ', p', hu, hr, hleft, ?_⟩
  rw [huser PGSIZE (hwrite PGSIZE le_rfl (by omega)).1]
  rfl

/-- The byte is read to a page that is not there: the read returns 0 and the byte is gone, with the write end open. -/
theorem piperead_loses_byte : ∃ σ, UserPages σ 0x80010 ∧ Buffers oneByte [65] ∧
    Ends (piperead 0x80010 0 1 [] oneByte) σ fun r _ => r.isSome = true ∧
      ∀ x ∈ r, x.1 = 0 ∧ x.2.nread = x.2.nwrite ∧ x.2.writeopen = true := by
  have hrun : Ends (userTable [(1, 0x80020)]) fourPages fun r σ => r = some 0x80010 ∧
      Ends (piperead 0x80010 0 1 [] oneByte) σ fun r _ => r.isSome = true ∧
        ∀ x ∈ r, x.1 = 0 ∧ x.2.nread = x.2.nwrite ∧ x.2.writeopen = true := by
    decide +kernel
  obtain ⟨r, σ, he, rfl, hread⟩ := hrun.eval
  have htable := (ends_userTable (by decide) (by decide) rfl).of_eval he 0x80010 rfl
  exact ⟨σ, htable.userPages (by decide) (by decide), buffers_oneByte, hread⟩

end Xv6Mlfq.Pipes
