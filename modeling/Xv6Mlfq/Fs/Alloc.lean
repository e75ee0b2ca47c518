import Xv6Mlfq.Fs.Content
import Xv6Mlfq.Lib.Refs

/-!
# Xv6Mlfq.Fs.Alloc — blocks taken from the bitmap

* `Ends ex p s Q`: from `s` the program comes to its end, with `Q`; `ex` is what the actions do.
* `eval_exec`, `eval_exec_or`, `eval_exec_outside`: when `log_write` panics.
* `Store.take`: what `balloc` does (`Ends.balloc`).
* `Logged`: every block that has changed is in the log.
-/

namespace Xv6Mlfq.Vol

open Bytes Function
open Files (BSIZE NDIRECT NINDIRECT MAXFILE)

variable {sb : Superblock} {s s' s'' : Store} {b x k n bn : ℕ} {data : Block} {ip ip' : Inode}
  {ino ino' : ℕ → Inode} {a : Op} {r : a.Ans} {Q : ℕ → Store → Prop}

/-! ## Programs that come to their end -/

section Ends

variable {A : Type} {R : A → Type} {σ E α β : Type} {ex : σ → (a : A) → Except E (R a × σ)} {p : Prog A R α} {f : α → Prog A R β}
  {Q Q' : α → σ → Prop} {s s' : σ}

/-- From `s` the program comes to its end, and with `Q`. -/
def Ends (ex : σ → (a : A) → Except E (R a × σ)) (p : Prog A R α) (s : σ) (Q : α → σ → Prop) : Prop := p.wp (Prog.total ex) Q s

theorem Ends.eval (h : Ends ex p s Q) : ∃ x s', p.eval ex s = .ok (x, s') ∧ Q x s' := Prog.wp_total.mp h

theorem Ends.of_eval {x : α} (h : p.eval ex s = .ok (x, s')) (hQ : Q x s') : Ends ex p s Q := Prog.wp_total.mpr ⟨x, s', h, hQ⟩

theorem Ends.and (h : Ends ex p s Q) (h' : Ends ex p s Q') : Ends ex p s fun x s' => Q x s' ∧ Q' x s' := by
  obtain ⟨x, s', he, hQ⟩ := h.eval
  obtain ⟨y, s'', he', hQ'⟩ := h'.eval
  cases he.symm.trans he'
  exact .of_eval he ⟨hQ, hQ'⟩

theorem Ends.pure {x : α} (h : Q x s) : Ends ex (pure x) s Q := h

theorem Ends.mono (h : Ends ex p s Q) (hQ : ∀ x s', Q x s' → Q' x s') : Ends ex p s Q' := Prog.wp_mono Prog.total_mono hQ h

theorem Ends.bind {Q : β → σ → Prop} (h : Ends ex p s fun x s' => Ends ex (f x) s' Q) : Ends ex (p >>= f) s Q := by
  unfold Ends
  rw [Prog.wp_bind]
  exact h

theorem Ends.perform {a : A} {r : R a} {Q : R a → σ → Prop} (he : ex s a = .ok (r, s')) (h : Q r s') : Ends ex (Prog.perform a) s Q :=
  ⟨r, s', he, h⟩

end Ends

-- programs are taken apart with the rules above only
attribute [irreducible] Ends

/-- What actions do. -/
abbrev Exec : Type := Store → (a : Op) → Except Panic (a.Ans × Store)

theorem Ends.op {ex : Exec} {Q : a.Ans → Store → Prop}
    (he : ex s a = .ok (r, s')) (h : Q r s') : Ends ex (op a) s Q := Ends.perform he h

/-! ## `log_write` -/

section Log

variable {α : Type} {p : Code α} {y : α} {o : ℕ}

/-- An action leaves the log, or adds a block to it with `log_write`. -/
theorem act_log (h : sb.act s a = .ok (r, s')) :
    (a.logs r = false ∧ s'.log = s.log) ∨ (a.logs r = true ∧ ∃ b, s'.log = insert b s.log) := by
  cases a with
  | mark k =>
    dsimp only [Superblock.act] at h
    split at h <;> cases h
    · exact .inr ⟨rfl, _, rfl⟩
    · exact .inl ⟨rfl, rfl⟩
  | clear b =>
    dsimp only [Superblock.act] at h
    split_ifs at h
    cases h
    exact .inr ⟨rfl, _, rfl⟩
  | iget n =>
    dsimp only [Superblock.act] at h
    split_ifs at h
    cases h
    refine .inl ⟨rfl, ?_⟩
    unfold Store.addRef
    split_ifs <;> rfl
  | ilock n =>
    unfold Superblock.act at h
    dsimp only at h
    split at h
    · split at h
      · cases h
        exact .inl ⟨rfl, rfl⟩
      · split at h
        · cases h
        · obtain ⟨-, rfl⟩ := Prod.mk.inj (Except.ok.inj h)
          exact .inl ⟨rfl, rfl⟩
    · cases h
  | panic e => cases h
  | logWrite | iupdate =>
    cases h
    exact .inr ⟨rfl, _, rfl⟩
  | bread | fill | unlinked | unref | iunlock | invalidate =>
    cases h
    exact .inl ⟨rfl, rfl⟩

theorem log_subset_act (h : sb.act s a = .ok (r, s')) : s.log ⊆ s'.log := by
  obtain ⟨-, hlog⟩ | ⟨-, b, hlog⟩ := act_log h
  · exact hlog.ge
  · exact hlog ▸ Finset.subset_insert b s.log

theorem Store.exec_eq (h : sb.act s a = .ok (r, s')) : s.exec sb o a =
    if a.logs r then
      if LOGSIZE ≤ s.log.card ∨ LOGSIZE - 1 ≤ s.log.card then .error .tooBig
      else if o < 1 then .error .outsideOfTrans else .ok (r, s')
    else .ok (r, s') := by
  rw [exec, h]

theorem Store.exec_error {e : Panic} (h : sb.act s a = .error e) : s.exec sb o a = .error e := by
  rw [exec, h]

/-- What `ex` does in actions without `log_write`. -/
def Quiet (sb : Superblock) (ex : Exec) : Prop :=
  ∀ {s s' : Store} {a : Op} {r : a.Ans}, sb.act s a = .ok (r, s') → a.logs r = false → ex s a = .ok (r, s')

theorem quiet_act : Quiet sb sb.act := fun h _ => h

theorem quiet_exec : Quiet sb (Store.exec sb o) := by
  intro s s' a r h hr
  rw [Store.exec_eq h, hr, if_neg Bool.false_ne_true]

theorem log_subset (h : p.eval sb.act s = .ok (y, s')) : s.log ⊆ s'.log := by
  induction p generalizing s with
  | ret => cases h; exact subset_rfl
  | act a k ih =>
    rw [Prog.eval] at h
    split at h
    · cases h
    · rename_i r s1 hact
      exact (log_subset_act hact).trans (ih r h)

/-- The log `L` that a program leaves does not make `log_write` panic: nothing is in it, or the program is in a transaction and there is
room for another block. -/
def LogOk (outstanding : ℕ) (L : Finset ℕ) : Prop := L = ∅ ∨ 1 ≤ outstanding ∧ L.card < LOGSIZE - 1

/-- **`log_write` does not panic** if it would not with the log that is there at the end. -/
theorem eval_exec (h : p.eval sb.act s = .ok (y, s')) (hlog : LogOk o s'.log) : p.eval (Store.exec sb o) s = .ok (y, s') := by
  induction p generalizing s with
  | ret => exact h
  | act a k ih =>
    rw [Prog.eval] at h ⊢
    split at h
    · cases h
    rename_i r s1 hact
    have hexec : s.exec sb o a = .ok (r, s1) := by
      obtain ⟨hr, -⟩ | ⟨hr, b, hadd⟩ := act_log hact
      · exact quiet_exec hact hr
      have hsub := log_subset h
      have hmem : b ∈ s'.log := hsub (hadd ▸ Finset.mem_insert_self b _)
      obtain ⟨ho, hcard⟩ := hlog.resolve_left (Finset.ne_empty_of_mem hmem)
      have hle := Finset.card_le_card ((log_subset_act hact).trans hsub)
      rw [Store.exec_eq hact, if_pos hr, if_neg (by omega), if_neg (by omega)]
    rw [hexec]
    exact ih r h

theorem Ends.exec {Q : α → Store → Prop} (h : Ends sb.act p s Q) (hlog : ∀ x s', Q x s' → LogOk o s'.log) :
    Ends (Store.exec sb o) p s Q := by
  obtain ⟨x, s', he, hQ⟩ := h.eval
  exact .of_eval (eval_exec he (hlog x s' hQ)) hQ

/-- A program that comes to its end under `Store.exec` does what its actions do. -/
theorem eval_of_exec (h : p.eval (Store.exec sb o) s = .ok (y, s')) : p.eval sb.act s = .ok (y, s') := by
  induction p generalizing s with
  | ret => exact h
  | act a k ih =>
    rw [Prog.eval] at h ⊢
    split at h
    · cases h
    rename_i r s1 hexec
    have hact : sb.act s a = .ok (r, s1) := by
      unfold Store.exec at hexec
      split at hexec
      · rename_i r' s2 hact
        split_ifs at hexec <;> cases hexec <;> exact hact
      · cases hexec
    rw [hact]
    exact ih r h

/-- In a transaction, `log_write` panics only because the transaction is too big. -/
theorem eval_exec_or (ho : 1 ≤ o) :
    p.eval (Store.exec sb o) s = p.eval sb.act s ∨ p.eval (Store.exec sb o) s = .error .tooBig := by
  induction p generalizing s with
  | ret => exact .inl rfl
  | act a k ih =>
    rw [Prog.eval, Prog.eval]
    cases hact : sb.act s a with
    | error e =>
      rw [Store.exec_error hact]
      exact .inl rfl
    | ok x =>
      obtain ⟨r, s1⟩ := x
      rw [Store.exec_eq hact, if_neg (by omega : ¬ o < 1)]
      split_ifs
      · exact .inr rfl
      · exact ih r
      · exact ih r

/-- Outside of any transaction, a program that would write to the log panics. -/
theorem eval_exec_outside (h : p.eval sb.act s = .ok (y, s')) (hs : s.log = ∅) (hs' : s'.log ≠ ∅) :
    p.eval (Store.exec sb 0) s = .error .outsideOfTrans := by
  induction p generalizing s with
  | ret =>
    cases h
    exact absurd hs hs'
  | act a k ih =>
    rw [Prog.eval] at h ⊢
    split at h
    · cases h
    rename_i r s1 hact
    have hroom : ¬ (LOGSIZE ≤ s.log.card ∨ LOGSIZE - 1 ≤ s.log.card) := by
      rw [hs]
      decide
    rw [Store.exec_eq hact, if_neg hroom, if_pos Nat.zero_lt_one]
    obtain ⟨hr, hkeep⟩ | ⟨hr, -⟩ := act_log hact
    · rw [hr, if_neg Bool.false_ne_true]
      exact ih r h (hkeep.trans hs)
    · rw [if_pos hr]

end Log

/-! ## Areas -/

/-- There is room for inode `n` in the blocks of inodes; `ninodes` may be less. -/
def Superblock.Inum (sb : Superblock) (n : ℕ) : Prop := sb.iblock n < sb.bmapstart

instance : Decidable (sb.Inum n) := inferInstanceAs (Decidable (_ < _))

/-- A block of the data area. -/
def Superblock.Data (sb : Superblock) (b : ℕ) : Prop := sb.datastart ≤ b ∧ b < sb.size

theorem Superblock.bblock_lt (sb : Superblock) (hx : x < sb.size) : sb.bblock x < sb.datastart := sb.bitmap_lt x hx

theorem Superblock.Data.bmapstart_lt (hb : sb.Data b) : sb.bmapstart < sb.datastart :=
  lt_of_le_of_lt (Nat.le_add_left ..) (sb.bitmap_lt b hb.2)

theorem Superblock.Data.bblock_ne (hb : sb.Data b) (hx : x < sb.size) : sb.bblock x ≠ b := by
  have := sb.bblock_lt hx
  have := hb.1
  omega

theorem Superblock.Data.iblock_ne (hb : sb.Data b) (hn : sb.Inum n) : sb.iblock n ≠ b := by
  have hi : sb.iblock n < sb.bmapstart := hn
  have hm := hb.bmapstart_lt
  have := hb.1
  omega

theorem Superblock.bblock_ne_iblock (sb : Superblock) (hn : sb.Inum n) : sb.bblock x ≠ sb.iblock n := by
  have hi : sb.iblock n < sb.bmapstart := hn
  have hx : sb.bmapstart ≤ sb.bblock x := Nat.le_add_left ..
  omega

theorem Superblock.Data.pos (hb : sb.Data b) : 0 < b := by
  have hm := hb.bmapstart_lt
  have := hb.1
  omega

/-! ## Stores -/

section Store

@[simp] theorem Store.buf_logWrite : (s.logWrite b).buf = s.buf := rfl

@[simp] theorem Store.buf_fill_self : (s.fill b data).buf b = data := update_self ..

theorem Store.buf_fill_of_ne (h : x ≠ b) : (s.fill b data).buf x = s.buf x := update_of_ne h ..

@[simp] theorem Store.used_logWrite : (s.logWrite b).used sb x = s.used sb x := rfl

theorem Store.used_fill_of_ne (h : sb.bblock x ≠ b) : (s.fill b data).used sb x = s.used sb x := by
  rw [used, used, buf_fill_of_ne h]

theorem Store.inode_fill_of_ne (h : sb.iblock n ≠ b) : (s.fill b data).inode sb n = s.inode sb n := by
  rw [inode, inode, buf_fill_of_ne h]

/-- The bit of a block is set in the bitmap. -/
theorem Store.used_mark :
    (s.fill (sb.bblock b) (setBit (s.buf (sb.bblock b)) (b % BPB))).used sb x = if x = b then true else s.used sb x := by
  by_cases hblk : sb.bblock x = sb.bblock b
  · have hdiv : x / BPB = b / BPB := Nat.add_right_cancel hblk
    have hx : x % BPB = b % BPB ↔ x = b := by
      constructor
      · intro hmod
        rw [← Nat.div_add_mod x BPB, hdiv, hmod, Nat.div_add_mod]
      · rintro rfl
        rfl
    rw [used, used, hblk, buf_fill_self, testBit_setBit]
    simp only [hx]
  · rw [used_fill_of_ne hblk, if_neg fun h => hblk (by rw [h])]

/-- Only buffers and the log have changed, and every block whose buffer has changed, apart from those of `E`, is in the log. -/
structure Logged (E : Set ℕ) (s s' : Store) : Prop where
  eq : s' = { s with buf := s'.buf, log := s'.log }
  log : s.log ⊆ s'.log
  buf : ∀ b ∉ s'.log, b ∉ E → s'.buf b = s.buf b

variable {E E' : Set ℕ}

theorem Logged.refl (s : Store) : Logged E s s := ⟨rfl, subset_rfl, fun _ _ _ => rfl⟩

theorem Logged.trans (h : Logged E s s') (h' : Logged E' s' s'') (hE : E ⊆ E') : Logged E' s s'' where
  eq := h'.eq.trans (by rw [h.eq])
  log := h.log.trans h'.log
  buf := fun b hb hE' => (h'.buf b hb hE').trans (h.buf b (fun hmem => hb (h'.log hmem)) fun hmem => hE' (hE hmem))

theorem Logged.write : Logged E s ((s.fill b data).logWrite b) where
  eq := rfl
  log := Finset.subset_insert ..
  buf := by
    intro x hx _
    have hne : x ≠ b := by
      rintro rfl
      exact hx (Finset.mem_insert_self ..)
    exact Store.buf_fill_of_ne hne

end Store

/-! ## `balloc` -/

/-- Block `b` marked used, and zeroed. -/
def Store.take (sb : Superblock) (s : Store) (b : ℕ) : Store :=
  ((((s.fill (sb.bblock b) (setBit (s.buf (sb.bblock b)) (b % BPB))).logWrite (sb.bblock b)).fill b fun _ => 0).logWrite b)

section Take

theorem Store.used_take (hb : sb.Data b) (hx : x < sb.size) :
    (s.take sb b).used sb x = if x = b then true else s.used sb x := by
  rw [take, used_logWrite, used_fill_of_ne (hb.bblock_ne hx), used_logWrite, used_mark]

@[simp] theorem Store.buf_take_self : (s.take sb b).buf b = fun _ => 0 := by
  rw [take, buf_logWrite, buf_fill_self]

theorem Store.buf_take_of_ne (hx : x ≠ b) (hbx : x ≠ sb.bblock b) : (s.take sb b).buf x = s.buf x := by
  rw [take, buf_logWrite, buf_fill_of_ne hx, buf_logWrite, buf_fill_of_ne hbx]

theorem Store.buf_take_of_data (hb : sb.Data b) (hx : sb.Data x) (hne : x ≠ b) : (s.take sb b).buf x = s.buf x :=
  buf_take_of_ne hne (hx.bblock_ne hb.2).symm

@[simp] theorem Store.log_take : (s.take sb b).log = insert b (insert (sb.bblock b) s.log) := rfl

theorem Store.logged_take : Logged ∅ s (s.take sb b) := Logged.write.trans Logged.write subset_rfl

theorem findFree_some {bi : ℕ} (h : findFree sb data k = some bi) :
    bi < BPB ∧ k * BPB + bi < sb.size ∧ testBit data bi = false := by
  have hmem := List.mem_of_find?_eq_some h
  have htest := List.find?_some h
  rw [List.mem_range] at hmem
  exact ⟨by omega, by omega, by simpa using htest⟩

theorem findFree_none (h : findFree sb data k = none) (hx : x < sb.size) (hk : x / BPB = k) : testBit data (x % BPB) = true := by
  have hBPB : 0 < BPB := by decide
  have hlt : x % BPB < BPB := Nat.mod_lt _ hBPB
  have hsum : k * BPB + x % BPB = x := by rw [← hk, Nat.mul_comm, Nat.div_add_mod]
  have hall := List.find?_eq_none.mp h (x % BPB) (List.mem_range.mpr (by omega))
  simpa using hall

/-- A visit of `balloc` to a block of the bitmap: it takes a block that is free, or there is none. -/
theorem Ends.mark {Q : Option ℕ → Store → Prop} (hnone : (∀ x < sb.size, x / BPB = k → s.used sb x = true) → Q none s)
    (hsome : ∀ b < sb.size, s.used sb b = false →
      Q (some b) ((s.fill (sb.bblock b) (setBit (s.buf (sb.bblock b)) (b % BPB))).logWrite (sb.bblock b))) :
    Ends sb.act (Vol.op (.mark k)) s Q := by
  cases hfind : findFree sb (s.buf (k + sb.bmapstart)) k with
  | none =>
    have hact : sb.act s (.mark k) = .ok (none, s) := by simp only [Superblock.act, hfind]
    refine Ends.op hact (hnone fun x hx hk => ?_)
    have hbit := findFree_none hfind hx hk
    rwa [← hk] at hbit
  | some bi =>
    obtain ⟨hbi, hlt, hbit⟩ := findFree_some hfind
    have hdiv : (k * BPB + bi) / BPB = k := by
      rw [Nat.mul_comm, Nat.mul_add_div (by decide), Nat.div_eq_of_lt hbi, Nat.add_zero]
    have hmod : (k * BPB + bi) % BPB = bi := by
      rw [Nat.mul_comm, Nat.mul_add_mod, Nat.mod_eq_of_lt hbi]
    have hblk : sb.bblock (k * BPB + bi) = k + sb.bmapstart := by rw [Superblock.bblock, hdiv]
    have hfree : s.used sb (k * BPB + bi) = false := by rw [Store.used, hblk, hmod, hbit]
    have hq := hsome (k * BPB + bi) hlt hfree
    rw [hblk, hmod] at hq
    exact Ends.op (by simp only [Superblock.act, hfind]) hq

theorem Ends.bzero {Q : Unit → Store → Prop} (h : Q () ((s.fill b fun _ => 0).logWrite b)) : Ends sb.act (bzero b) s Q :=
  Ends.bind (Ends.op rfl (Ends.op rfl h))

theorem Ends.ballocLoop (ks : List ℕ)
    (hfull : (∀ x < sb.size, x / BPB ∈ ks → s.used sb x = true) → Q 0 s)
    (htake : ∀ b < sb.size, s.used sb b = false → Q b (s.take sb b)) : Ends sb.act (ballocLoop ks) s Q := by
  induction ks with
  | nil => exact Ends.pure (hfull (by simp))
  | cons k ks ih =>
    refine Ends.bind (Ends.mark (fun hk => ?_) fun b hb hfree => ?_)
    · refine ih fun hks => hfull fun x hx hmem => ?_
      rcases List.mem_cons.mp hmem with hxk | hxk
      · exact hk x hx hxk
      · exact hks x hx hxk
    · exact Ends.bind (Ends.bzero (Ends.pure (htake b hb hfree)))

/-- **`balloc`** takes a free block, or all blocks are used. -/
theorem Ends.balloc (hfull : (∀ x < sb.size, s.used sb x = true) → Q 0 s)
    (htake : ∀ b < sb.size, s.used sb b = false → Q b (s.take sb b)) : Ends sb.act (balloc sb) s Q := by
  refine Ends.ballocLoop _ (fun hall => hfull fun x hx => hall x hx ?_) htake
  have hBPB : 0 < BPB := by decide
  rw [List.mem_range, Nat.div_lt_iff_lt_mul hBPB]
  have hround : sb.size ≤ (sb.size + BPB - 1) / BPB * BPB := by
    have := Nat.div_add_mod (sb.size + BPB - 1) BPB
    have := Nat.mod_lt (sb.size + BPB - 1) hBPB
    rw [Nat.mul_comm]
    omega
  omega

end Take

end Xv6Mlfq.Vol
