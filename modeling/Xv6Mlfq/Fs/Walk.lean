import Xv6Mlfq.Fs.Links

/-!
# Xv6Mlfq.Fs.Walk — inodes put, locked and looked up, one call at a time

What the programs of `fs.c` do to a tree in shape, when they run by themselves.

* `guard`: the actions allowed; `strict` asks that no process's current directory is unlinked, and otherwise that no entry is made
  in an unlinked directory.
* `Held`, `Fit`: every inode without a link is referenced, and the tree is in shape.
* `Runs`: a program run from a state ends with the postcondition.
-/

namespace Xv6Mlfq.Files

open Function

variable {T : Type} [DecidableEq T] [Fintype T] {Q : Unit → State T → Prop} {e : Panic} {d : ℕ}
  {parent : Bool}

/-- No link count is raised above 32767.  If `strict`, no directory loses its last link while it is the current directory of a
process; if not, no entry is made in a directory without a link. -/
def guard (strict : Bool) (s : State T) : Op ℕ T → Bool
  | .assign n d =>
    d.nlink ≠ -2 ^ 15 ∧ (strict = true → ¬ (d.type = .dir ∧ d.nlink = 0 ∧ ∃ t, (s.tab.proc t).cwd = some n))
  | .putDirent d _ de => strict = true ∨ de.inum = 0 ∨ 0 < (s.tree.inode d).nlink
  | _ => true

/-- The number of inodes, and whether current directories keep their links (`guard`). -/
structure Setup where
  ninodes : ℕ
  strict : Bool

/-- An inode without a link is referenced and has been read, a free inode has not been read, and if `strict`, current directories have
a link. -/
structure Held (g : Setup) (s : State T) : Prop where
  short : ∀ n, (s.tree.inode n).nlink < 2 ^ 15
  held : ∀ {n}, (s.tree.inode n).type ≠ .none → (s.tree.inode n).nlink = 0 → 0 < s.tree.ref n ∧ s.tree.valid n = true
  read : ∀ {n}, s.tree.valid n = true → (s.tree.inode n).type ≠ .none
  cwd : g.strict = true → ∀ t n, (s.tab.proc t).cwd = some n → s.tree.Live n

/-- So it is, and the tree is in shape up to the excess `x`. -/
structure Fit (g : Setup) (x : ℕ → ℕ) (s : State T) : Prop extends Held g s where
  shape : Shape g.ninodes x s.tree

/-- The program, run by itself by process `t`, ends with `Q`, or panics, though if `strict` not in `ilock: no type`. -/
def Runs (g : Setup) (t : T) {α : Type} (p : Code ℕ T α) (Q : α → State T → Prop) (s : State T) : Prop :=
  p.wp (Prog.effect (State.exec (guard g.strict) t) fun e => g.strict = true → e ≠ .ilockNoType) Q s

section Rules

variable {g : Setup} {t : T} {α β : Type} {s : State T} {n : ℕ}

theorem Runs.pure {x : α} {Q : α → State T → Prop} (h : Q x s) : Runs g t (pure x) Q s := h

theorem Runs.bind {p : Code ℕ T α} {f : α → Code ℕ T β} {Q : β → State T → Prop}
    (h : Runs g t p (fun x => Runs g t (f x) Q) s) : Runs g t (p >>= f) Q s := by
  unfold Runs
  rw [Prog.wp_bind]
  exact h

theorem Runs.mono {p : Code ℕ T α} {Q Q' : α → State T → Prop} (h : Runs g t p Q s) (hQ : ∀ x s, Q x s → Q' x s) :
    Runs g t p Q' s :=
  Prog.wp_mono Prog.effect_mono hQ h

theorem Runs.panic {Q : α → State T → Prop} (he : e ≠ .ilockNoType) :
    Runs g t (Files.panic e : Code ℕ T α) Q s := by
  intro c
  simp only [State.exec, Tree.exec, Tables.exec]
  split_ifs
  · exact fun _ => he
  · trivial

/-- An action on inodes. -/
theorem Runs.tree {a : Op ℕ T} {Q : a.Ans → State T → Prop}
    (h : guard g.strict s a = true → ∀ c, ∃ o, s.tree.exec a c = some o ∧
      match o with
      | .error e => g.strict = true → e ≠ .ilockNoType
      | .ok (r, tree) => Q r { s with tree := tree }) : Runs g t (op a) Q s := by
  intro c
  unfold State.exec
  split_ifs with hg
  · obtain ⟨o, ho, hq⟩ := h hg c
    rw [ho]
    match o, hq with
    | .error e, hq => exact hq
    | .ok (r, tree), hq => exact hq
  · trivial

theorem Runs.fields {Q : Dinode → State T → Prop} (h : Q (s.tree.inode n) s) : Runs g t (op (.fields n)) Q s :=
  .tree fun _ _ => ⟨_, rfl, h⟩

theorem Runs.inum {Q : ℕ → State T → Prop} (h : Q n s) : Runs g t (op (.inum n)) Q s := .tree fun _ _ => ⟨_, rfl, h⟩

theorem Runs.iupdate (h : Q () s) : Runs g t (op (.iupdate n)) Q s := .tree fun _ _ => ⟨_, rfl, h⟩

theorem Runs.dirent {k : ℕ} {Q : Dirent → State T → Prop} (h : Q (s.tree.ents n k) s) : Runs g t (op (.dirent n k)) Q s :=
  .tree fun _ _ => ⟨_, rfl, h⟩

theorem Runs.assign {d : Dinode}
    (h : guard g.strict s (.assign n d) = true → Q () { s with tree := s.tree.setInode n d }) :
    Runs g t (op (.assign n d)) Q s := .tree fun hg _ => ⟨_, rfl, h hg⟩

theorem Runs.idup (h : Q () { s with tree := s.tree.setRef n (s.tree.ref n + 1) }) :
    Runs g t (op (.idup n)) Q s := .tree fun _ _ => ⟨_, rfl, h⟩

theorem Runs.iget {Q : ℕ → State T → Prop} (h : Q n { s with tree := s.tree.iget n }) : Runs g t (op (.iget n)) Q s := by
  refine .tree fun _ c => ?_
  by_cases hc : s.tree.ref n = 0 ∧ c.ok = false
  · exact ⟨_, if_pos hc, fun _ => nofun⟩
  · exact ⟨_, if_neg hc, h⟩

theorem Runs.iunlock (h : Q () { s with tree := s.tree.setLock n false }) :
    Runs g t (op (.iunlock n)) Q s := by
  refine .tree fun _ c => ?_
  by_cases hc : s.tree.lock n = false ∨ s.tree.ref n < 1
  · exact ⟨_, if_pos hc, fun _ => nofun⟩
  · exact ⟨_, if_neg hc, h⟩

/-- `ilock` of an inode with a reference; it has been read afterwards. -/
theorem Runs.ilock (hread : s.tree.valid n = true → (s.tree.inode n).type ≠ .none)
    (htype : g.strict = true → (s.tree.inode n).type ≠ .none)
    (h : (s.tree.inode n).type ≠ .none → 0 < s.tree.ref n →
      Q () { s with tree := (s.tree.setLock n true).setValid n true }) : Runs g t (Files.ilock n) Q s := by
  refine .bind (.tree fun _ c => ?_)
  by_cases hr : s.tree.ref n < 1
  · exact ⟨_, if_pos hr, fun _ => nofun⟩
  refine ⟨_, if_neg hr, .bind ?_⟩
  intro c'
  simp only [State.exec, Tree.exec]
  split_ifs with hg hlock
  · trivial
  · refine .tree fun _ c'' => ?_
    by_cases hv : s.tree.valid n = true
    · refine ⟨_, if_pos hv, ?_⟩
      have hsame : s.tree.setLock n true = (s.tree.setLock n true).setValid n true := by
        simp only [Tree.setValid, Tree.setLock]
        rw [← hv, update_eq_self]
      rw [hsame]
      exact h (hread hv) (by omega)
    · by_cases hn : (s.tree.inode n).type = .none
      · refine ⟨_, (if_neg hv).trans (if_pos hn), fun hs => ?_⟩
        exact absurd hn (htype hs)
      · exact ⟨_, (if_neg hv).trans (if_neg hn), h hn (by omega)⟩
  · trivial

end Rules

/-! ## References -/

/-- What is not lost when references are taken and put: files and processes, entries, and every inode with a link. -/
structure Keeps (s s' : State T) : Prop where
  tab : s'.tab = s.tab
  ents : s'.tree.ents = s.tree.ents
  inode : ∀ m, (s.tree.inode m).nlink ≠ 0 → s'.tree.inode m = s.tree.inode m

section Refs

variable {g : Setup} {x : ℕ → ℕ} {t : T} {s s' s'' : State T} {n : ℕ}

omit [DecidableEq T] [Fintype T]

theorem Keeps.refl : Keeps s s := ⟨rfl, rfl, fun _ _ => rfl⟩

theorem Keeps.trans (h : Keeps s s') (h' : Keeps s' s'') : Keeps s s'' where
  tab := h'.tab.trans h.tab
  ents := h'.ents.trans h.ents
  inode := by
    intro m hm
    have h1 := h.inode m hm
    rw [← h1] at hm
    rw [h'.inode m hm, h1]

theorem Keeps.live (h : Keeps s s') (hl : s.tree.Live d) : s'.tree.Live d := by
  have hne : (s.tree.inode d).nlink ≠ 0 := by
    have := hl.2
    omega
  rw [Tree.Live, h.inode d hne]
  exact hl

theorem Keeps.entries (h : Keeps s s') (hl : s.tree.Live d) : s'.tree.entries d = s.tree.entries d := by
  rw [Tree.entries, h.inode d hl.2.ne', Tree.entries]

/-- Only reference counts, `valid` flags and locks change, no inode without a link loses its reference, and no free inode has been
read. -/
theorem Fit.refs (hf : Fit g x s) (htab : s'.tab = s.tab) (hinode : s'.tree.inode = s.tree.inode)
    (hents : s'.tree.ents = s.tree.ents)
    (hheld : ∀ m, (s.tree.inode m).nlink = 0 → 0 < s.tree.ref m ∧ s.tree.valid m = true →
      0 < s'.tree.ref m ∧ s'.tree.valid m = true)
    (hread : ∀ m, s'.tree.valid m = true → s.tree.valid m = true ∨ (s.tree.inode m).type ≠ .none) :
    Fit g x s' ∧ Keeps s s' := by
  refine ⟨⟨⟨by rw [hinode]; exact hf.short, fun {m} hm h0 => ?_, fun {m} hv => ?_, fun hs t' m hm => ?_⟩,
    hf.shape.congr hents fun m => by rw [hinode]; exact ⟨rfl, rfl, rfl⟩⟩, htab, hents, fun m _ => by rw [hinode]⟩
  · rw [hinode] at hm h0
    exact hheld m h0 (hf.held hm h0)
  · rw [hinode]
    exact (hread m hv).elim hf.read id
  · rw [htab] at hm
    rw [Tree.Live, hinode]
    exact hf.cwd hs t' m hm

theorem Fit.iget (hf : Fit g x s) :
    Fit g x { s with tree := s.tree.iget n } ∧ Keeps s { s with tree := s.tree.iget n } := by
  have hsplit : s.tree.iget n = (if s.tree.ref n = 0 then (s.tree.setRef n 1).setValid n false
      else s.tree.setRef n (s.tree.ref n + 1)) := rfl
  rw [hsplit]
  split_ifs with h0
  · refine hf.refs rfl rfl rfl (fun m hm hh => ?_) fun m hv => .inl ?_
    · have hmn : m ≠ n := by
        rintro rfl
        omega
      simpa [Tree.setRef, Tree.setValid, update_of_ne hmn] using hh
    · by_cases hmn : m = n
      · simp [Tree.setRef, Tree.setValid, hmn] at hv
      · simpa [Tree.setRef, Tree.setValid, update_of_ne hmn] using hv
  · refine hf.refs rfl rfl rfl (fun m hm hh => ?_) fun m hv => .inl hv
    by_cases hmn : m = n
    · subst hmn
      simpa [Tree.setRef] using hh.2
    · simpa [Tree.setRef, update_of_ne hmn] using hh

theorem Fit.setLock (hf : Fit g x s) {b : Bool} :
    Fit g x { s with tree := s.tree.setLock n b } ∧ Keeps s { s with tree := s.tree.setLock n b } :=
  hf.refs rfl rfl rfl (fun _ _ hh => hh) fun _ hv => .inl hv

theorem Fit.lockValid (hf : Fit g x s) (hn : (s.tree.inode n).type ≠ .none) :
    Fit g x { s with tree := (s.tree.setLock n true).setValid n true } ∧
      Keeps s { s with tree := (s.tree.setLock n true).setValid n true } := by
  refine hf.refs rfl rfl rfl (fun m _ hh => ⟨hh.1, ?_⟩) fun m hv => ?_
  · by_cases hmn : m = n
    · simp [Tree.setValid, hmn]
    · simpa [Tree.setValid, Tree.setLock, update_of_ne hmn] using hh.2
  · by_cases hmn : m = n
    · exact .inr (hmn ▸ hn)
    · exact .inl (by simpa [Tree.setValid, Tree.setLock, update_of_ne hmn] using hv)

theorem Fit.idup (hf : Fit g x s) :
    Fit g x { s with tree := s.tree.setRef n (s.tree.ref n + 1) } ∧
      Keeps s { s with tree := s.tree.setRef n (s.tree.ref n + 1) } := by
  refine hf.refs rfl rfl rfl (fun m _ hh => ⟨?_, hh.2⟩) fun m hv => .inl hv
  by_cases hmn : m = n
  · simp [Tree.setRef, hmn]
  · simpa [Tree.setRef, update_of_ne hmn] using hh.1

/-- A reference is put that is not the last, or to an inode that has a link. -/
theorem Fit.drop (hf : Fit g x s)
    (hnot : ¬ (s.tree.ref n = 1 ∧ s.tree.valid n = true ∧ (s.tree.inode n).nlink = 0)) :
    Fit g x { s with tree := s.tree.setRef n (s.tree.ref n - 1) } ∧
      Keeps s { s with tree := s.tree.setRef n (s.tree.ref n - 1) } := by
  refine hf.refs rfl rfl rfl (fun m hm hh => ⟨?_, hh.2⟩) fun m hv => .inl hv
  by_cases hmn : m = n
  · subst hmn
    have hne : s.tree.ref m ≠ 1 := fun h => hnot ⟨h, hh.2, hm⟩
    have hpos := hh.1
    simp only [Tree.setRef, update_self]
    omega
  · simpa [Tree.setRef, update_of_ne hmn] using hh.1

/-- The tree after `iput` has freed inode `n`. -/
def Tree.freed (s : Tree) (n : ℕ) : Tree :=
  { s with
    inode := update s.inode n { s.inode n with type := .none, size := 0, addrs := fun _ => 0 }
    ref := update s.ref n (s.ref n - 1)
    valid := update s.valid n false
    lock := update s.lock n false }

theorem Fit.freed (hf : Fit g x s) (h0 : (s.tree.inode n).nlink = 0) :
    Fit g x { s with tree := Tree.freed s.tree n } ∧ Keeps s { s with tree := Tree.freed s.tree n } := by
  have hsame : ∀ m ≠ n, (Tree.freed s.tree n).inode m = s.tree.inode m := fun m hm => update_of_ne hm _ _
  have hshape := hf.shape.freeInode (n := n) (e := { s.tree.inode n with type := .none, size := 0, addrs := fun _ => 0 })
    (f := s.tree.ents n) h0 rfl h0
  rw [update_eq_self] at hshape
  refine ⟨⟨⟨fun m => ?_, fun {m} hm hm0 => ?_, fun {m} hv => ?_, fun hs t' m hm => ?_⟩,
    hshape.congr rfl fun m => ⟨rfl, rfl, rfl⟩⟩, rfl, rfl, fun m hm => ?_⟩
  · by_cases hmn : m = n
    · simp [Tree.freed, hmn, h0]
    · rw [hsame m hmn]
      exact hf.short m
  · have hmn : m ≠ n := by
      rintro rfl
      simp [Tree.freed] at hm
    rw [hsame m hmn] at hm hm0
    simpa [Tree.freed, update_of_ne hmn] using hf.held hm hm0
  · by_cases hmn : m = n
    · simp [Tree.freed, hmn] at hv
    · rw [hsame m hmn]
      exact hf.read (by simpa [Tree.freed, update_of_ne hmn] using hv)
  · have hl := hf.cwd hs t' m hm
    have hmn : m ≠ n := by
      rintro rfl
      have := hl.2
      omega
    rw [Tree.Live, hsame m hmn]
    exact hl
  · refine hsame m ?_
    rintro rfl
    exact hm h0

end Refs

section Iput

variable {g : Setup} {x : ℕ → ℕ} {t : T} {s : State T} {n : ℕ}

/-- `iput` keeps a tree in shape. -/
theorem Runs.iput (hf : Fit g x s)
    (hQ : ∀ s', Fit g x s' → Keeps s s' → Q () s') : Runs g t (Files.iput n) Q s := by
  refine .bind (.tree fun _ c => ?_)
  by_cases hfree : s.tree.ref n = 1 ∧ s.tree.valid n = true ∧ (s.tree.inode n).nlink = 0
  · by_cases hlock : s.tree.lock n = true
    · exact ⟨_, (if_pos hfree).trans (if_pos hlock), fun _ => nofun⟩
    refine ⟨_, (if_pos hfree).trans (if_neg hlock), ?_⟩
    obtain ⟨hf', hk⟩ := hf.freed hfree.2.2
    refine .bind (.bind (.tree fun _ _ => ⟨_, rfl, .iupdate (.bind (.fields (.bind (.assign fun _ => .bind (.iupdate ?_)))))⟩))
    refine .bind (.tree fun _ _ => ⟨_, rfl, .bind (.tree fun _ _ => ⟨_, rfl, .tree fun _ _ => ⟨_, rfl, ?_⟩⟩)⟩)
    have hend := hQ _ hf' hk
    simp only [Tree.freed] at hend
    simpa [Tree.setInode, Tree.setLock, Tree.setValid, Tree.setRef, update_idem] using hend
  · refine ⟨_, if_neg hfree, ?_⟩
    obtain ⟨hf', hk⟩ := hf.drop hfree
    exact hQ _ hf' hk

/-- `iput` of an inode that has a link. -/
theorem Runs.iput_of_nlink (hn : (s.tree.inode n).nlink ≠ 0)
    (hQ : Q () { s with tree := s.tree.setRef n (s.tree.ref n - 1) }) : Runs g t (Files.iput n) Q s :=
  .bind (.tree fun _ _ => ⟨_, if_neg fun h => hn h.2.2, hQ⟩)

theorem Runs.iunlockput (hf : Fit g x s)
    (hQ : ∀ s', Fit g x s' → Keeps s s' → Q () s') : Runs g t (Files.iunlockput n) Q s := by
  obtain ⟨hf', hk⟩ := hf.setLock (n := n) (b := false)
  refine .bind (.iunlock (.iput hf' fun s' hs' hk' => hQ s' hs' (hk.trans hk')))

end Iput

/-! ## Directories -/

section Directories

variable {g : Setup} {x : ℕ → ℕ} {t : T} {s : State T} {n d k : ℕ} {name : Name}

omit [DecidableEq T] [Fintype T] in
theorem lt_entries_iff : k < s.tree.entries d ↔ (k + 1) * sizeofDirent ≤ (s.tree.inode d).size := by
  rw [Tree.entries, Nat.lt_iff_add_one_le, Nat.le_div_iff_mul_le (by decide)]

/-- A search finds an entry that passes the test, or none does. -/
theorem Runs.scan {test : Dirent → Bool} {m : ℕ} {Q : Option (Dirent × ℕ) → State T → Prop} (he : e ≠ .ilockNoType)
    (hnone : (∀ j, k ≤ j → j < k + m → test (s.tree.ents d j) = false) → Q none s)
    (hsome : ∀ j, k ≤ j → j < s.tree.entries d → test (s.tree.ents d j) = true → Q (some (s.tree.ents d j, j)) s) :
    Runs g t (Files.scan e test d (s.tree.inode d).size m k) Q s := by
  induction m generalizing k with
  | zero => exact .pure (hnone fun j hj hj' => absurd hj' (by omega))
  | succ m ih =>
    unfold Files.scan
    split_ifs with hsize
    · exact .panic he
    refine .bind (.dirent ?_)
    split_ifs with htest
    · exact .pure (hsome k le_rfl (lt_entries_iff.mpr (by omega)) htest)
    · refine ih (fun h => hnone fun j hj hj' => ?_) fun j hj => hsome j (by omega)
      by_cases hjk : j = k
      · simpa [hjk] using htest
      · exact h j (by omega) (by omega)

theorem entries_le_rounds {size : ℕ} : size / sizeofDirent ≤ rounds size 0 := by
  unfold rounds
  exact Nat.div_le_div_right (by simp only [sizeofDirent]; omega)

theorem Runs.dirlookup {Q : Option (ℕ × ℕ) → State T → Prop}
    (hnone : (s.tree.inode d).type = .dir →
      (∀ k < s.tree.entries d, (s.tree.ents d k).inum ≠ 0 → (s.tree.ents d k).name ≠ name) → Q none s)
    (hsome : (s.tree.inode d).type = .dir → ∀ k < s.tree.entries d, (s.tree.ents d k).inum ≠ 0 →
      (s.tree.ents d k).name = name →
      Q (some ((s.tree.ents d k).inum, k)) { s with tree := s.tree.iget (s.tree.ents d k).inum }) :
    Runs g t (Files.dirlookup d name) Q s := by
  refine .bind (.fields ?_)
  split_ifs with hdir
  · exact .panic nofun
  rw [ne_eq, not_not] at hdir
  refine .bind (.scan nofun (fun h => ?_) fun j _ hj htest => ?_)
  · refine .pure (hnone hdir fun k hk hne hname => ?_)
    have hle : s.tree.entries d ≤ rounds (s.tree.inode d).size 0 := entries_le_rounds
    have := h k (Nat.zero_le k) (by omega)
    simp [hne, hname] at this
  · rw [Bool.and_eq_true, decide_eq_true_eq, decide_eq_true_eq] at htest
    exact .bind (.iget (.pure (hsome hdir j hj htest.1 htest.2)))

/-- `writei` of an entry of a directory, over another or at its end. -/
theorem Runs.writeDirent {de : Dirent} {Q : Bool → State T → Prop} (hwhole : s.tree.entries d * sizeofDirent = (s.tree.inode d).size)
    (hk : k ≤ s.tree.entries d) (hlong : k = s.tree.entries d → Q false s)
    (haddrs : k = s.tree.entries d →
      ∀ addrs, Q false { s with tree := s.tree.setInode d { s.tree.inode d with addrs := addrs } })
    (hpanic : k < s.tree.entries d → MAXFILE * BSIZE < (k + 1) * sizeofDirent → Q false s)
    (hdone : guard g.strict s (.putDirent d k de) = true → ∀ size addrs, Slot s.tree d k size →
      (k < s.tree.entries d → addrs = (s.tree.inode d).addrs) → Q true { s with tree := s.tree.setEntry d k size addrs de }) :
    Runs g t (Files.writeDirent d k de) Q s := by
  refine .bind (.tree fun hg c => ⟨_, rfl, ?_⟩)
  have hsize : ¬ (s.tree.inode d).size < k * sizeofDirent := by
    rw [← hwhole, not_lt]
    exact Nat.mul_le_mul_right _ hk
  unfold Tree.putDirent
  by_cases hmax : MAXFILE * BSIZE < (k + 1) * sizeofDirent
  · simp only [hsize, hmax, or_true, if_true]
    by_cases hlt : k < s.tree.entries d
    · exact .pure (hpanic hlt hmax)
    · exact .pure (hlong (by omega))
  by_cases hlt : k < s.tree.entries d
  · have hover : k * sizeofDirent < (s.tree.inode d).size := by
      have := lt_entries_iff.mp hlt
      simp only [sizeofDirent] at this ⊢
      omega
    simp only [hsize, hmax, or_self, if_false, hover, if_true]
    have hend := hdone hg _ (s.tree.inode d).addrs (.inl ⟨hlt, rfl⟩) fun _ => rfl
    simp only [Tree.setEntry, update_eq_self] at hend
    exact .bind (.iupdate (.pure hend))
  · have heq : k = s.tree.entries d := by omega
    have hover : ¬ k * sizeofDirent < (s.tree.inode d).size := by
      rw [heq, hwhole]
      exact lt_irrefl _
    simp only [hsize, hmax, or_self, if_false, hover]
    by_cases hok : c.ok = true
    · simp only [hok, if_true]
      refine .bind (.iupdate (.pure (hdone hg _ _ (.inr ⟨heq, ?_⟩) fun h => absurd h hlt)))
      rw [← hwhole, heq, Nat.add_mul, Nat.one_mul]
    · simp only [hok]
      exact .bind (.iupdate (.pure (haddrs heq _)))

/-- `dirlink`: the name is found, there is no room, or the entry is made. -/
theorem Runs.dirlink {inum : ℕ} {Q : Bool → State T → Prop} (hwhole : s.tree.entries d * sizeofDirent = (s.tree.inode d).size)
    (hfound : (s.tree.inode d).type = .dir → ∀ k < s.tree.entries d, (s.tree.ents d k).inum ≠ 0 →
      (s.tree.ents d k).name = name →
      Runs g t (Files.iput (s.tree.ents d k).inum) (fun _ => Q false)
        { s with tree := s.tree.iget (s.tree.ents d k).inum })
    (hfull : Q false s)
    (haddrs : ∀ addrs, Q false { s with tree := s.tree.setInode d { s.tree.inode d with addrs := addrs } })
    (hdone : ∀ k size addrs,
      (∀ k < s.tree.entries d, (s.tree.ents d k).inum ≠ 0 → (s.tree.ents d k).name ≠ name) →
      guard g.strict s (.putDirent d k ⟨name, inum % 2 ^ 16⟩) = true → Slot s.tree d k size →
      (k < s.tree.entries d → (s.tree.ents d k).inum = 0) →
      Q true { s with tree := s.tree.setEntry d k size addrs ⟨name, inum % 2 ^ 16⟩ }) :
    Runs g t (Files.dirlink d name inum) Q s := by
  refine .bind (.dirlookup (fun _ hfresh => ?_) fun hdir k hk hne hname => ?_)
  · refine .bind (.fields (.bind (.scan nofun (fun _ => ?_) fun j _ hj htest => ?_)))
    · have hrounds : rounds (s.tree.inode d).size 0 = s.tree.entries d := by
        rw [rounds, ← hwhole]
        simp only [sizeofDirent]
        omega
      rw [hrounds]
      exact .writeDirent hwhole le_rfl (fun _ => hfull) (fun _ => haddrs) (fun h => absurd h (lt_irrefl _))
        fun hg size addrs hslot _ => hdone _ _ _ hfresh hg hslot fun h => absurd h (lt_irrefl _)
    · exact .writeDirent hwhole hj.le (fun h => absurd hj (by omega)) (fun h => absurd hj (by omega)) (fun _ _ => hfull)
        fun hg size addrs hslot _ => hdone _ _ _ hfresh hg hslot fun _ => by simpa using htest
  · exact .bind ((hfound hdir k hk hne hname).mono fun _ _ h => .pure h)

end Directories

/-! ## Paths -/

section Found

variable {g : Setup} {x : ℕ → ℕ} {s s' : State T} {n d k : ℕ}

omit [DecidableEq T] [Fintype T]

/-- If `strict`, the inode is allocated and has a link. -/
def Found (g : Setup) (s : State T) (n : ℕ) : Prop :=
  g.strict = true → (s.tree.inode n).type ≠ .none ∧ (s.tree.inode n).nlink ≠ 0

theorem Found.keeps (h : Found g s n) (hk : Keeps s s') : Found g s' n := by
  intro hs
  rw [hk.inode n (h hs).2]
  exact h hs

theorem Found.live (hf : Fit g x s) (h : Found g s n) (hs : g.strict = true) (hdir : (s.tree.inode n).type = .dir) :
    s.tree.Live n := by
  refine ⟨hdir, ?_⟩
  have hne := (h hs).2
  have := hf.shape.nlink (h hs).1
  omega

theorem found_of_live (h : g.strict = true → s.tree.Live n) : Found g s n := by
  intro hs
  obtain ⟨hdir, hpos⟩ := h hs
  exact ⟨by rw [hdir]; exact nofun, by omega⟩

/-- What is found in a directory that has been found. -/
theorem Fit.found (hf : Fit g x s) (h : Found g s d) (hdir : (s.tree.inode d).type = .dir)
    (hk : k < s.tree.entries d) (hn : (s.tree.ents d k).inum ≠ 0) : Found g s (s.tree.ents d k).inum := by
  intro hs
  have hl := Found.live hf h hs hdir
  by_cases hname : (s.tree.ents d k).name = dot
  · have hdots := hf.shape.dots hl
    -- only the first entry has this name
    have hk0 : k = 0 := by
      by_contra hne
      by_cases h1 : k = 1
      · rw [h1, hdots.2.2.1] at hname
        cases hname
      · exact (hf.shape.named hl (by omega) hk hn).1 hname
    rw [hk0, hdots.2.1]
    exact h hs
  · have := hf.shape.named_alloc hl hk hname hn
    exact ⟨this.1, by omega⟩

end Found

section Paths

variable {g : Setup} {x : ℕ → ℕ} {t : T} {s : State T} {n : ℕ} {path : Path}

/-- The loop of `namex`, from an inode that has been found, finds an inode. -/
theorem Runs.namexLoop {elems : List Name} {Q : Option (ℕ × Name) → State T → Prop} (hf : Fit g x s)
    (hn : Found g s n) (hnone : ∀ s', Fit g x s' → Keeps s s' → Q none s')
    (hsome : ∀ s' m name, Fit g x s' → Keeps s s' → Found g s' m →
      (parent = true → (s'.tree.inode m).type = .dir) → Q (some (m, name)) s') :
    Runs g t (Files.namexLoop parent n elems) Q s := by
  induction elems generalizing s n with
  | nil =>
    unfold Files.namexLoop
    split_ifs with hp
    · exact .bind (.iput hf fun s' hf' hk' => .pure (hnone s' hf' hk'))
    · exact .pure (hsome s n [] hf .refl hn fun h => absurd h hp)
  | cons name rest ih =>
    refine .bind (.ilock hf.read (fun hs => (hn hs).1) fun htype _ => .bind (.fields ?_))
    obtain ⟨hf1, hk1⟩ := hf.lockValid htype
    by_cases hdir : (s.tree.inode n).type = .dir
    · simp only [Tree.setLock, Tree.setValid, hdir, ne_eq, not_true_eq_false, if_false]
      split_ifs with hlast
      · obtain ⟨hf2, hk2⟩ := hf1.setLock (n := n) (b := false)
        exact .bind (.iunlock (.pure (hsome _ n name hf2 (hk1.trans hk2) (hn.keeps (hk1.trans hk2)) fun _ => hdir)))
      · refine .bind (.dirlookup (fun _ _ => ?_) fun _ k hk hne _ => ?_)
        · exact .bind (.iunlockput hf1 fun s' hf' hk' => .pure (hnone s' hf' (hk1.trans hk')))
        · have hfound := hf1.found (hn.keeps hk1) hdir hk hne
          obtain ⟨hf2, hk2⟩ := hf1.iget (n := (s.tree.ents n k).inum)
          refine .bind (.iunlockput hf2 fun s' hf' hk' => ?_)
          have hk'' := (hk1.trans hk2).trans hk'
          exact ih hf' ((hfound.keeps hk2).keeps hk') (fun s3 hf3 hk3 => hnone s3 hf3 (hk''.trans hk3))
            fun s3 m nm hf3 hk3 => hsome s3 m nm hf3 (hk''.trans hk3)
    · simp only [Tree.setLock, Tree.setValid, hdir, ne_eq, not_false_eq_true, if_true]
      exact .bind (.iunlockput hf1 fun s' hf' hk' => .pure (hnone s' hf' (hk1.trans hk')))

theorem Runs.cwd {Q : Option ℕ → State T → Prop} (h : Q (s.tab.proc t).cwd s) : Runs g t (op .cwd) Q s := by
  intro c
  simp only [State.exec, Tree.exec, Tables.exec]
  split_ifs
  · exact h
  · trivial

/-- `idup(myproc()->cwd)` -/
theorem Runs.dupCwd {Q : Option ℕ → State T → Prop} (hf : Fit g x s)
    (hQ : ∀ s', Fit g x s' → Keeps s s' → Q (s.tab.proc t).cwd s') : Runs g t Files.dupCwd Q s := by
  refine .bind (.cwd ?_)
  match hc : (s.tab.proc t).cwd with
  | none =>
    rw [hc] at hQ
    exact .pure (hQ s hf .refl)
  | some n =>
    rw [hc] at hQ
    obtain ⟨hf1, hk1⟩ := hf.idup (n := n)
    exact .bind (.idup (.pure (hQ _ hf1 hk1)))

theorem Runs.namex {Q : Option (ℕ × Name) → State T → Prop} (hf : Fit g x s)
    (hnone : ∀ s', Fit g x s' → Keeps s s' → Q none s')
    (hsome : ∀ s' m name, Fit g x s' → Keeps s s' → Found g s' m →
      (parent = true → (s'.tree.inode m).type = .dir) → Q (some (m, name)) s') :
    Runs g t (Files.namex path parent) Q s := by
  unfold Files.namex
  split_ifs with habs
  · obtain ⟨hf1, hk1⟩ := hf.iget (n := ROOTINO)
    refine .bind (.iget (.namexLoop hf1 (found_of_live fun _ => hf1.shape.root.1) (fun s' hf' hk' => hnone s' hf' (hk1.trans hk'))
      fun s' m name hf' hk' => hsome s' m name hf' (hk1.trans hk')))
  · refine .bind (.dupCwd hf fun s1 hf1 hk1 => ?_)
    match hc : (s.tab.proc t).cwd with
    | none => exact .pure (hnone s1 hf1 hk1)
    | some n =>
      refine .namexLoop hf1 (found_of_live fun hs => hk1.live (hf.cwd hs t n hc)) (fun s' hf' hk' => hnone s' hf' (hk1.trans hk'))
        fun s' m name hf' hk' => hsome s' m name hf' (hk1.trans hk')

theorem Runs.namei {Q : Option ℕ → State T → Prop} (hf : Fit g x s)
    (hnone : ∀ s', Fit g x s' → Keeps s s' → Q none s')
    (hsome : ∀ s' m, Fit g x s' → Keeps s s' → Found g s' m → Q (some m) s') :
    Runs g t (Files.namei path) Q s :=
  .bind (.namex hf (fun s' hf' hk' => .pure (hnone s' hf' hk')) fun s' m _ hf' hk' hm _ => .pure (hsome s' m hf' hk' hm))

theorem Runs.nameiparent {Q : Option (ℕ × Name) → State T → Prop} (hf : Fit g x s)
    (hnone : ∀ s', Fit g x s' → Keeps s s' → Q none s')
    (hsome : ∀ s' m name, Fit g x s' → Keeps s s' → Found g s' m → (s'.tree.inode m).type = .dir →
      Q (some (m, name)) s') : Runs g t (Files.nameiparent path) Q s :=
  .namex hf hnone fun s' m name hf' hk' hm hdir => hsome s' m name hf' hk' hm (hdir rfl)

end Paths

end Xv6Mlfq.Files
