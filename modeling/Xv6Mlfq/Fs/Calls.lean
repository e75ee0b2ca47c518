import Xv6Mlfq.Fs.Walk

/-!
# Xv6Mlfq.Fs.Calls — the calls keep directories and link counts in step

* `Runs.create`, `Runs.sysUnlink`, `Runs.sysLink`: the calls that change directories; `Making` is the state of `create` between its
  `ilock` and its last `dirlink`.
* `Call.fit`: every call on names keeps a tree in shape.
-/

namespace Xv6Mlfq.Files

open Function

variable {T : Type} [DecidableEq T] [Fintype T] {major minor v : ℤ} {Q : Unit → State T → Prop} {a : Op ℕ T}
  {f : Fin NFILE} {ip : Option ℕ} {size k m omode : ℕ} {de : Dirent} {x : ℕ → ℕ} {path : Path} {e : Dinode}

/-! ## Files and processes -/

/-- The actions on files and processes that leave current directories alone. -/
def Op.Quiet : Op ℕ T → Prop
  | .filealloc | .filedup _ | .filedrop _ | .file _ | .setFile .. | .ofile _ | .setOfile .. | .pipealloc | .pipeclose ..
  | .allocproc | .freeproc _ | .zombie | .try => True
  | _ => False

section Tables

variable {g : Setup} {x : ℕ → ℕ} {t : T} {s s' : State T} {fd : Fin NOFILE}

omit [Fintype T] in
theorem cwd_setProc {tab : Tables ℕ T} {u t' : T} {p : Proc ℕ} (hp : p.cwd = (tab.proc u).cwd) :
    ((tab.setProc u p).proc t').cwd = (tab.proc t').cwd :=
  update_keeps (g := Proc.cwd) hp t'

omit [Fintype T] in
theorem Tables.exec_quiet (tab : Tables ℕ T) (ha : a.Quiet) (c : Choice T) :
    match tab.exec t a c with
    | some (.ok (_, tab')) => ∀ t', (tab'.proc t').cwd = (tab.proc t').cwd
    | some (.error e) => e ≠ .ilockNoType
    | none => True := by
  cases a <;> simp only [Op.Quiet] at ha <;> simp only [Tables.exec]
  case filealloc =>
    cases tab.freeFile with
    | none | some f => exact fun _ => rfl
  case filedup f =>
    by_cases h : (tab.file f).ref < 1
    · simp only [h, if_true]
      rintro ⟨⟩
    · simp only [h, if_false]
      exact fun _ => rfl
  case filedrop f =>
    by_cases h : (tab.file f).ref < 1
    · simp only [h, if_true]
      rintro ⟨⟩
    · by_cases h' : 1 < (tab.file f).ref
      · simp only [h, h', if_true, if_false]
        exact fun _ => rfl
      · simp only [h, h', if_false]
        exact fun _ => rfl
  case pipealloc =>
    by_cases h : c.ok = true
    · simp only [h, if_true]
      exact fun _ => trivial
    · simp only [h]
      exact fun _ => rfl
  case allocproc =>
    cases c.child with
    | none => exact fun _ => rfl
    | some child =>
      by_cases h : (tab.proc child).state = .unused
      · simp only [h, if_true]
        exact fun _ => cwd_setProc rfl
      · simp only [h, if_false]
  case setOfile => exact fun _ => cwd_setProc rfl
  case freeproc => exact fun _ => cwd_setProc rfl
  case zombie => exact fun _ => cwd_setProc rfl
  all_goals exact fun _ => by trivial

omit [DecidableEq T] [Fintype T] in
/-- A change to files and processes, if current directories stay live. -/
theorem Fit.retab (hf : Fit g x s) (htree : s'.tree = s.tree)
    (hcwd : g.strict = true → ∀ t n, (s'.tab.proc t).cwd = some n → s.tree.Live n) : Fit g x s' where
  shape := by
    rw [htree]
    exact hf.shape
  short := by
    rw [htree]
    exact hf.short
  held := by
    rw [htree]
    exact hf.held
  read := by
    rw [htree]
    exact hf.read
  cwd := by
    rw [htree]
    exact hcwd

theorem Runs.quiet {Q : a.Ans → State T → Prop} (ha : a.Quiet) (hf : Fit g x s)
    (hQ : ∀ r s', Fit g x s' → s'.tree = s.tree → Q r s') : Runs g t (op a) Q s := by
  intro c
  have htree : s.tree.exec a c = none := by
    cases a <;> simp only [Op.Quiet] at ha <;> rfl
  have htab := s.tab.exec_quiet (t := t) ha c
  unfold State.exec
  rw [htree]
  split_ifs
  · match hx : s.tab.exec t a c, htab with
    | none, _ => trivial
    | some (.error e), he => exact fun _ => he
    | some (.ok (r, tab)), hcwd =>
      refine hQ r _ (hf.retab rfl fun hs t' n hn => ?_) rfl
      exact hf.cwd hs t' n ((hcwd t').symm.trans hn)
  · trivial

section

variable (hf : Fit g x s)
include hf

theorem Runs.fdalloc {Q : Option (Fin NOFILE) → State T → Prop}
    (hQ : ∀ r s', Fit g x s' → s'.tree = s.tree → Q r s') : Runs g t (Files.fdalloc f) Q s := by
  unfold Files.fdalloc
  generalize List.finRange NOFILE = fds
  induction fds generalizing s with
  | nil => exact .pure (hQ none s hf rfl)
  | cons fd rest ih =>
    refine .bind (.quiet trivial hf fun r s1 hf1 h₁ => ?_)
    match r with
    | none => exact .bind (.quiet trivial hf1 fun _ s2 hf2 h₂ => .pure (hQ _ s2 hf2 (h₂.trans h₁)))
    | some _ => exact ih hf1 fun r s2 hf2 h₂ => hQ r s2 hf2 (h₂.trans h₁)

theorem Runs.fileclose
    (hQ : ∀ s', Fit g x s' → Q () s') : Runs g t (Files.fileclose f) Q s := by
  refine .bind (.quiet trivial hf fun r s1 hf1 _ => ?_)
  match r with
  | none => exact .pure (hQ s1 hf1)
  | some ⟨_, kind, _, _⟩ =>
    match kind with
    | .none => exact .pure (hQ s1 hf1)
    | .pipe pi => exact .quiet trivial hf1 fun _ s2 hf2 _ => hQ s2 hf2
    | .inode ip => exact .iput hf1 fun s2 hf2 _ => hQ s2 hf2
    | .device ip _ => exact .iput hf1 fun s2 hf2 _ => hQ s2 hf2

theorem Runs.withFile {k : Fin NFILE → Code ℕ T Unit}
    (hnone : ∀ s', Fit g x s' → Q () s')
    (hsome : ∀ f s', Fit g x s' → Runs g t (k f) Q s') : Runs g t (Files.withFile fd k) Q s := by
  refine .bind (.quiet trivial hf fun r s1 hf1 _ => ?_)
  match r with
  | none => exact .pure (hnone s1 hf1)
  | some f => exact hsome f s1 hf1

theorem Runs.sysDup :
    Runs g t (Files.sysDup fd) (fun _ => Fit g x) s := by
  refine .withFile hf (fun _ h => h) fun f s1 hf1 => .bind (.fdalloc hf1 fun r s2 hf2 _ => ?_)
  match r with
  | none => exact .pure hf2
  | some _ => exact .quiet trivial hf2 fun _ _ hf3 _ => hf3

theorem Runs.sysClose :
    Runs g t (Files.sysClose fd) (fun _ => Fit g x) s :=
  .withFile hf (fun _ h => h) fun _ _ hf1 => .bind (.quiet trivial hf1 fun _ _ hf2 _ => .fileclose hf2 fun _ h => h)

theorem Runs.pipealloc {Q : Option (Fin NFILE × Fin NFILE) → State T → Prop}
    (hQ : ∀ r s', Fit g x s' → Q r s') : Runs g t Files.pipealloc Q s := by
  refine .bind (.quiet trivial hf fun r s1 hf1 _ => ?_)
  match r with
  | none => exact .pure (hQ none s1 hf1)
  | some f0 =>
    refine .bind (.quiet trivial hf1 fun r s2 hf2 _ => ?_)
    match r with
    | none => exact .bind (.fileclose hf2 fun s3 hf3 => .pure (hQ none s3 hf3))
    | some f1 =>
      refine .bind (.quiet trivial hf2 fun r s3 hf3 _ => ?_)
      match r with
      | none => exact .bind (.fileclose hf3 fun s4 hf4 => .bind (.fileclose hf4 fun s5 hf5 => .pure (hQ none s5 hf5)))
      | some pi =>
        exact .bind (.quiet trivial hf3 fun _ s4 hf4 _ => .bind (.quiet trivial hf4 fun _ s5 hf5 _ => .pure (hQ _ s5 hf5)))

/-- The error paths of `sys_pipe` -/
theorem Runs.closeBoth {f' : Fin NFILE} :
    Runs g t (do Files.fileclose f; Files.fileclose f') (fun _ => Fit g x) s :=
  .bind (.fileclose hf fun _ hf1 => .fileclose hf1 fun _ hf2 => hf2)

theorem Runs.sysPipe : Runs g t Files.sysPipe (fun _ => Fit g x) s := by
  refine .bind (.pipealloc hf fun r s1 hf1 => ?_)
  match r with
  | none => exact .pure hf1
  | some (rf, wf) =>
    refine .bind (.fdalloc hf1 fun r s2 hf2 _ => ?_)
    match r with
    | none => exact .closeBoth hf2
    | some fd0 =>
      refine .bind (.fdalloc hf2 fun r s3 hf3 _ => ?_)
      match r with
      | none => exact .bind (.quiet trivial hf3 fun _ _ hf4 _ => .closeBoth hf4)
      | some fd1 =>
        refine .bind (.quiet trivial hf3 fun r s4 hf4 _ => ?_)
        match r with
        | true => exact .pure hf4
        | false =>
          exact .bind (.quiet trivial hf4 fun _ _ hf5 _ => .bind (.quiet trivial hf5 fun _ _ hf6 _ => .closeBoth hf6))

end

theorem Runs.setCwd
    (h : Q () { s with tab := s.tab.setProc t { s.tab.proc t with cwd := ip } }) : Runs g t (op (.setCwd ip)) Q s := by
  intro c
  simp only [State.exec, Tree.exec, Tables.exec]
  split_ifs
  · exact h
  · trivial

theorem Runs.putCwd (hf : Fit g x s)
    (hQ : ∀ s', Fit g x s' → Keeps s s' → Q () s') : Runs g t Files.putCwd Q s := by
  refine .bind (.cwd ?_)
  match (s.tab.proc t).cwd with
  | none => exact .pure (hQ s hf .refl)
  | some n => exact .iput hf hQ

omit [Fintype T] in
/-- A process changes to a live directory, or to none. -/
theorem Fit.setCwd (hf : Fit g x s) (hip : g.strict = true → ∀ n, ip = some n → s.tree.Live n) :
    Fit g x { s with tab := s.tab.setProc t { s.tab.proc t with cwd := ip } } := by
  refine hf.retab rfl fun hs t' n hn => ?_
  by_cases h : t' = t
  · exact hip hs n (by simpa [Tables.setProc, h] using hn)
  · exact hf.cwd hs t' n (by simpa [Tables.setProc, update_of_ne h] using hn)

theorem Runs.exit (hf : Fit g x s) : Runs g t Files.exit (fun _ => Fit g x) s := by
  have hclose : ∀ (fds : List (Fin NOFILE)) (s : State T), Fit g x s →
      Runs g t (Files.closeFiles fds) (fun _ => Fit g x) s := by
    intro fds
    induction fds with
    | nil => exact fun _ h => .pure h
    | cons fd rest ih =>
      refine fun s hf => .bind (.quiet trivial hf fun r s1 hf1 _ => ?_)
      match r with
      | none => exact ih s1 hf1
      | some f => exact .bind (.fileclose hf1 fun s2 hf2 => .bind (.quiet trivial hf2 fun _ s3 hf3 _ => ih s3 hf3))
  refine .bind ((hclose _ s hf).mono fun _ s1 hf1 => .bind (.putCwd hf1 fun s2 hf2 _ => .bind (.setCwd ?_)))
  exact .quiet trivial (hf2.setCwd fun _ _ => nofun) fun _ _ hf3 _ => hf3

theorem Runs.dupFiles {fds : List (Fin NOFILE)} {Q : (Fin NOFILE → Option (Fin NFILE)) → State T → Prop}
    (hf : Fit g x s) (hQ : ∀ r s', Fit g x s' → Q r s') : Runs g t (Files.dupFiles fds) Q s := by
  induction fds generalizing s Q with
  | nil => exact .pure (hQ _ s hf)
  | cons fd rest ih =>
    refine .bind (.quiet trivial hf fun r s1 hf1 _ => ?_)
    match r with
    | none => exact ih hf1 hQ
    | some f => exact .bind (.quiet trivial hf1 fun _ s2 hf2 _ => .bind (ih hf2 fun r s3 hf3 => .pure (hQ _ s3 hf3)))

theorem Runs.fork (hf : Fit g x s) : Runs g t Files.fork (fun _ => Fit g x) s := by
  refine .bind (.quiet trivial hf fun r s1 hf1 _ => ?_)
  match r with
  | none => exact .pure hf1
  | some child =>
    refine .bind (.quiet trivial hf1 fun r s2 hf2 _ => ?_)
    match r with
    | false => exact .quiet trivial hf2 fun _ _ hf3 _ => hf3
    | true =>
      refine .bind (.dupFiles hf2 fun ofile s3 hf3 => .bind (.dupCwd hf3 fun s4 hf4 hk => ?_))
      intro c
      simp only [State.exec, Tree.exec, Tables.exec]
      split_ifs
      · refine hf4.retab rfl fun hs t' n hn => ?_
        by_cases h : t' = child
        · exact hk.live (hf3.cwd hs t n (by simpa [Tables.setProc, h] using hn))
        · exact hf4.cwd hs t' n (by simpa [Tables.setProc, update_of_ne h] using hn)
      · trivial

end Tables

/-! ## Changes to the tree -/

section Changes

variable {g : Setup} {x x' : ℕ → ℕ} {t : T} {s s' : State T} {n d k : ℕ} {name : Name}

omit [DecidableEq T] [Fintype T] in
/-- The tree has changed, but neither types nor link counts. -/
theorem Held.congr (hf : Held g s) (htab : s'.tab = s.tab)
    (hinode : ∀ m, (s'.tree.inode m).type = (s.tree.inode m).type ∧ (s'.tree.inode m).nlink = (s.tree.inode m).nlink)
    (href : s'.tree.ref = s.tree.ref) (hvalid : s'.tree.valid = s.tree.valid) : Held g s' where
  short := by
    intro m
    rw [(hinode m).2]
    exact hf.short m
  held := by
    intro m
    rw [(hinode m).1, (hinode m).2, href, hvalid]
    exact hf.held
  read := by
    intro m
    rw [(hinode m).1, hvalid]
    exact hf.read
  cwd := by
    intro hs t' m
    rw [Tree.Live, (hinode m).1, (hinode m).2, htab]
    exact hf.cwd hs t' m

omit [DecidableEq T] [Fintype T] in
theorem Held.setEntry (hf : Held g s) {addrs : Fin (NDIRECT + 1) → ℕ} :
    Held g { s with tree := s.tree.setEntry d k size addrs de } := by
  exact hf.congr rfl (fun m => ⟨update_keeps (g := Dinode.type) (by rfl) m, setEntry_nlink⟩) rfl rfl

omit [DecidableEq T] [Fintype T] in
/-- A link count has changed: it is positive, or the inode is in hand and no current directory. -/
theorem Held.setNlink (hf : Held g s) (hshort : v < 2 ^ 15)
    (hheld : 0 < v ∨ (0 < s.tree.ref n ∧ s.tree.valid n = true) ∧
      (g.strict = true → (s.tree.inode n).type = .dir → ∀ t, (s.tab.proc t).cwd ≠ some n)) :
    Held g { s with tree := s.tree.setNlink n v } where
  short := by
    intro m
    by_cases hm : m = n
    · rw [hm]
      simpa [setNlink_nlink] using hshort
    · simpa [setNlink_nlink_of_ne hm] using hf.short m
  held := by
    intro m hmt hm0
    by_cases hm : m = n
    · rw [hm, setNlink_nlink] at hm0
      rw [hm]
      exact hheld.elim (fun hv => absurd hv (by omega)) And.left
    · rw [setNlink_type] at hmt
      rw [setNlink_nlink_of_ne hm] at hm0
      exact hf.held hmt hm0
  read := by
    intro m hv
    rw [setNlink_type]
    exact hf.read hv
  cwd := by
    intro hs t' m hm
    obtain ⟨hdir, hpos⟩ := hf.cwd hs t' m hm
    refine ⟨by rw [setNlink_type]; exact hdir, ?_⟩
    by_cases hmn : m = n
    · rw [hmn, setNlink_nlink]
      rw [hmn] at hm hdir
      exact hheld.elim id fun h => absurd hm (h.2 hs hdir t')
    · rw [setNlink_nlink_of_ne hmn]
      exact hpos

theorem toShort_succ (h0 : 0 ≤ v) (hlt : v < 2 ^ 15) (hne : toShort (v + 1) ≠ -2 ^ 15) :
    toShort (v + 1) = v + 1 ∧ v + 1 < 2 ^ 15 := by
  unfold toShort at hne ⊢
  omega

theorem toShort_pred (h0 : 0 < v) (hlt : v < 2 ^ 15) : toShort (v - 1) = v - 1 := by
  unfold toShort
  omega

omit [DecidableEq T] [Fintype T] in
theorem Fit.nlink_nonneg (hf : Fit g x s) (hn : (s.tree.inode n).type ≠ .none) : 0 ≤ (s.tree.inode n).nlink := by
  have := hf.shape.nlink hn
  omega

omit [DecidableEq T] [Fintype T] in
/-- An inode that is not a directory is truncated, or only its blocks change. -/
theorem Fit.setBlocks (hf : Fit g x s) (addrs : Fin (NDIRECT + 1) → ℕ)
    (hsize : size = (s.tree.inode n).size ∨ (s.tree.inode n).type ≠ .none ∧ (s.tree.inode n).type ≠ .dir) :
    Fit g x { s with tree := s.tree.setInode n { s.tree.inode n with size := size, addrs := addrs } } := by
  have hinode : ∀ m, ((s.tree.setInode n { s.tree.inode n with size := size, addrs := addrs }).inode m).type =
      (s.tree.inode m).type ∧ ((s.tree.setInode n { s.tree.inode n with size := size, addrs := addrs }).inode m).nlink =
      (s.tree.inode m).nlink := fun m => ⟨update_keeps (g := Dinode.type) (by rfl) m, update_keeps (g := Dinode.nlink) (by rfl) m⟩
  refine ⟨hf.toHeld.congr rfl hinode rfl rfl, ?_⟩
  rcases hsize with hsize | ⟨hne, hnd⟩
  · exact hf.shape.congr rfl fun m => ⟨(hinode m).1, (hinode m).2, update_keeps (g := Dinode.size) hsize m⟩
  · have h := hf.shape.setExcess (r := x n) (e := { s.tree.inode n with size := size, addrs := addrs }) (f := s.tree.ents n) hne hnd
      rfl rfl
    rw [update_eq_self, update_eq_self] at h
    exact h

theorem Runs.itrunc (hf : Fit g x s)
    (hn : (s.tree.inode n).type ≠ .none ∧ (s.tree.inode n).type ≠ .dir)
    (hQ : ∀ s', Fit g x s' → Q () s') : Runs g t (Files.itrunc n) Q s :=
  .bind (.tree fun _ _ => ⟨_, rfl, .iupdate (hQ _ (hf.setBlocks _ (.inr hn)))⟩)

end Changes

/-! ## `sys_link` -/

section Link

variable {g : Setup} {t : T} {s : State T} {n d : ℕ} {name : Name}

omit [DecidableEq T] [Fintype T] in
theorem update_zero_self : update (update (0 : ℕ → ℕ) n 1) n 0 = 0 := by
  rw [update_idem]
  exact update_eq_self n 0

/-- The error path of `sys_link` takes the link back. -/
theorem Runs.linkBad (hf : Fit g (update 0 n 1) s) :
    Runs g t (Files.linkBad n) (fun _ => Fit g 0) s := by
  obtain ⟨hne, hnd⟩ := hf.shape.excess (n := n) (by simp)
  refine .bind (.ilock hf.read (fun _ => hne) fun _ href => .bind (.fields (.bind (.assign fun _ => .bind (.iupdate ?_)))))
  obtain ⟨hf1, -⟩ := hf.lockValid hne
  have hnl : (s.tree.inode n).nlink = s.tree.links g.ninodes n + 1 := by simpa using hf.shape.nlink hne
  have hshort := hf.short n
  have hpred : toShort ((s.tree.inode n).nlink - 1) = (s.tree.inode n).nlink - 1 := toShort_pred (by omega) hshort
  have hshape := hf1.shape.setNlink (r := 0) (v := toShort ((s.tree.inode n).nlink - 1)) hne hnd
    (by rw [hpred]; simp [Tree.setLock, Tree.setValid])
  rw [update_zero_self] at hshape
  have hlt : toShort ((s.tree.inode n).nlink - 1) < 2 ^ 15 := by omega
  have hf2 := hf1.toHeld.setNlink hlt (.inr ⟨⟨href, by simp [Tree.setValid]⟩, fun _ hdir => absurd hdir hnd⟩)
  exact .iunlockput ⟨hf2, hshape⟩ fun _ hf3 _ => hf3

omit [DecidableEq T] in
/-- A directory in which an entry may be made is live. -/
theorem live_of_guard (hf : Fit g x s) (hd : Found g s d)
    (hdir : (s.tree.inode d).type = .dir) (hg : guard g.strict s (.putDirent d k de) = true) (hde : de.inum ≠ 0) : s.tree.Live d := by
  by_cases hs : g.strict = true
  · exact Found.live hf hd hs hdir
  · simp only [guard, decide_eq_true_eq, hs, hde, false_or] at hg
    exact ⟨hdir, by simpa using hg⟩

omit [DecidableEq T] in
/-- The entry for which an inode that is no directory has one link too many. -/
theorem Fit.linkEntry (hf : Fit g (update 0 n 1) s) (addrs : Fin (NDIRECT + 1) → ℕ) (hd : Found g s d)
    (hdir : (s.tree.inode d).type = .dir)
    (hfresh : ∀ k < s.tree.entries d, (s.tree.ents d k).inum ≠ 0 → (s.tree.ents d k).name ≠ name) (hg : guard g.strict s (.putDirent d k ⟨name, n⟩) = true) (hslot : Slot s.tree d k size)
    (hold : k < s.tree.entries d → (s.tree.ents d k).inum = 0) :
    Fit g 0 { s with tree := s.tree.setEntry d k size addrs ⟨name, n⟩ } := by
  obtain ⟨hne, hnd⟩ := hf.shape.excess (n := n) (by simp)
  have hn0 : n ≠ 0 := (hf.shape.alloc hne).1.ne'
  have hl := live_of_guard hf hd hdir hg hn0
  have hname := hf.shape.fresh_name hl hfresh
  refine ⟨hf.toHeld.setEntry, hf.shape.setEntry hl hslot (hf.shape.two_le hl hold) (fun hk h => h.2.1 (hold hk))
    (fun _ => ⟨hname.1, hname.2, hnd⟩) (fun m hm => ?_) fun h => absurd rfl h⟩
  have hover : overwritten s.tree d k m = 0 := by
    unfold overwritten Dirent.names
    split_ifs with hk h
    · exact absurd (h.1.symm.trans (hold hk)) hm
    · rfl
    · rfl
  rw [hover]
  by_cases hmn : m = n
  · simp [Dirent.names, hmn, hname.1]
  · simp [Dirent.names, Ne.symm hmn, update_of_ne hmn]

theorem Runs.sysLink {old new : Path} (hnin : g.ninodes ≤ 2 ^ 16) (hf : Fit g 0 s) :
    Runs g t (Files.sysLink old new) (fun _ => Fit g 0) s := by
  refine .bind (.namei hf (fun s1 hf1 _ => .pure hf1) fun s1 n hf1 _ hn => ?_)
  refine .bind (.ilock hf1.read (fun hs => (hn hs).1) fun hne href => .bind (.fields ?_))
  obtain ⟨hf2, -⟩ := hf1.lockValid hne
  by_cases hnd : (s1.tree.inode n).type = .dir
  · simp only [Tree.setLock, Tree.setValid, hnd, if_true]
    exact .iunlockput hf2 fun _ hf3 _ => hf3
  simp only [Tree.setLock, Tree.setValid, hnd, if_false]
  refine .bind (.assign fun hg => .bind (.iupdate (.bind (.iunlock ?_))))
  obtain ⟨hsucc, hlt⟩ := toShort_succ (hf1.nlink_nonneg hne) (hf1.short n) (by simp only [guard, decide_eq_true_eq] at hg; exact hg.1)
  have hshape := hf2.shape.setNlink (r := 1) (v := toShort ((s1.tree.inode n).nlink + 1)) hne hnd
    (by rw [hsucc]; simp [Tree.setLock, Tree.setValid])
  have hpos := hf1.nlink_nonneg hne
  have hf3 := hf2.toHeld.setNlink (n := n) (v := toShort ((s1.tree.inode n).nlink + 1)) (by rw [hsucc]; exact hlt) (.inl (by omega))
  obtain ⟨hf4, -⟩ := Fit.setLock ⟨hf3, hshape⟩ (n := n) (b := false)
  refine .bind (.nameiparent hf4 (fun _ hf5 _ => .linkBad hf5) fun s5 d name hf5 _ hd hdir => ?_)
  refine .bind (.ilock hf5.read (fun hs => (hd hs).1) fun hdne _ => .bind (.inum ?_))
  obtain ⟨hf6, hk6⟩ := hf5.lockValid hdne
  have hinum : n % 2 ^ 16 = n := by
    have := hf1.shape.alloc hne
    exact Nat.mod_eq_of_lt (by omega)
  have hbad : ∀ s', Fit g (update 0 n 1) s' → Runs g t
      (do Files.iunlockput d; Files.linkBad n) (fun _ => Fit g 0) s' :=
    fun s' hf' => .bind (.iunlockput hf' fun _ hf'' _ => .linkBad hf'')
  refine .bind (.dirlink (hf6.shape.size hdir) (fun _ k hk hne' hname => ?_) (hbad _ hf6) (fun addrs => hbad _ (hf6.setBlocks addrs (.inl rfl)))
    fun k size addrs hfresh hg hslot hold => ?_)
  · obtain ⟨hf7, -⟩ := hf6.iget (n := (s5.tree.ents d k).inum)
    exact .iput hf7 fun s8 hf8 _ => hbad s8 hf8
  · rw [hinum] at hg ⊢
    have hf7 := hf6.linkEntry addrs (hd.keeps hk6) hdir hfresh hg hslot hold
    exact .bind (.iunlockput hf7 fun _ hf8 _ => .iput hf8 fun _ hf9 _ => hf9)

end Link

/-! ## `sys_unlink` -/

section Unlink

variable {g : Setup} {t : T} {s : State T} {n d k : ℕ} {name : Name}

/-- The entry of a directory that can be removed is overwritten by zeroes. -/
theorem Runs.clearEntry {Q : Bool → State T → Prop} (hf : Fit g x s) (hl : s.tree.Live d)
    (hk : k < s.tree.entries d) (hpanic : Q false s)
    (hQ : Q true { s with tree := s.tree.setEntry d k (s.tree.inode d).size (s.tree.inode d).addrs ⟨[], 0⟩ }) :
    Runs g t (Files.writeDirent d k ⟨[], 0⟩) Q s := by
  refine .writeDirent (hf.shape.size hl.1) hk.le (fun h => absurd hk (by omega)) (fun h => absurd hk (by omega)) (fun _ _ => hpanic)
    fun _ size addrs hslot haddrs => ?_
  obtain ⟨-, rfl⟩ | ⟨h, -⟩ := hslot
  · rw [haddrs hk]
    exact hQ
  · omega

/-- `iunlockput` of a directory that has a link. -/
theorem Runs.iunlockput_of_nlink (hn : (s.tree.inode n).nlink ≠ 0)
    (hQ : Q () { s with tree := (s.tree.setLock n false).setRef n (s.tree.ref n - 1) }) :
    Runs g t (Files.iunlockput n) Q s := .bind (.iunlock (.iput_of_nlink hn hQ))

omit [DecidableEq T] [Fintype T] in
theorem Fit.unlockDrop (hf : Fit g x s) (hn : (s.tree.inode n).nlink ≠ 0) :
    Fit g x { s with tree := (s.tree.setLock n false).setRef n (s.tree.ref n - 1) } :=
  ((hf.setLock (n := n) (b := false)).1.drop fun h => hn h.2.2).1

/-- An inode that is no directory loses an entry and a link. -/
theorem Runs.unlinkEntry_file (hf : Fit g 0 s) (hl : s.tree.Live d) (hk : k < s.tree.entries d) (h2 : 2 ≤ k)
    (hn : (s.tree.ents d k).inum = n) (hn0 : n ≠ 0) (hheld : 0 < s.tree.ref n ∧ s.tree.valid n = true)
    (hnd : (s.tree.inode n).type ≠ .dir) :
    Runs g t (Files.unlinkEntry d n k (s.tree.inode n)) (fun _ => Fit g 0) s := by
  have hname := (hf.shape.named hl h2 hk (by rw [hn]; exact hn0)).1
  have hne := hf.read hheld.2
  have hdn : n ≠ d := by
    rintro rfl
    exact hnd hl.1
  refine .bind (.clearEntry hf hl hk (.panic nofun) ?_)
  -- the inode has a link too many until its count is lowered
  have hshape : Shape g.ninodes (update 0 n 1) (s.tree.setEntry d k (s.tree.inode d).size (s.tree.inode d).addrs ⟨[], 0⟩) := by
    refine hf.shape.setEntry hl (.inl ⟨hk, rfl⟩) h2 (fun _ h => hnd (hn ▸ h.2.2)) (fun h => absurd rfl h) (fun m hm => ?_)
      fun {m} hm => ?_
    · by_cases hmn : m = n
      · simp [overwritten, Dirent.names, hk, hn, hname, hmn, hn0.symm]
      · simp [overwritten, Dirent.names, hn, Ne.symm hmn, hmn, hm.symm]
    · by_cases hmn : m = n
      · rw [hmn]
        exact ⟨hne, hnd⟩
      · rw [update_of_ne hmn] at hm
        exact absurd rfl hm
  have hf1 : Fit g (update 0 n 1)
      { s with tree := s.tree.setEntry d k (s.tree.inode d).size (s.tree.inode d).addrs ⟨[], 0⟩ } := ⟨hf.toHeld.setEntry, hshape⟩
  have hdl : ((s.tree.setEntry d k (s.tree.inode d).size (s.tree.inode d).addrs ⟨[], 0⟩).inode d).nlink ≠ 0 := by
    rw [setEntry_nlink]
    exact hl.2.ne'
  have hf2 := hf1.unlockDrop hdl
  simp only [hnd, if_false]
  refine .bind (.iunlockput_of_nlink hdl (.bind (.fields (.bind (.assign fun _ => .bind (.iupdate ?_))))))
  have hsame : (s.tree.setEntry d k (s.tree.inode d).size (s.tree.inode d).addrs ⟨[], 0⟩).inode n = s.tree.inode n :=
    update_of_ne hdn _ _
  have hnl := hf2.shape.nlink (n := n) (by simpa [Tree.setLock, Tree.setRef, hsame] using hne)
  simp only [Tree.setLock, Tree.setRef, hsame, update_self] at hnl
  have hpred : toShort ((s.tree.inode n).nlink - 1) = (s.tree.inode n).nlink - 1 := toShort_pred (by omega) (hf.short n)
  have hshort := hf.short n
  have hshape3 := hf2.shape.setNlink (n := n) (r := 0) (v := toShort ((s.tree.inode n).nlink - 1))
    (by simpa [Tree.setLock, Tree.setRef, hsame] using hne) (by simpa [Tree.setLock, Tree.setRef, hsame] using hnd)
    (by rw [hpred]; simp [Tree.setLock, Tree.setRef, hsame])
  rw [update_zero_self] at hshape3
  have hf3 := hf2.toHeld.setNlink (n := n) (v := toShort ((s.tree.inode n).nlink - 1)) (by omega)
    (.inr ⟨by simpa [Tree.setLock, Tree.setRef, Tree.setEntry, update_of_ne hdn] using hheld,
      fun _ h => absurd (by simpa [Tree.setLock, Tree.setRef, hsame] using h) hnd⟩)
  refine .iunlockput (x := 0) ?_ fun _ hf4 _ => hf4
  have hend : Fit g 0 _ := ⟨hf3, hshape3⟩
  simpa [Tree.setNlink, Tree.setLock, Tree.setRef, hsame] using hend

/-- An empty directory loses its name. -/
theorem Runs.unlinkEntry_dir (hf : Fit g 0 s) (hl : s.tree.Live d) (hk : k < s.tree.entries d) (h2 : 2 ≤ k)
    (hn : (s.tree.ents d k).inum = n) (hn0 : n ≠ 0) (hheld : 0 < s.tree.ref n ∧ s.tree.valid n = true)
    (hdir : (s.tree.inode n).type = .dir) (hempty : ∀ j, 2 ≤ j → j < s.tree.entries n → (s.tree.ents n j).inum = 0) :
    Runs g t (Files.unlinkEntry d n k (s.tree.inode n)) (fun _ => Fit g 0) s := by
  have hsub : s.tree.IsSubdir d k := ⟨h2, by rw [hn]; exact hn0, by rw [hn]; exact hdir⟩
  obtain ⟨-, hone, hdn, -⟩ := hf.shape.of_empty hl hk hsub hn hempty
  obtain ⟨hshape, hpos⟩ := hf.shape.rmdir hl hk hsub hn hempty
  refine .bind (.clearEntry hf hl hk (.panic nofun) ?_)
  simp only [hdir, if_true]
  have hsize : (s.tree.setEntry d k (s.tree.inode d).size (s.tree.inode d).addrs ⟨[], 0⟩).inode d = s.tree.inode d := by
    simp [Tree.setEntry]
  have hpred : toShort ((s.tree.inode d).nlink - 1) = (s.tree.inode d).nlink - 1 := toShort_pred hl.2 (hf.short d)
  rw [Tree.rmdir, setNlink_nlink_of_ne hdn.symm, setNlink_nlink] at hpos
  have hshort := hf.short d
  refine .bind (.fields (.bind (.assign fun _ => .bind (.iupdate (.bind (.iunlockput_of_nlink ?_ ?_))))))
  · simp only [Tree.setInode, update_self, hsize, hpred]
    exact hpos.ne'
  refine .bind (.fields (.bind (.assign fun hg => .bind (.iupdate ?_))))
  have hsame : (update (s.tree.setEntry d k (s.tree.inode d).size (s.tree.inode d).addrs ⟨[], 0⟩).inode d
      { s.tree.inode d with nlink := (s.tree.inode d).nlink - 1 }) n = s.tree.inode n := by
    rw [update_of_ne hdn]
    exact update_of_ne hdn _ _
  simp only [Tree.setInode, Tree.setLock, Tree.setRef, hsize, hpred, hsame, hone] at hg ⊢
  have hheld1 : Held g { s with tree := s.tree.rmdir d k n } := by
    have h₁ : Held g { s with tree := s.tree.setEntry d k (s.tree.inode d).size (s.tree.inode d).addrs ⟨[], 0⟩ } :=
      hf.toHeld.setEntry
    have h₂ := h₁.setNlink (n := d) (by omega) (.inl hpos)
    refine h₂.setNlink (n := n) (by decide) (.inr ⟨hheld, fun hs _ t' ht' => ?_⟩)
    simp only [guard, decide_eq_true_eq] at hg
    exact hg.2 hs ⟨hdir, rfl, t', ht'⟩
  have hlive : (({ s with tree := s.tree.rmdir d k n } : State T).tree.inode d).nlink ≠ 0 := by
    simp only [Tree.rmdir]
    rw [setNlink_nlink_of_ne hdn.symm, setNlink_nlink]
    exact hpos.ne'
  refine .iunlockput (x := 0) ?_ fun _ hf4 _ => hf4
  have hend := Fit.unlockDrop (n := d) ⟨hheld1, hshape⟩ hlive
  have hzero : toShort 0 = 0 := rfl
  simpa [Tree.rmdir, Tree.setNlink, Tree.setInode, Tree.setLock, Tree.setRef, hsize, hsame, hzero] using hend

theorem Runs.isdirempty {Q : Bool → State T → Prop}
    (hempty : (∀ j, 2 ≤ j → j < s.tree.entries n → (s.tree.ents n j).inum = 0) → Q true s) (hfull : Q false s) :
    Runs g t (Files.isdirempty n) Q s := by
  refine .bind (.fields (.bind (.scan nofun (fun h => .pure (hempty fun j hj hlt => ?_)) fun _ _ _ _ => .pure hfull)))
  have hrounds : j < 2 + rounds (s.tree.inode n).size 2 := by
    have := lt_entries_iff.mp hlt
    simp only [rounds, sizeofDirent] at this ⊢
    omega
  simpa using h j hj hrounds

/-- `sys_unlink` with both inodes locked -/
theorem Runs.unlinkLocked (hf : Fit g 0 s) (hl : s.tree.Live d) (hk : k < s.tree.entries d) (h2 : 2 ≤ k)
    (hn : (s.tree.ents d k).inum = n) (hn0 : n ≠ 0) (hheld : 0 < s.tree.ref n ∧ s.tree.valid n = true) :
    Runs g t (do
      let i ← op (.fields n)
      if i.nlink < 1 then
        Files.panic .unlinkNlink
      else if i.type = .dir then
        if ← Files.isdirempty n then
          Files.unlinkEntry d n k i
        else do
          Files.iunlockput n
          Files.iunlockput d
      else
        Files.unlinkEntry d n k i) (fun _ => Fit g 0) s := by
  refine .bind (.fields ?_)
  split_ifs with hnl hdir
  · exact .panic (by rintro ⟨⟩)
  · refine .bind (.isdirempty (fun hempty => .unlinkEntry_dir hf hl hk h2 hn hn0 hheld hdir hempty) ?_)
    exact .bind (.iunlockput hf fun _ hf1 _ => .iunlockput hf1 fun _ hf2 _ => hf2)
  · exact .unlinkEntry_file hf hl hk h2 hn hn0 hheld hdir

theorem Runs.sysUnlink (hf : Fit g 0 s) :
    Runs g t (Files.sysUnlink path) (fun _ => Fit g 0) s := by
  refine .bind (.nameiparent hf (fun s1 hf1 _ => .pure hf1) fun s1 d name hf1 _ hd hdir => ?_)
  refine .bind (.ilock hf1.read (fun hs => (hd hs).1) fun hdne _ => ?_)
  obtain ⟨hf2, hk2⟩ := hf1.lockValid hdne
  split_ifs with hdots
  · exact .iunlockput hf2 fun _ hf3 _ => hf3
  refine .bind (.dirlookup (fun _ _ => .iunlockput hf2 fun _ hf3 _ => hf3) fun _ k hk hn0 hname => ?_)
  have hl : s1.tree.Live d := by
    by_contra hdead
    have := hf2.shape.dead hdir hdead hk hn0
    rw [hname] at this
    exact hdots this
  have h2 : 2 ≤ k := by
    obtain ⟨-, h0, h1, -⟩ := hf2.shape.dots (d := d) hl
    by_contra hlt
    by_cases hk0 : k = 0
    · rw [hk0, h0] at hname
      exact hdots (.inl hname.symm)
    · rw [show k = 1 by omega, h1] at hname
      exact hdots (.inr hname.symm)
  obtain ⟨hf3, hk3⟩ := hf2.iget (n := (s1.tree.ents d k).inum)
  have hfound := (hf2.found (hd.keeps hk2) hdir hk hn0).keeps hk3
  refine .bind (.ilock hf3.read (fun hs => (hfound hs).1) fun hne href => ?_)
  obtain ⟨hf4, hk4⟩ := hf3.lockValid hne
  have hkeeps := (hk2.trans hk3).trans hk4
  exact .unlinkLocked hf4 (hkeeps.live hl) (lt_of_lt_of_eq hk (hkeeps.entries hl).symm) h2
    (congrArg (fun ents => (ents d k).inum) hkeeps.ents) hn0 ⟨href, by simp [Tree.setValid]⟩

end Unlink

/-! ## `create` -/

section Create

variable {g : Setup} {t : T} {s : State T} {n d : ℕ} {name : Name} {type : FileType}

theorem Runs.ialloc {Q : Option ℕ → State T → Prop} (hnone : Q none s)
    (hsome : ∀ n, 0 < n ∧ n < g.ninodes → (s.tree.inode n).type = .none →
      Q (some n) { s with tree := (s.tree.setInode n { Dinode.zero with type := type }).iget n }) :
    Runs g t (Files.ialloc g.ninodes type) Q s := by
  have hloop : ∀ l : List ℕ, (∀ n ∈ l, 0 < n ∧ n < g.ninodes) → Runs g t (Files.iallocLoop type l) Q s := by
    intro l
    induction l with
    | nil => exact fun _ => .pure hnone
    | cons n rest ih =>
      intro hl
      refine .bind (.tree fun _ _ => ?_)
      by_cases hn : (s.tree.inode n).type = .none
      · exact ⟨_, if_pos hn, .bind (.iget (.pure (hsome n (hl n List.mem_cons_self) hn)))⟩
      · exact ⟨_, if_neg hn, ih fun m hm => hl m (List.mem_cons_of_mem _ hm)⟩
  refine hloop _ fun n hn => ?_
  rw [List.mem_range'_1] at hn
  omega

/-- A new inode `n`, named `name` in `d` once all is done: it has its link already, and without it the tree is in shape. -/
structure Making (g : Setup) (d n : ℕ) (name : Name) (type : FileType) (s : State T) : Prop where
  fit : Fit g 0 { s with tree := s.tree.setNlink n 0 }
  kind : (s.tree.inode n).type = type
  new : type ≠ .none
  one : (s.tree.inode n).nlink = 1
  ne : d ≠ n
  isDir : (s.tree.inode d).type = .dir
  found : Found g s d
  fresh : ∀ k < s.tree.entries d, (s.tree.ents d k).inum ≠ 0 → (s.tree.ents d k).name ≠ name

theorem Runs.createFail {Q : Option ℕ → State T → Prop} (hm : Making g d n name type s)
    (hQ : ∀ s', Fit g 0 s' → Q none s') : Runs g t (Files.createFail d n) Q s :=
  .bind (.fields (.bind (.assign fun _ => .bind (.iupdate (.bind (.iunlockput hm.fit fun _ hf1 _ =>
    .bind (.iunlockput hf1 fun s2 hf2 _ => .pure (hQ s2 hf2))))))))

namespace Making

omit [DecidableEq T] [Fintype T]

variable {m k size : ℕ} {addrs : Fin (NDIRECT + 1) → ℕ} {de : Dirent}

theorem lt (hm : Making g d n name type s) : n < g.ninodes := by
  refine (hm.fit.shape.alloc (n := n) ?_).2
  rw [setNlink_type, hm.kind]
  exact hm.new

/-- A block is added to one of the two. -/
theorem setAddrs (hm : Making g d n name type s) :
    Making g d n name type { s with tree := s.tree.setInode m { s.tree.inode m with addrs := addrs } } := by
  have hinode : ∀ e, (update s.tree.inode m { s.tree.inode m with addrs := addrs } e).type = (s.tree.inode e).type ∧
      (update s.tree.inode m { s.tree.inode m with addrs := addrs } e).nlink = (s.tree.inode e).nlink ∧
      (update s.tree.inode m { s.tree.inode m with addrs := addrs } e).size = (s.tree.inode e).size := fun e =>
    ⟨update_keeps (g := Dinode.type) (by rfl) e, update_keeps (g := Dinode.nlink) (by rfl) e, update_keeps (g := Dinode.size) (by rfl) e⟩
  refine ⟨?_, (hinode n).1.trans hm.kind, hm.new, (hinode n).2.1.trans hm.one, hm.ne, (hinode d).1.trans hm.isDir, fun hs => ?_, ?_⟩
  · have h := hm.fit.setBlocks (n := m) addrs (.inl rfl)
    refine Eq.mp (congrArg _ ?_) h
    congr 1
    by_cases hmn : m = n
    · simp [Tree.setInode, Tree.setNlink, hmn]
    · simp [Tree.setInode, Tree.setNlink, update_of_ne hmn, update_of_ne (Ne.symm hmn), update_comm hmn]
  · show (update s.tree.inode m _ d).type ≠ .none ∧ (update s.tree.inode m _ d).nlink ≠ 0
    rw [(hinode d).1, (hinode d).2.1]
    exact hm.found hs
  · have hent : (s.tree.setInode m { s.tree.inode m with addrs := addrs }).entries d = s.tree.entries d :=
      congrArg (· / sizeofDirent) (hinode d).2.2
    show ∀ k < (s.tree.setInode m { s.tree.inode m with addrs := addrs }).entries d, _
    rw [hent]
    exact hm.fresh

/-- The new directory gets its entry `.` or `..`. -/
theorem setDots (hm : Making g d n name .dir s) (addrs : Fin (NDIRECT + 1) → ℕ) (hk : Slot s.tree n k size) (hde : de.name = dot ∨ de.name = dotdot) :
    Making g d n name .dir { s with tree := s.tree.setEntry n k size addrs de } := by
  have hinode : (s.tree.setEntry n k size addrs de).inode d = s.tree.inode d := update_of_ne hm.ne _ _
  have hents : (s.tree.setEntry n k size addrs de).ents d = s.tree.ents d := update_of_ne hm.ne _ _
  refine ⟨⟨?_, ?_⟩, ?_, hm.new, setEntry_nlink.trans hm.one, hm.ne, ?_, fun hs => ?_, ?_⟩
  · rw [setNlink_setEntry]
    exact hm.fit.toHeld.setEntry
  · rw [setNlink_setEntry]
    refine hm.fit.shape.setDots (by rw [setNlink_type]; exact hm.kind) setNlink_nlink ?_ hde
    unfold Slot
    rw [setNlink_entries, setNlink_size]
    exact hk
  · simpa [Tree.setEntry] using hm.kind
  · rw [hinode]
    exact hm.isDir
  · rw [hinode]
    exact hm.found hs
  · unfold Tree.entries
    rw [hinode, hents]
    exact hm.fresh

/-- The directory in which the entry is made is live. -/
theorem live [Fintype T] (hm : Making g d n name type s)
    (hg : guard g.strict s (.putDirent d k ⟨name, n⟩) = true) : (s.tree.setNlink n 0).Live d := by
  have hsame : (s.tree.setNlink n 0).inode d = s.tree.inode d := update_of_ne hm.ne _ _
  have hn0 : n ≠ 0 := (hm.fit.shape.alloc (n := n) (by rw [setNlink_type, hm.kind]; exact hm.new)).1.ne'
  have hg' : guard g.strict { s with tree := s.tree.setNlink n 0 } (.putDirent d k ⟨name, n⟩) = true := by
    simpa [guard, hsame] using hg
  refine live_of_guard hm.fit (fun hs => ?_) ?_ hg' hn0
  · rw [hsame]
    exact hm.found hs
  · rw [hsame]
    exact hm.isDir

/-- The entry of a file or device completes it. -/
theorem file [Fintype T] (hm : Making g d n name type s) (hnd : type ≠ .dir)
    (hg : guard g.strict s (.putDirent d k ⟨name, n⟩) = true) (hslot : Slot s.tree d k size)
    (hold : k < s.tree.entries d → (s.tree.ents d k).inum = 0) :
    Fit g 0 { s with tree := s.tree.setEntry d k size addrs ⟨name, n⟩ } := by
  have hself : (s.tree.setNlink n 0).setNlink n 1 = s.tree := setNlink_setNlink.trans (setNlink_eq_self hm.one)
  have hshape := hm.fit.shape.setNlink (n := n) (r := 1) (v := 1) (by rw [setNlink_type, hm.kind]; exact hm.new)
    (by rw [setNlink_type, hm.kind]; exact hnd) (by rw [setNlink_nlink]; rfl)
  have hheld := hm.fit.toHeld.setNlink (n := n) (v := 1) (by decide) (.inl (by decide))
  rw [hself] at hshape hheld
  exact Fit.linkEntry ⟨hheld, hshape⟩ addrs hm.found hm.isDir hm.fresh hg hslot hold

/-- The entry of a directory, and the link of the one above, complete it. -/
theorem dir [Fintype T] (hm : Making g d n name .dir s) (addrs : Fin (NDIRECT + 1) → ℕ)
    (hdots : s.tree.entries n = 2 ∧ s.tree.ents n 0 = ⟨dot, n⟩ ∧ s.tree.ents n 1 = ⟨dotdot, d⟩)
    (hg : guard g.strict s (.putDirent d k ⟨name, n⟩) = true) (hslot : Slot s.tree d k size)
    (hold : k < s.tree.entries d → (s.tree.ents d k).inum = 0) (hshort : (s.tree.inode d).nlink + 1 < 2 ^ 15) :
    Fit g 0
      { s with tree := (s.tree.setEntry d k size addrs ⟨name, n⟩).setNlink d ((s.tree.inode d).nlink + 1) } := by
  have hl := hm.live hg
  have hslot' : Slot (s.tree.setNlink n 0) d k size := by
    unfold Slot
    rw [setNlink_entries, setNlink_size]
    exact hslot
  have hname := hm.fit.shape.fresh_name hl (by rw [setNlink_entries]; exact hm.fresh)
  have h2 : 2 ≤ k := hm.fit.shape.two_le hl (by rw [setNlink_entries]; exact hold)
  have hshape : Shape g.ninodes 0 ((s.tree.setNlink n 0).mkdir d k size addrs name n) := hm.fit.shape.mkdir hl hslot' h2
    (by rw [setNlink_entries]; exact hold) (by rw [setNlink_type]; exact hm.kind) (fun h => absurd h.2 (by rw [setNlink_nlink]; exact lt_irrefl 0))
    (by rw [setNlink_entries]; exact hdots.1) hdots.2.1 hdots.2.2 hname
  have hsame : (s.tree.setNlink n 0).inode d = s.tree.inode d := update_of_ne hm.ne _ _
  have htree : (s.tree.setNlink n 0).mkdir d k size addrs name n =
      (s.tree.setEntry d k size addrs ⟨name, n⟩).setNlink d ((s.tree.inode d).nlink + 1) := by
    unfold Tree.mkdir
    rw [hsame, ← setNlink_setEntry, setNlink_setNlink, setNlink_eq_self (setEntry_nlink.trans hm.one)]
  have hheld := hm.fit.toHeld.setNlink (n := n) (v := 1) (by decide) (.inl (by decide))
  rw [setNlink_setNlink, setNlink_eq_self hm.one] at hheld
  have hpos : 0 < (s.tree.inode d).nlink := hsame ▸ hl.2
  rw [htree] at hshape
  exact ⟨hheld.setEntry.setNlink hshort (.inl (by omega)), hshape⟩

end Making

/-- `create` from the last `dirlink` on -/
theorem Runs.createLink {Q : Option ℕ → State T → Prop} (hnin : g.ninodes ≤ 2 ^ 16) (hm : Making g d n name type s)
    (hdots : type = .dir → s.tree.entries n = 2 ∧ s.tree.ents n 0 = ⟨dot, n⟩ ∧ s.tree.ents n 1 = ⟨dotdot, d⟩)
    (hnone : ∀ s', Fit g 0 s' → Q none s') (hsome : ∀ s', Fit g 0 s' → Q (some n) s') :
    Runs g t (Files.createLink d n name type) Q s := by
  have hinum : n % 2 ^ 16 = n := Nat.mod_eq_of_lt (lt_of_lt_of_le hm.lt hnin)
  have hsize : s.tree.entries d * sizeofDirent = (s.tree.inode d).size := by
    have h := hm.fit.shape.size (d := d) (by rw [setNlink_type]; exact hm.isDir)
    rwa [setNlink_entries, setNlink_size] at h
  refine .bind (.inum (.bind (.dirlink hsize (fun _ k hk hne hname => absurd hname (hm.fresh k hk hne)) (.createFail hm hnone)
    (fun addrs => .createFail hm.setAddrs hnone) fun k size addrs _ hg hslot hold => ?_)))
  rw [hinum] at hg ⊢
  rw [if_pos rfl]
  split_ifs with hdir
  · subst hdir
    refine .bind (.fields (.bind (.assign fun hg' => .bind (.iupdate (.bind ?_)))))
    have hl := hm.live hg
    have hpos : 0 ≤ (s.tree.inode d).nlink := by
      have := hl.2
      rw [setNlink_nlink_of_ne hm.ne] at this
      exact this.le
    have hlt : (s.tree.inode d).nlink < 2 ^ 15 := by
      have := hm.fit.short d
      rwa [setNlink_nlink_of_ne hm.ne] at this
    obtain ⟨hsucc, hshort⟩ := toShort_succ hpos hlt (by
      simp only [guard, decide_eq_true_eq, setEntry_nlink] at hg'
      exact hg'.1)
    have hf1 := hm.dir addrs (hdots rfl) hg hslot hold hshort
    have hnl : ((s.tree.setEntry d k size addrs ⟨name, n⟩).inode d).nlink = (s.tree.inode d).nlink := setEntry_nlink
    rw [← hsucc, ← hnl] at hf1
    exact .iunlockput hf1 fun s' hf' _ => .pure (hsome s' hf')
  · exact .bind (.iunlockput (hm.file hdir hg hslot hold) fun s' hf' _ => .pure (hsome s' hf'))

/-- The entries `.` and `..` of a new directory -/
theorem Runs.linkDots {Q : Bool → State T → Prop} (hnin : g.ninodes ≤ 2 ^ 16) (hm : Making g d n name .dir s)
    (hempty : (s.tree.inode n).size = 0) (hfalse : ∀ s', Making g d n name .dir s' → Q false s')
    (htrue : ∀ s', Making g d n name .dir s' →
      s'.tree.entries n = 2 ∧ s'.tree.ents n 0 = ⟨dot, n⟩ ∧ s'.tree.ents n 1 = ⟨dotdot, d⟩ → Q true s') :
    Runs g t (Files.linkDots d n) Q s := by
  have hn : n % 2 ^ 16 = n := Nat.mod_eq_of_lt (lt_of_lt_of_le hm.lt hnin)
  have hd : d % 2 ^ 16 = d := by
    have := (hm.fit.shape.alloc (n := d) (by rw [setNlink_type, hm.isDir]; exact nofun)).2
    exact Nat.mod_eq_of_lt (lt_of_lt_of_le this hnin)
  have hn0 : n ≠ 0 := (hm.fit.shape.alloc (n := n) (by rw [setNlink_type, hm.kind]; exact hm.new)).1.ne'
  have hzero : s.tree.entries n = 0 := by
    rw [Tree.entries, hempty]
    exact Nat.zero_div _
  refine .bind (.inum (.bind (.dirlink (by rw [hzero, hempty]; rfl) (fun _ k hk => absurd hk (by omega)) (.pure (hfalse s hm))
    (fun addrs => .pure (hfalse _ hm.setAddrs)) fun k size addrs _ _ hslot _ => .bind (.inum ?_))))
  -- the first entry is at the beginning
  obtain ⟨hlt, -⟩ | ⟨hk, hsz⟩ := id hslot
  · omega
  have hm1 : Making g d n name .dir { s with tree := s.tree.setEntry n k size addrs ⟨dot, n⟩ } :=
    hm.setDots addrs hslot (.inl rfl)
  rw [hn]
  rw [hzero] at hk
  rw [hempty] at hsz
  subst hk hsz
  have hone : (s.tree.setEntry n 0 (0 + sizeofDirent) addrs ⟨dot, n⟩).entries n = 1 := by
    simp [Tree.entries, Tree.setEntry, sizeofDirent]
  have hdot : (s.tree.setEntry n 0 (0 + sizeofDirent) addrs ⟨dot, n⟩).ents n 0 = ⟨dot, n⟩ := by
    simp [Tree.setEntry]
  refine .dirlink (by rw [hone]; simp [Tree.setEntry]) (fun _ k hk _ hname => ?_) (hfalse _ hm1)
    (fun addrs => hfalse _ hm1.setAddrs) fun k size addrs' _ _ hslot' hold => ?_
  · have hk0 : k = 0 := Nat.lt_one_iff.mp (lt_of_lt_of_eq hk hone)
    rw [hk0, hdot] at hname
    cases hname
  · -- and the second after it
    obtain ⟨hlt, -⟩ | ⟨hk, hsz⟩ := id hslot'
    · have hk0 : k = 0 := Nat.lt_one_iff.mp (lt_of_lt_of_eq hlt hone)
      have := hold hlt
      rw [hk0, hdot] at this
      exact absurd this hn0
    · have hk1 : k = 1 := hk.trans hone
      rw [hd]
      refine htrue _ (hm1.setDots _ hslot' (.inr rfl)) ⟨?_, ?_, ?_⟩
      · simp [Tree.entries, Tree.setEntry, sizeofDirent, hsz]
      · simp [Tree.setEntry, hk1]
      · simp [Tree.setEntry, hk1]

omit [DecidableEq T] [Fintype T] in
theorem iget_setInode {s : Tree} : (s.setInode n e).iget m = (s.iget m).setInode n e := by
  unfold Tree.iget
  split_ifs with h h' h'
  · rfl
  · exact absurd h h'
  · exact absurd h' h
  · rfl

omit [DecidableEq T] [Fintype T] in
theorem iget_ref {s : Tree} : (s.iget n).ref m = if m = n then s.ref n + 1 else s.ref m := by
  unfold Tree.iget
  by_cases hm : m = n
  · rw [if_pos hm, hm]
    split_ifs with h
    · simp [Tree.setRef, Tree.setValid, h]
    · simp [Tree.setRef]
  · rw [if_neg hm]
    split_ifs with h
    · simp [Tree.setRef, Tree.setValid, update_of_ne hm]
    · simp [Tree.setRef, update_of_ne hm]

omit [DecidableEq T] [Fintype T] in
theorem iget_of_ne {s : Tree} (hm : m ≠ n) : (s.iget n).valid m = s.valid m := by
  unfold Tree.iget
  split_ifs with h
  · simp [Tree.setRef, Tree.setValid, update_of_ne hm]
  · rfl

omit [DecidableEq T] [Fintype T] in
@[simp] theorem iget_inode {s : Tree} : (s.iget n).inode = s.inode := by
  unfold Tree.iget
  split_ifs <;> rfl

omit [DecidableEq T] [Fintype T] in
@[simp] theorem iget_ents {s : Tree} : (s.iget n).ents = s.ents := by
  unfold Tree.iget
  split_ifs <;> rfl

omit [DecidableEq T] [Fintype T] in
/-- A free inode is allocated and locked, without a link. -/
theorem Fit.claim (hf : Fit g 0 s) (hn : (s.tree.inode n).type = .none) (hlt : 0 < n ∧ n < g.ninodes)
    (he : e.type ≠ .none) (he0 : e.nlink = 0) (hsize : e.size = 0) :
    Fit g 0 { s with tree := (((s.tree.iget n).setLock n true).setValid n true).setInode n e } := by
  have hshape := hf.shape.allocInode (n := n) (e := e) (f := s.tree.ents n) hn hlt he0 (fun _ => by rw [hsize]; rfl)
    fun k hk => absurd hk (by rw [hsize]; simp)
  rw [update_eq_self] at hshape
  refine ⟨⟨fun m => ?_, fun {m} hm hm0 => ?_, fun {m} hv => ?_, fun hs t' m hm => ?_⟩, hshape.congr ?_ fun m => ?_⟩
  · by_cases hmn : m = n
    · simp [Tree.setInode, hmn, he0]
    · simpa [Tree.setInode, Tree.setLock, Tree.setValid, update_of_ne hmn] using hf.short m
  · by_cases hmn : m = n
    · simp [Tree.setInode, Tree.setLock, Tree.setValid, iget_ref, hmn]
    · simp only [Tree.setInode, Tree.setLock, Tree.setValid, update_of_ne hmn, iget_inode] at hm hm0
      simpa [Tree.setInode, Tree.setLock, Tree.setValid, iget_ref, iget_of_ne hmn, hmn] using hf.held hm hm0
  · by_cases hmn : m = n
    · simpa [Tree.setInode, hmn] using he
    · simp only [Tree.setInode, Tree.setLock, Tree.setValid, update_of_ne hmn, iget_inode, iget_of_ne hmn] at hv ⊢
      exact hf.read hv
  · have hl := hf.cwd hs t' m hm
    have hmn : m ≠ n := by
      rintro rfl
      rw [Tree.Live, hn] at hl
      cases hl.1
    simpa [Tree.Live, Tree.setInode, Tree.setLock, Tree.setValid, update_of_ne hmn] using hl
  · simp [Tree.setInode, Tree.setLock, Tree.setValid]
  · simp [Tree.setInode, Tree.setLock, Tree.setValid]

/-- An inode as `create` leaves it. -/
def newInode (type : FileType) (major minor nlink : ℤ) : Dinode :=
  { Dinode.zero with type := type, major := major, minor := minor, nlink := nlink }

theorem Runs.createNew {Q : Option ℕ → State T → Prop} (hnin : g.ninodes ≤ 2 ^ 16) (htype : type ≠ .none)
    (hf : Fit g 0 s) (hd : Found g s d) (hdir : (s.tree.inode d).type = .dir)
    (hfresh : ∀ k < s.tree.entries d, (s.tree.ents d k).inum ≠ 0 → (s.tree.ents d k).name ≠ name)
    (hlt : 0 < n ∧ n < g.ninodes) (hn : (s.tree.inode n).type = .none) (hnone : ∀ s', Fit g 0 s' → Q none s')
    (hsome : ∀ s', Fit g 0 s' → Q (some n) s') :
    Runs g t (Files.createNew d n name type major minor) Q
      { s with tree := (s.tree.setInode n { Dinode.zero with type := type }).iget n } := by
  have hdn : d ≠ n := by
    rintro rfl
    rw [hdir] at hn
    cases hn
  have hkind : ((s.tree.setInode n { Dinode.zero with type := type }).iget n).inode n = { Dinode.zero with type := type } := by
    simp [Tree.setInode]
  refine .bind (.ilock (fun _ => by rw [hkind]; exact htype) (fun _ => by rw [hkind]; exact htype) fun _ _ => .bind (.fields
    (.bind (.assign fun _ => .bind (.iupdate ?_)))))
  have hm : Making g d n name type
      { s with tree := (((s.tree.iget n).setLock n true).setValid n true).setInode n (newInode type major minor 1) } := by
    refine ⟨?_, by simp [Tree.setInode, newInode], htype, by simp [Tree.setInode, newInode], hdn, ?_, fun hs => ?_, ?_⟩
    · have h := hf.claim (e := newInode type major minor 0) hn hlt htype rfl rfl
      simpa [Tree.setNlink, Tree.setInode, newInode] using h
    · simpa [Tree.setInode, Tree.setLock, Tree.setValid, update_of_ne hdn] using hdir
    · simpa [Tree.setInode, Tree.setLock, Tree.setValid, update_of_ne hdn] using hd hs
    · simpa [Tree.entries, Tree.setInode, Tree.setLock, Tree.setValid, update_of_ne hdn] using hfresh
  rw [iget_setInode]
  simp only [Tree.setInode, Tree.setLock, Tree.setValid, newInode, Dinode.zero, update_self, update_idem] at hm ⊢
  split_ifs with h
  · subst h
    refine .bind (.linkDots hnin hm (by simp) (fun s' hm' => .createFail hm' hnone) fun s' hm' hdots => ?_)
    exact .createLink hnin hm' (fun _ => hdots) hnone hsome
  · exact .createLink hnin hm (fun h' => absurd h' h) hnone hsome

theorem Runs.create {Q : Option ℕ → State T → Prop} (hnin : g.ninodes ≤ 2 ^ 16)
    (htype : type ≠ .none) (hf : Fit g 0 s) (hnone : ∀ s', Fit g 0 s' → Q none s')
    (hsome : ∀ s' n, Fit g 0 s' → Q (some n) s') :
    Runs g t (Files.create g.ninodes path type major minor) Q s := by
  refine .bind (.nameiparent hf (fun s1 hf1 _ => .pure (hnone s1 hf1)) fun s1 d name hf1 _ hd hdir => ?_)
  refine .bind (.ilock hf1.read (fun hs => (hd hs).1) fun hdne _ => ?_)
  obtain ⟨hf2, hk2⟩ := hf1.lockValid hdne
  refine .bind (.dirlookup (fun _ hfresh => ?_) fun _ k hk hn0 _ => ?_)
  · refine .bind (.ialloc ?_ fun n hlt hn => ?_)
    · exact .bind (.iunlockput hf2 fun s3 hf3 _ => .pure (hnone s3 hf3))
    · exact .createNew hnin htype hf2 (hd.keeps hk2) hdir hfresh hlt hn hnone fun s' => hsome s' n
  · obtain ⟨hf3, hk3⟩ := hf2.iget (n := (s1.tree.ents d k).inum)
    have hfound := (hf2.found (hd.keeps hk2) hdir hk hn0).keeps hk3
    refine .bind (.iunlockput hf3 fun s4 hf4 hk4 => .bind (.ilock hf4.read (fun hs => ((hfound.keeps hk4) hs).1) fun hne _ =>
      .bind (.fields ?_)))
    obtain ⟨hf5, -⟩ := hf4.lockValid hne
    split_ifs with h
    · exact .pure (hsome _ _ hf5)
    · exact .bind (.iunlockput hf5 fun s6 hf6 _ => .pure (hnone s6 hf6))

end Create

/-! ## The other calls -/

section Calls

variable {g : Setup} {t : T} {s : State T} {n : ℕ} {path : Path}

theorem Runs.openInode (hf : Fit g 0 s) :
    Runs g t (Files.openInode n omode) (fun _ => Fit g 0) s := by
  refine .bind (.fields ?_)
  split_ifs with hmajor
  · exact .iunlockput hf fun _ hf1 _ => hf1
  refine .bind (.quiet trivial hf fun r s1 hf1 h₁ => ?_)
  cases r with
  | none => exact .iunlockput hf1 fun _ hf2 _ => hf2
  | some f =>
    refine .bind (.fdalloc hf1 fun r s2 hf2 h₂ => ?_)
    cases r with
    | none => exact .bind (.fileclose hf2 fun _ hf3 => .iunlockput hf3 fun _ hf4 _ => hf4)
    | some _ =>
      refine .bind (.quiet trivial hf2 fun _ s3 hf3 h3 => ?_)
      have htree : s3.tree = s.tree := (h3.trans h₂).trans h₁
      split_ifs with htrunc
      · have hfile : (s3.tree.inode n).type = .file := by
          rw [htree]
          exact htrunc.2
        refine .bind (.itrunc hf3 (by rw [hfile]; decide) fun s4 hf4 => .iunlock (hf4.setLock).1)
      · exact .iunlock hf3.setLock.1

theorem Runs.sysOpen (hnin : g.ninodes ≤ 2 ^ 16) (hf : Fit g 0 s) :
    Runs g t (Files.sysOpen g.ninodes path omode) (fun _ => Fit g 0) s := by
  unfold Files.sysOpen
  split_ifs with hcreate
  · exact .bind (.create hnin (by rintro ⟨⟩) hf (fun _ hf1 => .pure hf1) fun _ _ hf1 => .openInode hf1)
  · refine .bind (.namei hf (fun _ hf1 _ => .pure hf1) fun s1 n hf1 _ hn => ?_)
    refine .bind (.ilock hf1.read (fun hs => (hn hs).1) fun hne _ => .bind (.fields ?_))
    obtain ⟨hf2, -⟩ := hf1.lockValid hne
    split_ifs with hdir
    · exact .iunlockput hf2 fun _ hf3 _ => hf3
    · exact .openInode hf2

theorem Runs.createPut {type : FileType} (hnin : g.ninodes ≤ 2 ^ 16) (htype : type ≠ .none)
    (hf : Fit g 0 s) : Runs g t (Files.createPut g.ninodes path type major minor) (fun _ => Fit g 0) s :=
  .bind (.create hnin htype hf (fun _ hf1 => .pure hf1) fun _ _ hf1 => .iunlockput hf1 fun _ hf2 _ => hf2)

theorem Runs.sysChdir (hf : Fit g 0 s) : Runs g t (Files.sysChdir path) (fun _ => Fit g 0) s := by
  refine .bind (.namei hf (fun _ hf1 _ => .pure hf1) fun s1 n hf1 _ hn => ?_)
  refine .bind (.ilock hf1.read (fun hs => (hn hs).1) fun hne _ => .bind (.fields ?_))
  obtain ⟨hf2, hk2⟩ := hf1.lockValid hne
  split_ifs with hdir
  · exact .iunlockput hf2 fun _ hf3 _ => hf3
  rw [ne_eq, not_not] at hdir
  obtain ⟨hf3, hk3⟩ := hf2.setLock (n := n) (b := false)
  refine .bind (.iunlock (.bind (.putCwd hf3 fun s4 hf4 hk4 => .setCwd (hf4.setCwd fun hs m hm => ?_))))
  cases hm
  exact hk4.live (Found.live hf3 (hn.keeps (hk2.trans hk3)) hs hdir)

theorem Runs.exec (hf : Fit g 0 s) : Runs g t (Files.exec path) (fun _ => Fit g 0) s := by
  refine .bind (.namei hf (fun _ hf1 _ => .pure hf1) fun s1 n hf1 _ hn => ?_)
  refine .bind (.ilock hf1.read (fun hs => (hn hs).1) fun hne _ => ?_)
  exact .iunlockput (hf1.lockValid hne).1 fun _ hf2 _ => hf2

/-- The calls that lock the inode of an open file -/
def Call.locksFile : Call → Bool
  | .read _ | .write .. | .fstat _ => true
  | _ => false

/-- Every other call keeps a tree in shape. -/
theorem Runs.call {call : Call} (hnin : g.ninodes ≤ 2 ^ 16) (hcall : call.locksFile = false) (hf : Fit g 0 s) :
    Runs g t (call.code g.ninodes) (fun _ => Fit g 0) s := by
  cases call with
  | dup fd => exact .sysDup hf
  | read fd | write fd n | fstat fd => cases hcall
  | close fd => exact .sysClose hf
  | link old new => exact .sysLink hnin hf
  | unlink path => exact .sysUnlink hf
  | «open» path omode => exact .sysOpen hnin hf
  | mkdir path | mknod path major minor => exact .createPut hnin nofun hf
  | chdir path => exact .sysChdir hf
  | exec path => exact .exec hf
  | pipe => exact .sysPipe hf
  | fork => exact .fork hf
  | exit => exact .exit hf

end Calls

end Xv6Mlfq.Files
