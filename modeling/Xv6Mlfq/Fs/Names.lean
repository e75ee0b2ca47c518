import Xv6Mlfq.Fs.Calls

/-!
# Xv6Mlfq.Fs.Names — link counts and names over whole histories

* `boot_fit`: the image of `mkfs` is in shape.
* `links_eq_nlink`: link counts are numbers of entries, as long as nothing is created in a directory that has been unlinked.
* `names_alloc`: names are those of allocated inodes, as long as no current directory is unlinked.
* `links_lost`, `names_dangling`: what happens otherwise.
-/

namespace Xv6Mlfq.Files

open Function Finset

/-! ## The image -/

section Image

variable {ninodes : ℕ} {names : List Name} {size : ℕ → ℕ} {n d k : ℕ}

theorem mkfs_live : (mkfs names size).Live d ↔ d = ROOTINO := by
  unfold Tree.Live mkfs
  dsimp only
  split_ifs with h1 h2
  · simp [h1]
  · simp [h1]
  · simp [h1, Dinode.zero]

theorem mkfs_type : ((mkfs names size).inode n).type ≠ .none ↔ 1 ≤ n ∧ n < names.length + 2 := by
  unfold mkfs
  dsimp only
  split_ifs with h1 h2
  · simp [h1, ROOTINO]
  · simp only [ne_eq, reduceCtorEq, not_false_eq_true, true_iff]
    omega
  · simp only [Dinode.zero, ne_eq, not_true_eq_false, false_iff, ROOTINO] at h1 ⊢
    omega

theorem mkfs_nlink : ((mkfs names size).inode n).nlink = if 1 ≤ n ∧ n < names.length + 2 then 1 else 0 := by
  unfold mkfs
  dsimp only
  split_ifs with h1 h2 h3 h4 h5
  · rfl
  · exact absurd ⟨h1.ge, by simp only [h1, ROOTINO]; omega⟩ h2
  · rfl
  · omega
  · simp only [ROOTINO] at h1
    omega
  · rfl

theorem rootEntry_inum : (rootEntry names k).inum = if k = 0 then 1 else if k < names.length + 2 then k else 0 := by
  match k with
  | 0 => rfl
  | 1 => simp [rootEntry, ROOTINO]
  | k + 2 =>
    by_cases hk : k < names.length
    · simp [rootEntry, hk]
    · simp [rootEntry, hk]

theorem rootEntry_name (hnames : ∀ name ∈ names, name ≠ dot ∧ name ≠ dotdot) (h2 : 2 ≤ k) :
    (rootEntry names k).name ≠ dot ∧ (rootEntry names k).name ≠ dotdot := by
  match k, h2 with
  | k + 2, _ =>
    by_cases hk : k < names.length
    · simpa [rootEntry, List.getElem?_eq_getElem hk] using hnames _ (List.getElem_mem hk)
    · simp [rootEntry, List.getElem?_eq_none (not_lt.mp hk), dot, dotdot]

/-- Entry `k` of the root directory names inode `k`, but for the first. -/
theorem rootEntry_names (hnames : ∀ name ∈ names, name ≠ dot ∧ name ≠ dotdot) (hn : n ≠ 0) :
    (rootEntry names k).names n = if k = n ∧ n < names.length + 2 then 1 else 0 := by
  unfold Dirent.names
  rw [rootEntry_inum]
  by_cases hk0 : k = 0
  · have hname : (rootEntry names k).name = dot := by rw [hk0]; rfl
    rw [if_neg fun h => h.2 hname, if_neg (by omega)]
  · have hname : (rootEntry names k).name ≠ dot := by
      by_cases hk1 : k = 1
      · rw [hk1]
        exact nofun
      · exact (rootEntry_name hnames (by omega)).1
    simp only [hk0, if_false, hname, ne_eq, not_false_eq_true, and_true]
    congr 1
    rw [eq_iff_iff]
    split_ifs <;> omega

theorem mkfs_entries : (mkfs names size).entries ROOTINO * sizeofDirent = ((mkfs names size).inode ROOTINO).size ∧
    names.length + 2 < (mkfs names size).entries ROOTINO := by
  simp only [Tree.entries, mkfs, if_true, rootSize, sizeofDirent, BSIZE]
  omega

theorem mkfs_links (hnames : ∀ name ∈ names, name ≠ dot ∧ name ≠ dotdot) (hlen : names.length + 2 ≤ ninodes) (hn : n ≠ 0) :
    (mkfs names size).links ninodes n = if 1 ≤ n ∧ n < names.length + 2 then 1 else 0 := by
  have hroot : ROOTINO ∈ range ninodes := mem_range.mpr (by simp only [ROOTINO]; omega)
  have hone : (mkfs names size).links ninodes n = (mkfs names size).weight ROOTINO n := by
    refine sum_eq_single_of_mem _ hroot fun d _ hd => if_neg fun hl => hd (mkfs_live.mp hl)
  have hlen' : names.length + 2 < (mkfs names size).entries ROOTINO := mkfs_entries.2
  rw [hone, Tree.weight, if_pos (mkfs_live.mpr rfl), Tree.row]
  have hent : ∀ k, ((mkfs names size).ents ROOTINO k).names n = if k = n ∧ n < names.length + 2 then 1 else 0 :=
    fun k => rootEntry_names hnames hn
  simp only [hent]
  by_cases hlt : n < names.length + 2
  · rw [if_pos ⟨by omega, hlt⟩, sum_eq_single_of_mem n (mem_range.mpr (by omega)) fun k _ hk => if_neg fun h => hk h.1,
      if_pos ⟨rfl, hlt⟩]
  · rw [if_neg fun h => hlt h.2]
    exact sum_eq_zero fun k _ => if_neg fun h => hlt h.2

theorem mkfs_dir (hd : ((mkfs names size).inode d).type = .dir) : d = ROOTINO := by
  unfold mkfs at hd
  dsimp only at hd
  split_ifs at hd with h1 h2
  · exact h1
  · cases hd

/-- The image that `mkfs` makes is in shape. -/
theorem mkfs_shape (hnames : ∀ name ∈ names, name ≠ dot ∧ name ≠ dotdot) (hlen : names.length + 2 ≤ ninodes) :
    Shape ninodes 0 (mkfs names size) := by
  have hsub : ∀ k, ¬ (mkfs names size).IsSubdir ROOTINO k := by
    rintro k ⟨h2, hne, hdir⟩
    have h1 := mkfs_dir hdir
    have hinum : (rootEntry names k).inum = ROOTINO := h1
    rw [rootEntry_inum] at hinum
    simp only [ROOTINO] at hinum
    split_ifs at hinum <;> omega
  refine
    { alloc := fun {n} hn => ?_
      nlink := fun {n} hn => ?_
      free := fun {n} h0 hn => ?_
      excess := fun h => absurd rfl h
      size := fun {d} hd => mkfs_dir hd ▸ mkfs_entries.1
      dots := fun {d} hl => ?_
      named := fun {d k} hl h2 _ _ => ?_
      dead := fun {d k} hd hl => absurd (mkfs_live.mpr (mkfs_dir hd)) hl
      below := fun {d} hl => ?_
      parent := fun {d k} hl _ h => absurd (mkfs_live.mp hl ▸ h) (hsub k)
      root := ⟨mkfs_live.mpr rfl, fun {d k} hl h2 _ => ?_⟩ }
  · have := mkfs_type.mp hn
    omega
  · have hpos := mkfs_type.mp hn
    rw [mkfs_links hnames hlen (by omega), mkfs_nlink, if_pos hpos, if_pos hpos]
    rfl
  · have hpos := mt mkfs_type.mpr (not_not.mpr hn)
    rw [mkfs_links hnames hlen (by omega), mkfs_nlink, if_neg hpos, if_neg hpos]
    exact ⟨rfl, rfl⟩
  · rw [mkfs_live.mp hl]
    have : names.length + 2 < (mkfs names size).entries ROOTINO := mkfs_entries.2
    exact ⟨by omega, rfl, rfl, nofun⟩
  · rw [mkfs_live.mp hl]
    exact rootEntry_name hnames h2
  · rw [mkfs_live.mp hl, mkfs_nlink, if_pos ⟨le_rfl, by simp only [ROOTINO]; omega⟩]
    have : (mkfs names size).subdirs ROOTINO = 0 := sum_eq_zero fun k _ => if_neg (hsub k)
    rw [this]
    rfl
  · rw [mkfs_live.mp hl]
    show (rootEntry names k).inum ≠ _
    rw [rootEntry_inum]
    simp only [ROOTINO]
    split_ifs <;> omega

end Image

variable {T : Type} [DecidableEq T] [Fintype T] {e : CallBy T} {t : T} {names : List Name} {size : ℕ → ℕ}
  {h : List (State T × CallBy T)} {s : State T} {n : ℕ}

section Runs

variable {strict : Bool} {t : T} {names : List Name} {size : ℕ → ℕ} {h : List (State T × CallBy T)} {s s' : State T}

omit [Fintype T] in
theorem boot_fit (hnames : ∀ name ∈ names, name ≠ dot ∧ name ≠ dotdot) (hlen : names.length + 2 ≤ NINODES) :
    Fit ⟨NINODES, strict⟩ 0 (boot names size t) := by
  refine Fit.iget (s := { boot names size t with tree := mkfs names size }) ⟨⟨fun n => ?_, fun {n} hn h0 => ?_, nofun, ?_⟩,
    mkfs_shape hnames hlen⟩ |>.1
  · rw [mkfs_nlink]
    split_ifs <;> decide
  · rw [mkfs_nlink, if_pos (mkfs_type.mp hn)] at h0
    cases h0
  · intro _ t' n hn
    simp only [boot] at hn
    split_ifs at hn with ht
    · cases hn
      exact mkfs_live.mpr rfl

/-- One call keeps the tree in shape; if `strict`, it does not end in `ilock: no type`. -/
theorem Fit.outcome (hf : Fit ⟨NINODES, strict⟩ 0 s) (he : e.call.locksFile = false) :
    Prog.Outcome (fun p => strict = true → p ≠ .ilockNoType) (fun _ => Fit ⟨NINODES, strict⟩ 0)
      (Files.outcome (guard strict) NINODES s e) := by
  unfold Files.outcome
  split_ifs
  · exact Prog.run_sound e.choices (Runs.call (show NINODES ≤ 2 ^ 16 by decide) he hf)
  · trivial

theorem Fit.step (hf : Fit ⟨NINODES, strict⟩ 0 s) (he : e.call.locksFile = false)
    (hs : Files.step (guard strict) NINODES s e = some s') : Fit ⟨NINODES, strict⟩ 0 s' := by
  have ho := hf.outcome he
  unfold Files.step at hs
  split at hs
  · rename_i x hx
    rw [hx] at ho
    cases hs
    exact ho
  · cases hs

/-- So do all calls. -/
theorem Fit.run (hnames : ∀ name ∈ names, name ≠ dot ∧ name ≠ dotdot) (hlen : names.length + 2 ≤ NINODES)
    (hp : Lts.Path (Files.step (guard strict) NINODES) (boot names size t) h s) (hcalls : ∀ x ∈ h, x.2.call.locksFile = false) :
    Fit ⟨NINODES, strict⟩ 0 s := by
  induction hp with
  | nil => exact boot_fit hnames hlen
  | @snoc h s s' e hp hs ih =>
    exact (ih fun x hx => hcalls x (List.mem_cons_of_mem _ hx)).step (hcalls (s, e) List.mem_cons_self) hs

end Runs

/-! ## Link counts -/

/-- **Link counts.**  As long as nothing is created in a directory without a link and no count is raised above 32767, an allocated
inode has as many links as there are entries other than `.` for it, in directories that have a link themselves; one without name and
reference has been freed, and one with a name has not. -/
theorem links_eq_nlink (hnames : ∀ name ∈ names, name ≠ dot ∧ name ≠ dotdot)
    (hlen : names.length + 2 ≤ NINODES)
    (hp : Lts.Path (step (guard false) NINODES) (boot names size t) h s) (hcalls : ∀ x ∈ h, x.2.call.locksFile = false)
    (hn : 0 < n) :
    ((s.tree.inode n).type ≠ .none → (s.tree.inode n).nlink = s.tree.links NINODES n) ∧
      (s.tree.links NINODES n = 0 → s.tree.ref n = 0 → (s.tree.inode n).type = .none) ∧
      (0 < s.tree.links NINODES n → (s.tree.inode n).type ≠ .none) := by
  have hf := Fit.run hnames hlen hp hcalls
  have hs : Shape NINODES 0 s.tree := hf.shape
  refine ⟨fun hne => (hs.nlink hne).trans (Int.add_zero _), fun h0 hr => ?_, fun hpos hnone => ?_⟩
  · by_contra hne
    have := (hf.held hne (by simpa [h0] using hs.nlink hne)).1
    omega
  · have := (hs.free hn hnone).2
    omega

/-- `mkdir d; open d/f; link d/f g; unlink d/f; unlink d`: the file is left with the name in the root directory. -/
def moving : List Call :=
  [.mkdir ⟨true, [[100]]⟩, .open ⟨true, [[100], [102]]⟩ (O_CREATE ||| O_RDWR), .link ⟨true, [[100], [102]]⟩ ⟨true, [[103]]⟩,
    .unlink ⟨true, [[100], [102]]⟩, .unlink ⟨true, [[100]]⟩, .close 0]

theorem links_eq_nlink_moving : ∃ (h : List (State Unit × CallBy Unit)) (s : State Unit),
    Lts.Path (step (guard false) NINODES) (boot [] (fun _ => 0) ()) h s ∧ s.tree.ref 3 = 0 ∧ (s.tree.inode 2).type = .none ∧
      (s.tree.inode 3).type = .file ∧ s.tree.links NINODES 3 = 1 ∧ (s.tree.inode 3).nlink = s.tree.links NINODES 3 := by
  have hrun : ∃ (h : List (State Unit × CallBy Unit)) (s : State Unit),
      Lts.Path (step (guard false) NINODES) (boot [] (fun _ => 0) ()) h s ∧ (∀ x ∈ h, x.2.call.locksFile = false) ∧
        s.tree.ref 3 = 0 ∧ (s.tree.inode 2).type = .none ∧ (s.tree.inode 3).type = .file ∧ s.tree.links NINODES 3 = 1 :=
    Lts.exists_path_of_replay _ (moving.map fun call => ⟨(), call, []⟩) (by decide +kernel)
  obtain ⟨h, s, hp, hcalls, href, hdir, hfile, hone⟩ := hrun
  refine ⟨h, s, hp, href, hdir, hfile, hone, ?_⟩
  exact (links_eq_nlink (by simp) (by decide) hp hcalls (by decide)).1 (by rw [hfile]; exact nofun)

/-- `mkdir d; chdir d; unlink ../d; open f`: a file in a directory that has been unlinked. -/
def orphaning : List Call :=
  [.mkdir ⟨true, [[100]]⟩, .chdir ⟨true, [[100]]⟩, .unlink ⟨false, [dotdot, [100]]⟩, .open ⟨false, [[102]]⟩ (O_CREATE ||| O_RDWR)]

/-- The file has a link, and no directory with a link names it. -/
theorem links_lost : ∃ (h : List (State Unit × CallBy Unit)) (s : State Unit),
    Lts.Path (step (fun _ _ => true) NINODES) (boot [] (fun _ => 0) ()) h s ∧ (∀ x ∈ h, x.2.call.locksFile = false) ∧
      (s.tree.inode 3).type = .file ∧ (s.tree.inode 3).nlink = 1 ∧ s.tree.links NINODES 3 = 0 :=
  Lts.exists_path_of_replay _ (orphaning.map fun call => ⟨(), call, []⟩) (by decide +kernel)

/-! ## Directories -/

/-- **The directories form a tree.**  A directory with a link begins with `.` and `..`, has a link for itself and one for each
directory below; it is the `..` of these, and they are below no other; the root is below none. -/
theorem directory_tree {strict : Bool}
    (hnames : ∀ name ∈ names, name ≠ dot ∧ name ≠ dotdot) (hlen : names.length + 2 ≤ NINODES) (hp : Lts.Path (step (guard strict) NINODES) (boot names size t) h s)
    (hcalls : ∀ x ∈ h, x.2.call.locksFile = false) :
    s.tree.Live ROOTINO ∧ ∀ d, s.tree.Live d →
      (2 ≤ s.tree.entries d ∧ s.tree.ents d 0 = ⟨dot, d⟩ ∧ (s.tree.ents d 1).name = dotdot) ∧
      (s.tree.inode d).nlink = 1 + s.tree.subdirs d ∧
      ∀ k < s.tree.entries d, s.tree.IsSubdir d k →
        (s.tree.ents d k).inum ≠ ROOTINO ∧ (s.tree.ents (s.tree.ents d k).inum 1).inum = d ∧
        ∀ d' k', s.tree.Live d' → k' < s.tree.entries d' → s.tree.IsSubdir d' k' →
          (s.tree.ents d' k').inum = (s.tree.ents d k).inum → d' = d := by
  have hs := (Fit.run hnames hlen hp hcalls).shape
  refine ⟨hs.root.1, fun d hd => ?_⟩
  obtain ⟨hlen, hdot, hdotdot, -⟩ := hs.dots hd
  refine ⟨⟨hlen, hdot, hdotdot⟩, hs.below hd, fun k hk hsub => ?_⟩
  have hparent := hs.parent hd hk hsub
  refine ⟨hs.root.2 hd hsub.1 hk, hparent, fun d' k' hd' hk' hsub' he => ?_⟩
  rw [← hparent, ← hs.parent hd' hk' hsub', he]

/-- `mkdir a; mkdir a/b` -/
def nesting : List Call := [.mkdir ⟨true, [[97]]⟩, .mkdir ⟨true, [[97], [98]]⟩]

theorem directory_tree_nesting : ∃ (h : List (State Unit × CallBy Unit)) (s : State Unit),
    Lts.Path (step (guard false) NINODES) (boot [] (fun _ => 0) ()) h s ∧ s.tree.ents 2 2 = ⟨[98], 3⟩ ∧
      s.tree.subdirs ROOTINO = 1 ∧ s.tree.subdirs 2 = 1 ∧ (s.tree.inode ROOTINO).nlink = 2 ∧
      (s.tree.inode 2).nlink = 2 ∧ (s.tree.ents 2 1).inum = ROOTINO ∧ s.tree.ents 3 0 = ⟨dot, 3⟩ ∧
      (s.tree.ents 3 1).inum = 2 := by
  have hrun : ∃ (h : List (State Unit × CallBy Unit)) (s : State Unit),
      Lts.Path (step (guard false) NINODES) (boot [] (fun _ => 0) ()) h s ∧
        (∀ x ∈ h, x.2.call.locksFile = false) ∧ s.tree.Live 2 ∧ s.tree.Live 3 ∧
        (2 < s.tree.entries ROOTINO ∧ s.tree.IsSubdir ROOTINO 2 ∧ (s.tree.ents ROOTINO 2).inum = 2) ∧
        (2 < s.tree.entries 2 ∧ s.tree.IsSubdir 2 2 ∧ s.tree.ents 2 2 = ⟨[98], 3⟩) ∧
        s.tree.subdirs ROOTINO = 1 ∧ s.tree.subdirs 2 = 1 :=
    Lts.exists_path_of_replay _ (nesting.map fun call => ⟨(), call, []⟩) (by decide +kernel)
  obtain ⟨h, s, hp, hcalls, ha, hb, ⟨hk1, hsub1, he1⟩, ⟨hk2, hsub2, he2⟩, hone1, hone2⟩ := hrun
  obtain ⟨hroot, htree⟩ := directory_tree (by simp) (by decide) hp hcalls
  obtain ⟨-, hn1, hbelow1⟩ := htree ROOTINO hroot
  obtain ⟨-, hn2, hbelow2⟩ := htree 2 ha
  have hup1 := (hbelow1 2 hk1 hsub1).2.1
  have hup2 := (hbelow2 2 hk2 hsub2).2.1
  rw [he1] at hup1
  rw [he2] at hup2
  refine ⟨h, s, hp, he2, hone1, hone2, ?_, ?_, hup1, (htree 3 hb).1.2.1, hup2⟩
  · rw [hn1, hone1]
    rfl
  · rw [hn2, hone2]
    rfl

/-! ## Names -/

/-- The inodes that a path from the root or from the current directory of a process leads to. -/
inductive Reach (s : State T) : ℕ → Prop
  | root : Reach s ROOTINO
  | cwd {t : T} {n : ℕ} : (s.tab.proc t).cwd = some n → Reach s n
  | entry {d k : ℕ} : Reach s d → (s.tree.inode d).type = .dir → k < s.tree.entries d → (s.tree.ents d k).inum ≠ 0 →
      Reach s (s.tree.ents d k).inum

omit [DecidableEq T] [Fintype T] in
theorem Reach.found {ninodes : ℕ} {x : ℕ → ℕ} (hf : Fit ⟨ninodes, true⟩ x s) (hr : Reach s n) :
    Found ⟨ninodes, true⟩ s n := by
  induction hr with
  | root => exact found_of_live fun _ => hf.shape.root.1
  | cwd hc => exact found_of_live fun hs => hf.cwd hs _ _ hc
  | entry _ hdir hk hn ih => exact hf.found ih hdir hk hn

/-- **No dangling names.**  As long as no directory is unlinked while it is the current directory of a process, and no link count is
raised above 32767, every entry of a directory that a path leads to names an allocated inode, and no call ends in
`ilock: no type`. -/
theorem names_alloc (hnames : ∀ name ∈ names, name ≠ dot ∧ name ≠ dotdot)
    (hlen : names.length + 2 ≤ NINODES)
    (hp : Lts.Path (step (guard true) NINODES) (boot names size t) h s) (hcalls : ∀ x ∈ h, x.2.call.locksFile = false) :
    (∀ d, Reach s d → (s.tree.inode d).type = .dir → ∀ k < s.tree.entries d, (s.tree.ents d k).inum ≠ 0 →
        (s.tree.inode (s.tree.ents d k).inum).type ≠ .none) ∧
      ∀ e : CallBy T, e.call.locksFile = false → outcome (guard true) NINODES s e ≠ some (.error .ilockNoType) := by
  have hf := Fit.run hnames hlen hp hcalls
  refine ⟨fun d hd hdir k hk hn => ((Reach.entry hd hdir hk hn).found hf rfl).1, fun e he ho => ?_⟩
  have := hf.outcome he
  rw [ho] at this
  exact this rfl rfl

/-- `mkdir a; mkdir a/b; chdir a; unlink b` -/
def removing : List Call :=
  [.mkdir ⟨true, [[97]]⟩, .mkdir ⟨true, [[97], [98]]⟩, .chdir ⟨true, [[97]]⟩, .unlink ⟨false, [[98]]⟩]

theorem names_alloc_removing : ∃ (h : List (State Unit × CallBy Unit)) (s : State Unit),
    Lts.Path (step (guard true) NINODES) (boot [] (fun _ => 0) ()) h s ∧ (s.tree.inode 3).type = .none ∧
      (s.tab.proc ()).cwd = some 2 ∧ (s.tree.ents 2 1).inum = ROOTINO ∧ (s.tree.inode (s.tree.ents 2 1).inum).type ≠ .none := by
  have hrun : ∃ (h : List (State Unit × CallBy Unit)) (s : State Unit),
      Lts.Path (step (guard true) NINODES) (boot [] (fun _ => 0) ()) h s ∧ (∀ x ∈ h, x.2.call.locksFile = false) ∧
        (s.tree.inode 3).type = .none ∧ (s.tab.proc ()).cwd = some 2 ∧ (s.tree.inode 2).type = .dir ∧ 1 < s.tree.entries 2 ∧
        (s.tree.ents 2 1).inum = ROOTINO :=
    Lts.exists_path_of_replay _ (removing.map fun call => ⟨(), call, []⟩) (by decide +kernel)
  obtain ⟨h, s, hp, hcalls, hfree, hcwd, hdir, hlt, hinum⟩ := hrun
  refine ⟨h, s, hp, hfree, hcwd, hinum, ?_⟩
  exact (names_alloc (by simp) (by decide) hp hcalls).1 2 (.cwd hcwd) hdir 1 hlt (by rw [hinum]; decide)

/-- `mkdir a; mkdir a/b; chdir a/b; unlink /a/b; unlink /a`: the directory above the current directory is removed. -/
def stranding : List Call :=
  [.mkdir ⟨true, [[97]]⟩, .mkdir ⟨true, [[97], [98]]⟩, .chdir ⟨true, [[97], [98]]⟩, .unlink ⟨true, [[97], [98]]⟩,
    .unlink ⟨true, [[97]]⟩]

/-- Whether a call ends in a given panic. -/
def panics (e : Panic) : Option (Except Panic (Unit × State T)) → Bool
  | some (.error e') => e' = e
  | _ => false

omit [DecidableEq T] [Fintype T] in
theorem panics_iff {e : Panic} {o : Option (Except Panic (Unit × State T))} : panics e o = true ↔ o = some (.error e) := by
  match o with
  | none => simp [panics]
  | some (.error e') => simp [panics]
  | some (.ok x) => simp [panics]

/-- The entry `..` of the current directory then names a free inode, and looking up `..` in it ends in `ilock: no type`. -/
theorem names_dangling : ∃ (h : List (State Unit × CallBy Unit)) (s : State Unit),
    Lts.Path (step (fun _ _ => true) NINODES) (boot [] (fun _ => 0) ()) h s ∧ (∀ x ∈ h, x.2.call.locksFile = false) ∧
      (s.tab.proc ()).cwd = some 3 ∧ (s.tree.inode 3).type = .dir ∧ 1 < s.tree.entries 3 ∧ (s.tree.ents 3 1).inum = 2 ∧
      (s.tree.inode 2).type = .none ∧
      outcome (fun _ _ => true) NINODES s ⟨(), .open ⟨false, [dotdot]⟩ O_RDONLY, []⟩ = some (.error .ilockNoType) := by
  have hrun : ∃ (h : List (State Unit × CallBy Unit)) (s : State Unit),
      Lts.Path (step (fun _ _ => true) NINODES) (boot [] (fun _ => 0) ()) h s ∧ (∀ x ∈ h, x.2.call.locksFile = false) ∧
        (s.tab.proc ()).cwd = some 3 ∧ (s.tree.inode 3).type = .dir ∧ 1 < s.tree.entries 3 ∧ (s.tree.ents 3 1).inum = 2 ∧
        (s.tree.inode 2).type = .none ∧
        panics .ilockNoType (outcome (fun _ _ => true) NINODES s ⟨(), .open ⟨false, [dotdot]⟩ O_RDONLY, []⟩) = true :=
    Lts.exists_path_of_replay _ (stranding.map fun call => ⟨(), call, []⟩) (by decide +kernel)
  obtain ⟨h, s, hp, hcalls, hcwd, hdir, hlt, hinum, hfree, hpanic⟩ := hrun
  exact ⟨h, s, hp, hcalls, hcwd, hdir, hlt, hinum, hfree, panics_iff.mp hpanic⟩

end Xv6Mlfq.Files
