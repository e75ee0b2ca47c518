import Xv6Mlfq.Vm.Process

/-!
# Xv6Mlfq.Vm.Fork — a process is copied, or nothing happens

`fork` of `proc.c`.

* `Mirrors σ σ' old new n`: the address space at `new` in `σ'` is a copy of the one at `old` in `σ`, with pages of its own.
* `ends_fork`: a fork makes a child with a copy of the parent's memory, or leaves everything as it was.
* `fork_faithful`: the two together.
-/

namespace Xv6Mlfq.Vm

open Bytes Function Exec CInt Files

variable {ram : Ram} {σ σ' : Phys} {k k' : Kern} {i j : Slot} {old new n sz tf tf' root : ℕ} {f : Fin NFILE}
  {p t : Task} {fd : Fin NOFILE} {rest : List (Fin NOFILE)}

/-! ## The code -/

/-- `filedup` -/
def filedup (f : Fin NFILE) : Sys Unit := do
  let k ← get
  if (k.file f).ref < 1 then throw .filedup
  else set { k with file := update k.file f { k.file f with ref := inc (k.file f).ref } }

/-- The loop of `fork` over the open files -/
def dupFiles (p : Task) (j : Slot) : List (Fin NOFILE) → Sys Unit
  | [] => pure ()
  | fd :: rest => do
    (match p.ofile fd with
      | none => pure ()
      | some f => do
        filedup f
        modifyTask j fun t => { t with ofile := update t.ofile fd (some f) })
    dupFiles p j rest

/-- `np->cwd = idup(p->cwd)` -/
def dupCwd (p : Task) (j : Slot) : Sys Unit := do
  (match p.cwd with
    | none => pure ()
    | some ip => modify fun k => { k with inode := update k.inode ip (inc (k.inode ip)) })
  modifyTask j fun t => { t with cwd := p.cwd }

/-- `*(np->trapframe) = *(p->trapframe)`, and `np->trapframe->a0 = 0` -/
def copyTrapframe (p np : ℕ) : Code Unit := do
  store np 0 (slice ((← get).mem p) 0 288)
  store np 112 (le 8 0)

/-- `safestrcpy` of the string `t` to the buffer `s`, which has `n` bytes -/
def safestrcpy (s t : List UInt8) (n : ℕ) : List UInt8 :=
  let c := (t.take (n - 1)).takeWhile (· ≠ 0)
  -- a NUL that has been copied is followed by another
  let w := if c.length < n - 1 then c ++ [0, 0] else c ++ [0]
  w ++ s.drop w.length

/-- `fork` once the memory has been copied: the child in slot `j` gets the rest, and becomes runnable. -/
def forkRest (i j : Slot) : Sys ℤ := do
  let k ← get
  modifyTask j fun t => { t with sz := (k.task i).sz }
  onPhys (copyTrapframe (k.task i).trapframe (k.task j).trapframe)
  dupFiles (k.task i) j (List.finRange NOFILE)
  dupCwd (k.task i) j
  modifyTask j fun t => { t with name := safestrcpy t.name (k.task i).name 16 }
  modifyTask j fun t => { t with proc := { t.proc with parent := some i } }
  modifyTask j fun t => { t with proc := { t.proc with state := .runnable } }
  pure (k.task j).proc.pid

/-- `fork` of the process in slot `i` -/
def fork (ram : Ram) (i : Slot) : Sys ℤ := do
  match ← allocproc ram with
  | none => pure (-1)
  | some j => do
    let k ← get
    if ← onPhys (uvmcopy ram (k.task i).pagetable (k.task j).pagetable (k.task i).sz) then forkRest i j
    else do
      freeproc ram j
      pure (-1)

/-! ## The copy -/

/-- The `n` pages of an address space, and its tables, are the same in `σ'` as in `σ`. -/
structure SameSpace (σ σ' : Phys) (root n : ℕ) : Prop where
  map : σ'.map root = σ.map root
  pages : σ'.pages 2 root = σ.pages 2 root
  mem : ∀ f ∈ frames (σ.map root) 0 n, σ'.mem f = σ.mem f

theorem SameSpace.of_mem (h : ∀ q ∈ frames (σ.map root) 0 n ++ σ.pages 2 root, σ'.mem q = σ.mem q) :
    SameSpace σ σ' root n where
  map := map_of_mem fun q hq => h q (List.mem_append_right _ hq)
  pages := (Radix.Same.of_agree (by decide) fun q hq _ _ => pte_congr (h q (List.mem_append_right _ hq))).pages
  mem := fun f hf => h f (List.mem_append_left _ hf)

theorem SameSpace.frame (h : SameSpace σ σ' root n) (u : ℕ) : σ'.frame root u = σ.frame root u := by
  rw [Phys.frame, h.map, Phys.frame]

theorem SameSpace.user {a : ℕ} (h : SameSpace σ σ' root n) (ha : a < n * PGSIZE) : σ'.user root a = σ.user root a := by
  have hu : a / PGSIZE < n := Nat.div_lt_of_lt_mul (by rwa [Nat.mul_comm] at ha)
  have hin : σ.frame root (a / PGSIZE) ∈ frames (σ.map root) 0 n := mem_frames (Nat.zero_le _) (by omega)
  rw [Phys.user, h.frame, h.mem _ hin, Phys.user]

/-- A copy of an address space. -/
structure Mirrors (σ σ' : Phys) (old new n : ℕ) : Prop where
  mapped : ∀ u, σ'.map new u &&& PTE_V ≠ 0 ↔ u < n ∨ u = TOP ∨ u = TOP + 1
  flags : ∀ u < n, PTE_FLAGS (σ'.map new u) = PTE_FLAGS (σ.map old u)
  bytes : ∀ a < n * PGSIZE, σ'.user new a = σ.user old a
  apart : ∀ q ∈ frames (σ'.map new) 0 n ++ σ'.pages 2 new, q ∉ frames (σ.map old) 0 n ++ σ.pages 2 old
  parent : SameSpace σ σ' old n

/-- What happens to other pages before and after does not matter. -/
theorem Mirrors.change {σ0 σ1 : Phys} (h : Mirrors σ0 σ1 old new n) (hsrc : SameSpace σ σ0 old n) (hdst : SameSpace σ1 σ' new n)
    (hold : SameSpace σ σ' old n) : Mirrors σ σ' old new n where
  mapped := by
    rw [hdst.map]
    exact h.mapped
  flags := by
    rw [hdst.map, ← hsrc.map]
    exact h.flags
  bytes := by
    intro a ha
    rw [hdst.user ha, h.bytes a ha, hsrc.user ha]
  apart := by
    rw [hdst.map, hdst.pages, ← hsrc.map, ← hsrc.pages]
    exact h.apart
  parent := hold

theorem Grew.mirrors {perm : ℕ → ℕ} {data : ℕ → Frame} (h : Grew ram σ σ' new 0 n perm data) (hnew : Space ram σ new 0 tf')
    (hold : Parent σ old new n) (hperm : perm = fun u => PTE_FLAGS (σ.map old u)) (hdata : data = fun u => σ.mem (σ.frame old u)) :
    Mirrors σ σ' old new n := by
  have hspace := h.space hnew
  have hother : ∀ q ∈ frames (σ.map old) 0 n ++ σ.pages 2 old, σ'.mem q = σ.mem q := fun q hq => h.trade.mem q (hold.apart q hq)
  have hpage : ∀ {a : ℕ}, a < n * PGSIZE → a / PGSIZE < n ∧ a % PGSIZE < PGSIZE :=
    fun ha => ⟨Nat.div_lt_of_lt_mul (by rwa [Nat.mul_comm] at ha), Nat.mod_lt _ (by decide)⟩
  refine ⟨fun u => hspace.valid_iff, fun u hu => ?_, fun a ha => ?_, fun q hq hbad => ?_, SameSpace.of_mem hother⟩
  · obtain ⟨hentry, -⟩ := h.new u (Nat.zero_le u) hu
    obtain ⟨hlt, hor⟩ := (hold.leaf u hu).flags
    rw [hentry, hperm, PTE_FLAGS_entry hlt, hor]
  · obtain ⟨hu, hi⟩ := hpage ha
    obtain ⟨-, hbytes⟩ := h.new (a / PGSIZE) (Nat.zero_le _) hu
    rw [Phys.user, hbytes _ hi, hdata, Phys.user]
  · have hin := h.trade.perm.subset (List.mem_append_right _ hq)
    exact hold.apart q hbad hin

/-! ## References -/

/-- How often a process has a file open. -/
def Task.opens (p : Task) (f : Fin NFILE) (fds : List (Fin NOFILE)) : ℕ := fds.countP fun fd => p.ofile fd = some f

/-- The files of `p` at `fds`, and what `old` has elsewhere. -/
def Task.inherit (p : Task) (fds : List (Fin NOFILE)) (old : Fin NOFILE → Option (Fin NFILE)) : Fin NOFILE → Option (Fin NFILE) :=
  fun fd => if fd ∈ fds ∧ (p.ofile fd).isSome then p.ofile fd else old fd

theorem Task.inherit_cons_none {old : Fin NOFILE → Option (Fin NFILE)}
    (h : p.ofile fd = none) : p.inherit (fd :: rest) old = p.inherit rest old := by
  funext x
  unfold Task.inherit
  by_cases hx : x = fd
  · subst hx
    rw [if_neg (by simp [h]), if_neg (by simp [h])]
  · simp [hx]

theorem Task.inherit_cons_some {old : Fin NOFILE → Option (Fin NFILE)} (h : p.ofile fd = some f) :
    p.inherit (fd :: rest) old = p.inherit rest (update old fd (some f)) := by
  funext x
  unfold Task.inherit
  by_cases hx : x = fd
  · subst hx
    rw [if_pos (by simp [h]), update_self, h]
    split_ifs <;> rfl
  · rw [update_of_ne hx]
    simp [hx]

/-- What the loop over the files has done: the child has the files, and their counts are up. -/
structure Duped (p : Task) (j : Slot) (fds : List (Fin NOFILE)) (k k' : Kern) : Prop where
  phys : k'.phys = k.phys
  others : ∀ l, l ≠ j → k'.task l = k.task l
  child : k'.task j = { k.task j with ofile := p.inherit fds (k.task j).ofile }
  ref : ∀ f, k'.file f = { k.file f with ref := (k.file f).ref + p.opens f fds }
  pipe : k'.pipe = k.pipe
  inode : k'.inode = k.inode

/-- A file is referred to once more. -/
def Kern.incRef (k : Kern) (f : Fin NFILE) : Kern := { k with file := update k.file f { k.file f with ref := (k.file f).ref + 1 } }

theorem Kern.incRef_file (k : Kern) (f g : Fin NFILE) :
    (k.incRef f).file g = { k.file g with ref := (k.file g).ref + if f = g then 1 else 0 } := by
  rw [Kern.incRef]
  by_cases hg : g = f
  · subst hg
    simp
  · simp [hg, Ne.symm hg]

theorem ends_filedup {Q : Unit → Kern → Prop} (h1 : 1 ≤ (k.file f).ref) (hmax : (k.file f).ref < intMax)
    (hQ : Q () (k.incRef f)) : Ends (filedup f) k Q := by
  rw [filedup, ends_bind, ends_get, if_neg (by omega), ends_set, inc_of_lt hmax]
  exact hQ

theorem Task.opens_cons :
    p.opens f (fd :: rest) = p.opens f rest + if p.ofile fd = some f then 1 else 0 := by
  rw [Task.opens, List.countP_cons, Task.opens]
  simp

theorem ends_dupFiles {fds : List (Fin NOFILE)}
    (h : ∀ fd ∈ fds, ∀ f, p.ofile fd = some f → 1 ≤ (k.file f).ref ∧ (k.file f).ref + fds.length ≤ intMax) :
    Ends (dupFiles p j fds) k fun _ k' => Duped p j fds k k' := by
  induction fds generalizing k with
  | nil =>
    refine ends_pure.mpr ⟨rfl, fun _ _ => rfl, ?_, fun f => ?_, rfl, rfl⟩
    · have hold : p.inherit [] (k.task j).ofile = (k.task j).ofile := by
        funext fd
        exact if_neg (by simp)
      rw [hold]
    · simp [Task.opens]
  | cons fd rest ih =>
    have hlen : ((fd :: rest).length : ℤ) = rest.length + 1 := by
      push_cast [List.length_cons]
      rfl
    rw [dupFiles, ends_bind]
    cases hf : p.ofile fd with
    | none =>
      rw [ends_pure]
      refine (ih fun fd' hfd' f hf' => ?_).mono fun _ k' hd => ⟨hd.phys, hd.others, ?_, fun f => ?_, hd.pipe, hd.inode⟩
      · obtain ⟨h1, h2⟩ := h fd' (List.mem_cons_of_mem _ hfd') f hf'
        exact ⟨h1, by omega⟩
      · rw [hd.child, Task.inherit_cons_none hf]
      · rw [hd.ref f, Task.opens_cons, hf, if_neg (by simp), Nat.add_zero]
    | some f =>
      obtain ⟨h1, h2⟩ := h fd (List.mem_cons_self ..) f hf
      dsimp only
      rw [ends_bind]
      refine ends_filedup h1 (by omega) ?_
      rw [ends_modifyTask]
      refine (ih fun fd' hfd' g hg => ?_).mono fun _ k' hd => ⟨hd.phys, fun l hl => ?_, ?_, fun g => ?_, hd.pipe, hd.inode⟩
      · obtain ⟨hg1, hg2⟩ := h fd' (List.mem_cons_of_mem _ hfd') g hg
        rw [setTask_file, Kern.incRef_file]
        dsimp only
        split_ifs <;> exact ⟨by omega, by omega⟩
      · rw [hd.others l hl, setTask_of_ne hl]
        rfl
      · rw [hd.child, setTask_self, Task.inherit_cons_some hf]
        rfl
      · rw [hd.ref g, setTask_file, Kern.incRef_file, Task.opens_cons, hf]
        simp only [Option.some.injEq, File.mk.injEq, and_true]
        split_ifs
        · push_cast
          omega
        · omega

/-- What `fork` has done once the memory has been copied. -/
structure Started (k k' : Kern) (i j : Slot) : Prop where
  phys : ∃ data, k'.phys = k.phys.setPage (k.task j).trapframe data
  others : ∀ l, l ≠ j → k'.task l = k.task l
  proc : (k'.task j).proc = { (k.task j).proc with parent := some i, state := .runnable }
  sz : (k'.task j).sz = (k.task i).sz
  pagetable : (k'.task j).pagetable = (k.task j).pagetable
  trapframe : (k'.task j).trapframe = (k.task j).trapframe
  ofile : (k'.task j).ofile = (k.task i).inherit (List.finRange NOFILE) (k.task j).ofile
  cwd : (k'.task j).cwd = (k.task i).cwd
  file : ∀ f, k'.file f = { k.file f with ref := (k.file f).ref + (k.task i).opens f (List.finRange NOFILE) }
  pipe : k'.pipe = k.pipe

theorem ends_copyTrapframe {p np : ℕ} {Q : Unit → Phys → Prop} (hQ : ∀ data, Q () (σ.setPage np data)) :
    Ends (copyTrapframe p np) σ Q := by
  rw [copyTrapframe, ends_bind, ends_get, ends_bind, ends_store, ends_store]
  have htwice : ∀ d d', (σ.setPage np d).setPage np d' = σ.setPage np d' := by
    intro d d'
    rw [Phys.setPage, Phys.setPage, Phys.setPage, update_idem]
  rw [htwice]
  exact hQ _

theorem ends_dupCwd : Ends (dupCwd p j) k fun _ k' => k'.phys = k.phys ∧ k'.file = k.file ∧ k'.pipe = k.pipe ∧
    (∀ l, l ≠ j → k'.task l = k.task l) ∧ k'.task j = { k.task j with cwd := p.cwd } := by
  rw [dupCwd, ends_bind]
  cases p.cwd with
  | none =>
    rw [ends_pure, ends_modifyTask]
    exact ⟨rfl, rfl, rfl, fun l hl => setTask_of_ne hl, setTask_self⟩
  | some ip =>
    rw [ends_modify, ends_modifyTask]
    exact ⟨rfl, rfl, rfl, fun l hl => setTask_of_ne hl, setTask_self⟩

theorem ends_forkRest (h : ∀ fd f, (k.task i).ofile fd = some f → 1 ≤ (k.file f).ref ∧ (k.file f).ref + NOFILE ≤ intMax) :
    Ends (forkRest i j) k fun r k' => r = (k.task j).proc.pid ∧ Started k k' i j := by
  rw [forkRest, ends_bind, ends_get, ends_bind, ends_modifyTask, ends_bind, ends_onPhys]
  refine ends_copyTrapframe fun data => ?_
  simp only [setTask_phys, setTask_setPhys]
  rw [ends_bind]
  refine (ends_dupFiles fun fd _ f hf => ?_).mono fun _ k1 h₁ => ?_
  · rw [List.length_finRange]
    exact h fd f hf
  · rw [ends_bind]
    refine ends_dupCwd.mono fun _ k2 h₂ => ?_
    obtain ⟨hphys, hfile, hpipe, hothers, hchild⟩ := h₂
    have hj : (k2.task j).proc = (k.task j).proc ∧ (k2.task j).sz = (k.task i).sz ∧ (k2.task j).pagetable = (k.task j).pagetable ∧
        (k2.task j).trapframe = (k.task j).trapframe ∧
        (k2.task j).ofile = (k.task i).inherit (List.finRange NOFILE) (k.task j).ofile ∧ (k2.task j).cwd = (k.task i).cwd := by
      rw [hchild, h₁.child, setTask_self]
      exact ⟨rfl, rfl, rfl, rfl, rfl, rfl⟩
    obtain ⟨hproc, hsz, hpt, htf, hof, hcwd⟩ := hj
    simp only [ends_bind, ends_modifyTask, setTask_self, setTask_setTask]
    rw [ends_pure]
    refine ⟨rfl, ⟨data, hphys.trans h₁.phys⟩, fun l hl => ?_, ?_, ?_, ?_, ?_, ?_, ?_, fun f => ?_, ?_⟩
    · rw [setTask_of_ne hl, hothers l hl, h₁.others l hl, setTask_of_ne hl]
      rfl
    · rw [setTask_self, hproc]
    · rw [setTask_self, hsz]
    · rw [setTask_self, hpt]
    · rw [setTask_self, htf]
    · rw [setTask_self, hof]
    · rw [setTask_self, hcwd]
    · rw [setTask_file, hfile, h₁.ref f]
      rfl
    · exact hpipe.trans h₁.pipe

/-! ## `fork` -/

/-- What `fork` finds: the process has an address space, and the counts of its open files are counts. -/
structure Forkable (ram : Ram) (k : Kern) (i : Slot) : Prop where
  allots : k.Allots ram
  used : (k.task i).proc.state ≠ .unused
  ok : (k.task i).Ok ram k.phys
  pagetable : (k.task i).pagetable ≠ 0
  files : ∀ fd f, (k.task i).ofile fd = some f → 1 ≤ (k.file f).ref ∧ (k.file f).ref + NOFILE ≤ intMax

/-- The process in slot `i` has a child in slot `j`. -/
structure Forked (ram : Ram) (k k' : Kern) (i j : Slot) : Prop where
  unused : (k.task j).proc.state = .unused
  others : ∀ l, l ≠ j → k'.task l = k.task l
  proc : (k'.task j).proc = { (k.task j).proc.allocproc k.nextpid with parent := some i, state := .runnable }
  sz : (k'.task j).sz = (k.task i).sz
  pagetable : (k'.task j).pagetable ≠ 0
  ofile : (k'.task j).ofile = (k.task i).inherit (List.finRange NOFILE) (k.task j).ofile
  cwd : (k'.task j).cwd = (k.task i).cwd
  ok : (k'.task j).Ok ram k'.phys
  trade : Trade k.phys k'.phys [] ((k'.task j).owned k'.phys)
  mirrors : Mirrors k.phys k'.phys (k.task i).pagetable (k'.task j).pagetable (pagesOf (k.task i).sz)
  file : ∀ f, k'.file f = { k.file f with ref := (k.file f).ref + (k.task i).opens f (List.finRange NOFILE) }
  pipe : k'.pipe = k.pipe

/-- What others take from the free list is not the parent's. -/
theorem Forkable.apart {ys : List ℕ} (h : Forkable ram k i) (ht : Trade k.phys σ' [] ys) :
    (∀ q ∈ frames (k.phys.map (k.task i).pagetable) 0 (pagesOf (k.task i).sz) ++ k.phys.pages 2 (k.task i).pagetable,
      q ∉ σ'.free ++ ys) ∧ SameSpace k.phys σ' (k.task i).pagetable (pagesOf (k.task i).sz) := by
  have hother : ∀ q ∈ frames (k.phys.map (k.task i).pagetable) 0 (pagesOf (k.task i).sz) ++ k.phys.pages 2 (k.task i).pagetable,
      q ∉ σ'.free ++ ys ∧ σ'.mem q = k.phys.mem q := by
    intro q hq
    refine ht.other fun hin => ?_
    rw [List.append_nil] at hin
    refine List.disjoint_of_nodup_append h.ok.nodup hin ?_
    rw [Task.owned, if_neg h.pagetable]
    exact List.mem_append_right _ hq
  exact ⟨fun q hq => (hother q hq).1, SameSpace.of_mem fun q hq => (hother q hq).2⟩

/-- The child is freed again. -/
theorem Made.ends_undo (h : k.Allots ram) (hm : Made ram k k' j t) (hspace : Space ram σ' t.pagetable 0 t.trapframe)
    (ht : Trade k.phys σ' [] (t.trapframe :: σ'.pages 2 t.pagetable)) : Ends (freeproc ram j) (k'.setPhys σ') fun _ k'' => Undone k k'' := by
  have hsz := hm.sz
  have howned : t.owned σ' = t.trapframe :: σ'.pages 2 t.pagetable := by
    rw [Task.owned_of_pos hm.has.pos.ne' hm.space.root_ne, hsz]
    rfl
  have hok : t.Ok ram σ' := by
    refine ⟨fun _ => hm.has, fun _ => ?_, ?_⟩
    · rw [hsz]
      exact hspace
    · rw [howned]
      exact ht.nodup (by simpa using h.nodup)
  rw [hm.eq]
  refine (ends_freeproc (by simpa using hok)).mono fun _ k1 hk1 => ?_
  obtain ⟨σ1, h₁, rfl⟩ := hk1
  simp only [setTask_setPhys, setTask_self, setTask_phys, setPhys_phys, howned] at h₁
  simp only [setTask_self, setTask_setPhys, setPhys_setPhys, setTask_setTask]
  exact Undone.of_freed _ h hm.unused (ht.trans h₁)

/-- The child is complete. -/
theorem Forked.of_started {k1 : Kern} {σ2 : Phys} (h : Forkable ram k i) (hm : Made ram k k1 j t) (hti : k1.task i = k.task i)
    (htj : k1.task j = t) (hsame : SameSpace k.phys k1.phys (k.task i).pagetable (pagesOf (k.task i).sz))
    (hg : Grew ram k1.phys σ2 t.pagetable 0 (pagesOf (k.task i).sz) (fun u => PTE_FLAGS (k1.phys.map (k.task i).pagetable u))
      fun u => k1.phys.mem (k1.phys.frame (k.task i).pagetable u))
    (hparent : Parent k1.phys (k.task i).pagetable t.pagetable (pagesOf (k.task i).sz))
    (ht : Trade k.phys σ2 []
      (t.trapframe :: (frames (σ2.map t.pagetable) 0 (pagesOf (k.task i).sz) ++ σ2.pages 2 t.pagetable)))
    (hs : Started (k1.setPhys σ2) k' i j) : Forked ram k k' i j := by
  obtain ⟨data, hphys⟩ := hs.phys
  have hpt := hs.pagetable
  have htf := hs.trapframe
  have hsz := hs.sz
  rw [setPhys_task, htj] at hphys hpt htf
  rw [setPhys_task, hti] at hsz
  have hnd := ht.nodup (by simpa using h.allots.nodup)
  have htrade : Trade σ2 k'.phys [t.trapframe] [t.trapframe] := hphys ▸ Trade.setPage (List.mem_singleton_self _)
  obtain ⟨hspace, hpages, hmap, hmem⟩ := (hg.space hm.space).traded htrade hnd fun q hq => List.mem_singleton.mp hq ▸ hm.has
  have hall : Trade k.phys k'.phys [] ((k'.task j).owned k'.phys) := by
    rw [Task.owned_of_pos (htf ▸ hm.has.pos.ne') (hpt ▸ hm.space.root_ne), hpt, htf, hsz, hmap, hpages]
    exact ht.trans htrade.frame
  refine ⟨hm.unused, fun l hl => ?_, ?_, hsz, hpt ▸ hm.space.root_ne, ?_, ?_, ⟨fun _ => htf ▸ hm.has, fun _ => ?_, ?_⟩, hall, ?_,
    fun f => ?_, ?_⟩
  · rw [hs.others l hl, setPhys_task, hm.eq, setTask_of_ne hl]
    rfl
  · rw [hs.proc, setPhys_task, htj, hm.proc]
  · rw [hs.ofile, setPhys_task, hti, htj, hm.ofile]
  · rw [hs.cwd, setPhys_task, hti]
  · rw [hpt, htf, hsz]
    exact hspace
  · exact hall.nodup (by simpa using h.allots.nodup)
  · rw [hpt]
    exact (hg.mirrors hm.space hparent rfl rfl).change hsame ⟨hmap, hpages, hmem⟩ (h.apart hall).2
  · rw [hs.file f, setPhys_task, hti, hm.eq]
    rfl
  · rw [hs.pipe, hm.eq]
    rfl

theorem ends_fork (h : Forkable ram k i) : Ends (fork ram i) k fun r k' =>
    (r = -1 ∧ Undone k k') ∨ ∃ j, r = k.nextpid ∧ Forked ram k k' i j := by
  rw [fork, ends_bind]
  refine (ends_allocproc h.allots).mono fun r k1 hr => ?_
  rcases hr with ⟨rfl, hu⟩ | ⟨j, t, rfl, hm⟩
  · exact ends_pure.mpr (.inl ⟨rfl, hu⟩)
  · have hij : i ≠ j := by
      rintro rfl
      exact h.used hm.unused
    have hti : k1.task i = k.task i := by
      rw [hm.eq, setTask_of_ne hij]
      rfl
    have htj : k1.task j = t := by
      rw [hm.eq, setTask_self]
    obtain ⟨hapart, hsame⟩ := h.apart hm.trade
    have hparent : Parent k1.phys (k.task i).pagetable t.pagetable (pagesOf (k.task i).sz) := by
      refine ⟨?_, ?_⟩
      · rw [hsame.map]
        exact (h.ok.space h.pagetable).user.leaf
      · rw [hsame.map, hsame.pages]
        intro q hq hin
        refine hapart q hq ?_
        rcases List.mem_append.mp hin with hin | hin
        · exact List.mem_append_left _ hin
        · exact List.mem_append_right _ (List.mem_cons_of_mem _ hin)
    dsimp only
    rw [ends_bind, ends_get, ends_bind, ends_onPhys, hti, htj]
    refine (ends_uvmcopy hm.space.user hparent rfl (h.ok.space h.pagetable).user.le).mono fun ok σ2 hcase => ?_
    rcases hcase with ⟨rfl, hg⟩ | ⟨rfl, hg⟩
    · have htrade2 : Trade k.phys σ2 []
          (t.trapframe :: (frames (σ2.map t.pagetable) 0 (pagesOf (k.task i).sz) ++ σ2.pages 2 t.pagetable)) := by
        have hg' := hg.trade.frame_left [t.trapframe]
        rw [Nat.sub_zero] at hg'
        exact hm.trade.trans hg'
      have hnd2 := htrade2.nodup (by simpa using h.allots.nodup)
      have hk2 : (k1.setPhys σ2).file = k.file ∧ (k1.setPhys σ2).pipe = k.pipe := by
        rw [hm.eq]
        exact ⟨rfl, rfl⟩
      have hfiles : ∀ fd f, ((k1.setPhys σ2).task i).ofile fd = some f →
          1 ≤ ((k1.setPhys σ2).file f).ref ∧ ((k1.setPhys σ2).file f).ref + NOFILE ≤ intMax := by
        rw [hk2.1, setPhys_task, hti]
        exact h.files
      rw [if_pos rfl]
      refine (ends_forkRest hfiles).mono fun r k' hr => .inr ⟨j, ?_, ?_⟩
      · rw [hr.1, setPhys_task, htj, hm.proc]
        rfl
      · exact Forked.of_started h hm hti htj hsame hg hparent htrade2 hr.2
    · rw [if_neg (by decide), ends_bind]
      have htrade2 : Trade k.phys σ2 [] (t.trapframe :: σ2.pages 2 t.pagetable) :=
        hm.trade.trans (hg.trade.frame_left [t.trapframe])
      exact (hm.ends_undo h.allots (hg.space hm.space) htrade2).mono fun _ k' hu => ends_pure.mpr (.inl ⟨rfl, hu⟩)

/-- **Fork copies memory faithfully or not at all.**  When `uvmcopy` returns 0, the child's address space is a copy of the parent's
with pages of its own.  A fork that returns -1 has left an unused slot where it has taken one, has given back all pages, and has
changed no process, no count of a file or of an inode, and no page that was not free. -/
theorem fork_faithful (ram : Ram) :
    (∀ σ old new sz tf tf', Space ram σ old (pagesOf sz) tf → Space ram σ new 0 tf' →
      (∀ q ∈ frames (σ.map old) 0 (pagesOf sz) ++ σ.pages 2 old, q ∉ σ.pages 2 new) →
      Ends (uvmcopy ram old new sz) σ fun ok σ' => ok = true → Mirrors σ σ' old new (pagesOf sz)) ∧
    ∀ k i, Forkable ram k i → k.nextpid ≠ -1 → Ends (fork ram i) k fun r k' => r = -1 → Undone k k' := by
  refine ⟨fun σ old new sz tf tf' hold hnew hapart => ?_, fun k i h hpid => ?_⟩
  · have hparent : Parent σ old new (pagesOf sz) := by
      refine ⟨hold.user.leaf, fun q hq hin => ?_⟩
      rcases List.mem_append.mp hin with hin | hin
      · exact List.disjoint_of_nodup_append hold.user.nodup hin hq
      · exact hapart q hq hin
    refine (ends_uvmcopy hnew.user hparent rfl hold.user.le).mono fun ok σ' hcase hok => ?_
    rcases hcase with ⟨-, hg⟩ | ⟨hfalse, -⟩
    · exact hg.mirrors hnew hparent rfl rfl
    · rw [hok] at hfalse
      cases hfalse
  · refine (ends_fork h).mono fun r k' hcase hr => ?_
    rcases hcase with ⟨-, hu⟩ | ⟨j, hpid', -⟩
    · exact hu
    · exact absurd (hpid'.symm.trans hr) hpid

/-- `fork` up to `uvmcopy`: whether the memory has been copied. -/
def forkCopy (ram : Ram) (i : Slot) : Sys Bool := do
  match ← allocproc ram with
  | none => pure false
  | some j => do
    let k ← get
    onPhys (uvmcopy ram (k.task i).pagetable (k.task j).pagetable (k.task i).sz)

/-- A fork that cannot copy the memory returns -1. -/
theorem fork_short (h : Forkable ram k i) (hrun : Ends (forkCopy ram i) k fun ok _ => ok = false) :
    Ends (fork ram i) k fun r _ => r = -1 := by
  have hends := ends_fork h
  rw [fork, ends_bind] at hends ⊢
  rw [forkCopy, ends_bind] at hrun
  refine (hends.and hrun).mono fun r k1 h1 => ?_
  obtain ⟨hends, hrun⟩ := h1
  cases r with
  | none => exact ends_pure.mpr rfl
  | some j =>
    dsimp only at hends hrun ⊢
    rw [ends_bind, ends_get, ends_bind] at hends ⊢
    rw [ends_bind, ends_get] at hrun
    refine (hends.and hrun).mono fun ok k2 h2 => ?_
    obtain ⟨hends, rfl⟩ := h2
    rw [if_neg (by decide), ends_bind] at hends ⊢
    exact hends.mono fun _ _ _ => ends_pure.mpr rfl

/-- A slot of the process table before there are processes. -/
def noTask : Task := ⟨Proc.zero, 0, 0, 0, fun _ => none, none, List.replicate 16 0⟩

/-- A memory of `n` pages before there are processes. -/
def bootKern (n : ℕ) : Kern :=
  ⟨{ fourPages with free := List.range' 0x80010 n }, fun _ => noTask, 1, fun _ => ⟨0, none, false⟩, fun _ => (false, false),
    fun _ => 0, fun _ => false, 0⟩

theorem allots_bootKern (hn : n ≤ 0x7ff0) : (bootKern n).Allots smallRam where
  nodup := List.nodup_range'
  has := by
    intro q hq
    obtain ⟨hl, hu⟩ := List.mem_range'_1.mp hq
    have htop := top_eq
    exact ⟨hl, by omega⟩
  blank := fun _ _ => ⟨rfl, rfl, rfl⟩

/-- A new process can fork. -/
theorem Made.forkable (h : k.Allots ram) (hfiles : ∀ fd, (k.task j).ofile fd = none) (hm : Made ram k k' j t) :
    Forkable ram k' j := by
  have htask : k'.task j = t := by rw [hm.eq, setTask_self]
  have hnd := hm.trade.nodup (by simpa using h.nodup)
  refine ⟨⟨(List.nodup_append.mp hnd).1, fun q hq => ?_, fun l hl => ?_⟩, ?_, ⟨?_, ?_, ?_⟩, ?_, fun fd f hf => ?_⟩
  · exact hm.trade.all (fun p hp => h.has p (by simpa using hp)) q (List.mem_append_left _ hq)
  · have hlj : l ≠ j := by
      rintro rfl
      rw [htask, hm.proc] at hl
      cases hl
    rw [hm.eq, setTask_of_ne hlj] at hl ⊢
    exact h.blank l hl
  · rw [htask, hm.proc]
    exact nofun
  · rw [htask]
    exact fun _ => hm.has
  · rw [htask, hm.sz]
    exact fun _ => hm.space
  · rw [htask, Task.owned_of_pos hm.has.pos.ne' hm.space.root_ne, hm.sz]
    exact hnd
  · rw [htask]
    exact hm.space.root_ne
  · rw [htask, hm.ofile, hfiles] at hf
    cases hf

/-- A process that has grown can fork. -/
theorem Resized.forkable (h : Forkable ram k i) (hr : Resized ram k k' i) : Forkable ram k' i := by
  have hnd := hr.trade.nodup h.ok.nodup
  have htask : k'.task i = { k.task i with sz := (k'.task i).sz } := by
    nth_rewrite 1 [hr.eq]
    exact setTask_self
  refine ⟨⟨(List.nodup_append.mp hnd).1, fun q hq => ?_, fun l hl => ?_⟩, ?_, hr.ok, ?_, ?_⟩
  · refine hr.trade.all (fun p hp => ?_) q (List.mem_append_left _ hq)
    rcases List.mem_append.mp hp with hp | hp
    · exact h.allots.has p hp
    · exact h.ok.has p hp
  · have hli : l ≠ i := by
      rintro rfl
      rw [htask] at hl
      exact h.used hl
    rw [hr.eq, setTask_of_ne hli] at hl ⊢
    exact h.allots.blank l hl
  · rw [htask]
    exact h.used
  · rw [htask]
    exact h.pagetable
  · rw [htask, hr.eq]
    exact h.files

/-- The process in slot `i` has opened the file `f`. -/
def Kern.openFile (k : Kern) (i : Slot) (fd : Fin NOFILE) (f : Fin NFILE) : Kern :=
  { k with file := update k.file f { k.file f with ref := 1 } }.setTask i { k.task i with ofile := update (k.task i).ofile fd (some f) }

theorem Forkable.openFile (h : Forkable ram k i) (hf : (k.file f).ref = 0) : Forkable ram (k.openFile i fd f) i := by
  have htask : (k.openFile i fd f).task i = { k.task i with ofile := update (k.task i).ofile fd (some f) } := setTask_self
  refine ⟨⟨h.allots.nodup, h.allots.has, fun l hl => ?_⟩, ?_, ?_, ?_, fun fd' g hg => ?_⟩
  · have hli : l ≠ i := by
      rintro rfl
      rw [htask] at hl
      exact h.used hl
    rw [Kern.openFile, setTask_of_ne hli] at hl ⊢
    exact h.allots.blank l hl
  · rw [htask]
    exact h.used
  · rw [htask]
    exact ⟨h.ok.trapframe, h.ok.space, h.ok.nodup⟩
  · rw [htask]
    exact h.pagetable
  · rw [htask] at hg
    show 1 ≤ (update k.file f { k.file f with ref := 1 } g).ref ∧ (update k.file f { k.file f with ref := 1 } g).ref + NOFILE ≤ intMax
    by_cases hgf : g = f
    · rw [hgf, update_self]
      exact ⟨le_rfl, show (1 : ℤ) + NOFILE ≤ intMax by decide⟩
    · have hfd : fd' ≠ fd := by
        rintro rfl
        simp [Ne.symm hgf] at hg
      simp only [update_of_ne hfd] at hg
      rw [update_of_ne hgf]
      exact h.files fd' g hg

/-- The first process grows by two pages and opens a file. -/
def firstProcess : Sys (Option Slot) := do
  let i ← allocproc smallRam
  let _ ← growproc smallRam 0 (2 * PGSIZE)
  modify fun k => k.openFile 0 0 0
  pure i

theorem forkable_firstProcess {Q : Kern → Prop} (hn : n ≤ 0x7ff0)
    (h : Ends firstProcess (bootKern n) fun r k => r = some 0 ∧ Q k) :
    ∃ k, Forkable smallRam k 0 ∧ (k.task 0).trapframe ≠ 0 ∧ k.lock = (fun _ => false) ∧ k.nextpid = 2 ∧ Q k := by
  rw [firstProcess, ends_bind] at h
  obtain ⟨r, k1, he1, hgrow⟩ := h.eval
  rw [ends_bind] at hgrow
  obtain ⟨_, k2, he2, hopen⟩ := hgrow.eval
  rw [ends_bind, ends_modify, ends_pure] at hopen
  obtain ⟨rfl, hQ⟩ := hopen
  rcases (ends_allocproc (allots_bootKern hn)).of_eval he1 with ⟨hbad, -⟩ | ⟨j, t, hj, hm⟩
  · cases hbad
  cases hj
  have h1 : Forkable smallRam k1 0 := hm.forkable (allots_bootKern hn) fun _ => rfl
  have hr := (ends_growproc h1.ok h1.pagetable).of_eval he2
  have htf : ((k2.openFile 0 0 0).task 0).trapframe = (k1.task 0).trapframe := by
    rw [Kern.openFile, setTask_self, hr.eq, setTask_self]
  refine ⟨k2.openFile 0 0 0, (hr.forkable h1).openFile ?_, ?_, ?_, ?_, hQ⟩
  · rw [hr.eq, hm.eq]
    rfl
  · rw [htf, hm.eq, setTask_self]
    exact hm.has.pos.ne'
  · rw [Kern.openFile, hr.eq, hm.eq]
    rfl
  · rw [Kern.openFile, hr.eq, hm.eq]
    rfl

set_option maxRecDepth 2048 in
/-- Two pages are copied; and a fork that has memory for one of them only. -/
theorem fork_faithful_small : (∃ σ σ' old new, uvmcopy smallRam old new (2 * PGSIZE) σ = .ok (true, σ') ∧ Mirrors σ σ' old new 2) ∧
    ∃ k k' i, Forkable smallRam k i ∧ (k.task i).sz = 2 * PGSIZE ∧ (k.task i).ofile 0 = some 0 ∧
      fork smallRam i k = .ok (-1, k') ∧ Undone k k' := by
  have hrun : (Ends firstProcess (bootKern 16) fun r k => r = some 0 ∧ ((k.task 0).sz = 2 * PGSIZE ∧
        Ends (allocproc smallRam) k fun r k1 => r = some 1 ∧
          Ends (uvmcopy smallRam (k.task 0).pagetable (k1.task 1).pagetable (2 * PGSIZE)) k1.phys fun ok _ => ok = true)) ∧
      Ends firstProcess (bootKern 15) fun r k => r = some 0 ∧ ((k.task 0).sz = 2 * PGSIZE ∧ (k.task 0).ofile 0 = some 0 ∧
        Ends (forkCopy smallRam 0) k fun ok _ => ok = false) := by
    decide +kernel
  constructor
  · obtain ⟨k, h, -, -, -, hsz, hcopy⟩ := forkable_firstProcess (by decide) hrun.1
    obtain ⟨r, k1, he, rfl, hcopy⟩ := hcopy.eval
    rcases (ends_allocproc h.allots).of_eval he with ⟨hbad, -⟩ | ⟨j, t, hj, hm⟩
    · cases hbad
    cases hj
    have htask : k1.task 1 = t := by rw [hm.eq, setTask_self]
    rw [htask] at hcopy
    obtain ⟨ok, σ', he', rfl⟩ := hcopy.eval
    obtain ⟨hok, -, -⟩ := h.ok.traded hm.trade (by simpa using h.ok.nodup) nofun
    obtain ⟨hapart, hsame⟩ := h.apart hm.trade
    rw [← hsame.map, ← hsame.pages, hsz] at hapart
    have hold := hok.space h.pagetable
    rw [hsz] at hold
    have hmirror := ((fork_faithful smallRam).1 k1.phys _ _ (2 * PGSIZE) _ _ hold hm.space fun q hq hin =>
      hapart q hq (List.mem_append_right _ (List.mem_cons_of_mem _ hin))).of_eval he' rfl
    exact ⟨k1.phys, σ', _, _, he', hmirror⟩
  · obtain ⟨k, h, -, -, hpid, hsz, hopen, hcopy⟩ := forkable_firstProcess (by decide) hrun.2
    obtain ⟨r, k', he, rfl⟩ := (fork_short h hcopy).eval
    have hundone := ((fork_faithful smallRam).2 k 0 h (by rw [hpid]; decide)).of_eval he rfl
    exact ⟨k, k', 0, h, hsz, hopen, he, hundone⟩

end Xv6Mlfq.Vm
