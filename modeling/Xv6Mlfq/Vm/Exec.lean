import Xv6Mlfq.Fs.Walk
import Xv6Mlfq.Vm.Fork
import Xv6Mlfq.Vm.Image

/-!
# Xv6Mlfq.Vm.Exec — a process gets a new program, or nothing happens

`exec` of `exec.c` and `sys_exec` of `sysfile.c`.

* `ends_exec`: either the address space of the process has been replaced by the image of the file, or everything is as before.
* `exec_failed`: a failed `exec` changes nothing.
* `exec_args`: what a successful `exec` leaves on the stack.
-/

namespace Xv6Mlfq.Vm

open Bytes Function Exec CInt Files

variable {ram : Ram} {σ σ' : Phys} {k k' : Kern} {i : Slot} {path : List UInt8} {argv : List (List UInt8)}
  {ip sz sp root addr : ℕ} {disk : Disk} {data : Frame} {pagetable : Option ℕ} {args : List ℕ}

/-! ## The code -/

/-- What `exec` finds in the file system: the inode a path leads to, and what it holds. -/
structure Disk where
  namei : List UInt8 → Option ℕ
  data : ℕ → List UInt8

/-- `begin_op`, once it need not wait for the log -/
def beginOp : Sys Unit := modify fun k => { k with outstanding := k.outstanding + 1 }

/-- `end_op`; the commit is left out. -/
def endOp : Sys Unit := modify fun k => { k with outstanding := k.outstanding - 1 }

/-- `namei`: the inode has been referred to once more. -/
def namei (disk : Disk) (path : List UInt8) : Sys (Option ℕ) := do
  match disk.namei path with
  | none => pure none
  | some ip => do
    modify fun k => { k with inode := update k.inode ip (k.inode ip + 1) }
    pure (some ip)

/-- `ilock`, which waits for the sleep-lock -/
def ilock (ip : ℕ) : Sys Unit := do
  if (← get).lock ip then throw .stuck else modify fun k => { k with lock := update k.lock ip true }

/-- `iunlockput` of an inode that has links -/
def iunlockput (ip : ℕ) : Sys Unit := do
  modify fun k => { k with lock := update k.lock ip false }
  modify fun k => { k with inode := update k.inode ip (k.inode ip - 1) }

/-- `if(pagetable) proc_freepagetable(pagetable, sz);` -/
def freeTable (ram : Ram) (sz : ℕ) : Option ℕ → Code Unit
  | none => pure ()
  | some pagetable => procFreepagetable ram pagetable sz

/-- `if(ip){ iunlockput(ip); end_op(); }` -/
def closeFile : Option ℕ → Sys Unit
  | none => pure ()
  | some ip => do
    iunlockput ip
    endOp

/-- `bad:` of `exec` -/
def execBad (ram : Ram) (pagetable : Option ℕ) (sz : ℕ) (ip : Option ℕ) : Sys ℤ := do
  onPhys (freeTable ram sz pagetable)
  closeFile ip
  pure (-1)

/-- What follows the last slash of a path: the loop over `s`, with `last` so far. -/
def lastElem : List UInt8 → List UInt8 → List UInt8
  | [], last => last
  | c :: s, last => if c = 47 then lastElem s s else lastElem s last

/-- `exec` once nothing can fail any more; the registers `a1`, `epc` and `sp` are at 120, 24 and 48 in the trapframe. -/
def execCommit (ram : Ram) (i : Slot) (path : List UInt8) (pagetable sz sp entry : ℕ) : Sys Unit := do
  let t := (← get).task i
  onPhys (store t.trapframe 120 (le 8 sp))
  modifyTask i fun t => { t with name := safestrcpy t.name (lastElem path path) 16 }
  modifyTask i fun t => { t with pagetable := pagetable, sz := sz }
  onPhys (store t.trapframe 24 (le 8 entry))
  onPhys (store t.trapframe 48 (le 8 sp))
  onPhys (procFreepagetable ram t.pagetable t.sz)

/-- `exec` by the process in slot `i` -/
def exec (ram : Ram) (disk : Disk) (i : Slot) (path : List UInt8) (argv : List (List UInt8)) : Sys ℤ := do
  beginOp
  match ← namei disk path with
  | none => do
    endOp
    pure (-1)
  | some ip => do
    ilock ip
    let data := disk.data ip
    let elf := readi data 0 sizeofElfhdr
    if elf.length ≠ sizeofElfhdr then execBad ram none 0 (some ip)
    else if (elfhdr elf).magic ≠ ELF_MAGIC then execBad ram none 0 (some ip)
    else do
      match ← onPhys (procPagetable ram ((← get).task i).trapframe) with
      | none => execBad ram none 0 (some ip)
      | some pagetable => do
        match ← onPhys (loadSegments ram pagetable data (elfhdr elf).phnum ((elfhdr elf).phoff % 2 ^ 32) 0) with
        | (false, sz) => execBad ram (some pagetable) sz (some ip)
        | (true, sz) => do
          closeFile (some ip)
          match ← onPhys (execStack ram pagetable sz argv) with
          | (sz, none) => execBad ram (some pagetable) sz none
          | (sz, some sp) => do
            execCommit ram i path pagetable sz sp (elfhdr elf).entry
            pure argv.length

def MAXPATH : ℕ := 128

/-- The loop of `sys_exec` over `uargv` from `j` on, with the places left in `argv`: whether all has been fetched, and the pages that
have been allocated. -/
def fetchArgs (i : Slot) (uargv : ℕ) : ℕ → ℕ → Sys (Bool × List ℕ)
  | 0, _ => pure (false, [])
  | left + 1, j => do
    let t := (← get).task i
    match ← onPhys (fetchaddr t.pagetable t.sz ((uargv + 8 * j) % 2 ^ 64)) with
    | none => pure (false, [])
    | some uarg =>
      if uarg = 0 then pure (true, [])
      else do
        match ← onPhys kalloc with
        | none => pure (false, [])
        | some arg => do
          let (n, buf) ← onPhys (fetchstr t.pagetable uarg PGSIZE)
          onPhys (store arg 0 buf)
          if n < 0 then pure (false, [arg])
          else do
            let (ok, rest) ← fetchArgs i uargv left (j + 1)
            pure (ok, arg :: rest)

/-- The loop of `sys_exec` that frees the arguments -/
def freeArgs (ram : Ram) : List ℕ → Sys Unit
  | [] => pure ()
  | arg :: rest => do
    onPhys (kfree ram arg)
    freeArgs ram rest

/-- `sys_exec`; its arguments are in `a0` and `a1`, at 112 and 120 in the trapframe. -/
def sysExec (ram : Ram) (disk : Disk) (i : Slot) : Sys ℤ := do
  let t := (← get).task i
  let uargv := leAt ((← get).phys.mem t.trapframe) 120 8
  let (n, path) ← onPhys (fetchstr t.pagetable (leAt ((← get).phys.mem t.trapframe) 112 8) MAXPATH)
  if n < 0 then pure (-1)
  else do
    let (ok, args) ← fetchArgs i uargv MAXARG 0
    let σ := (← get).phys
    let ret ← if ok then exec ram disk i (path.take (strlen path)) (args.map fun arg => slice (σ.mem arg) 0 PGSIZE) else pure (-1)
    freeArgs ram args
    pure ret

/-! ## The inode table -/

/-- The references to the inodes and their locks are those of `s`, on which `Fs.Inode` has these functions in full. -/
structure Kern.Sees (k : Kern) (s : Files.Tree) : Prop where
  ref : ∀ n, k.inode n = s.ref n
  lock : k.lock = s.lock

/-- The reference that `namei` returns has been taken by `iget`. -/
theorem Kern.Sees.namei {s : Files.Tree} (h : k.Sees s) : Ends (namei disk path) k fun r k' => ∀ ip ∈ r, k'.Sees (s.iget ip) := by
  unfold Vm.namei
  cases disk.namei path with
  | none =>
    rw [ends_pure]
    intro ip hip
    cases hip
  | some ip =>
    rw [ends_bind, ends_modify, ends_pure]
    rintro _ ⟨⟩
    unfold Files.Tree.iget
    split_ifs with h0 <;> refine ⟨fun n => ?_, h.lock⟩ <;> by_cases hn : n = ip <;>
      simp [Files.Tree.setRef, Files.Tree.setValid, hn, h.ref, h0]

section Sees

variable {T : Type} [DecidableEq T] [Fintype T] {g : Setup} {t : T} {s : State T}

theorem Kern.Sees.ilock (h : k.Sees s.tree) (hfree : k.lock ip = false) (htype : (s.tree.inode ip).type ≠ .none) :
    Runs g t (Files.ilock ip) (fun _ s' => Ends (ilock ip) k fun _ k' => k'.Sees s'.tree) s := by
  refine .ilock (fun _ => htype) (fun _ => htype) fun _ _ => ?_
  rw [Vm.ilock, ends_bind, ends_get, if_neg (by simp [hfree]), ends_modify]
  exact ⟨h.ref, congrArg (update · ip true) h.lock⟩

/-- `iput` does not free an inode that has a link. -/
theorem Kern.Sees.iunlockput (h : k.Sees s.tree) (hlink : (s.tree.inode ip).nlink ≠ 0) :
    Runs g t (Files.iunlockput ip) (fun _ s' => Ends (iunlockput ip) k fun _ k' => k'.Sees s'.tree) s := by
  refine .bind (.tree fun _ c => ?_)
  by_cases hc : s.tree.lock ip = false ∨ s.tree.ref ip < 1
  · exact ⟨_, if_pos hc, fun _ => nofun⟩
  refine ⟨_, if_neg hc, .bind (.tree fun _ c' => ⟨_, if_neg fun h0 => hlink h0.2.2, .pure ?_⟩)⟩
  rw [Vm.iunlockput, ends_bind, ends_modify, ends_modify]
  refine ⟨fun n => ?_, congrArg (update · ip false) h.lock⟩
  by_cases hn : n = ip
  · simp [Files.Tree.setRef, Files.Tree.setLock, hn, h.ref]
    omega
  · simp [Files.Tree.setRef, Files.Tree.setLock, hn, h.ref]

end Sees

/-! ## Failure -/

/-- What `exec` finds: the process has an address space and a trapframe, and no inode is locked. -/
structure Ready (ram : Ram) (k : Kern) (i : Slot) : Prop where
  has : ∀ q ∈ k.phys.free, ram.Has q
  ok : (k.task i).Ok ram k.phys
  pagetable : (k.task i).pagetable ≠ 0
  trapframe : (k.task i).trapframe ≠ 0
  unlocked : ∀ ip, k.lock ip = false

theorem Ready.nodup (h : Ready ram k i) : k.phys.free.Nodup := (List.nodup_append.mp h.ok.nodup).1

/-- The state while `exec` has the file open and locked. -/
def Kern.hold (k : Kern) (ip : ℕ) : Kern :=
  { k with outstanding := k.outstanding + 1, inode := update k.inode ip (k.inode ip + 1), lock := update k.lock ip true }

@[simp] theorem hold_phys : (k.hold ip).phys = k.phys := rfl

@[simp] theorem hold_task : (k.hold ip).task = k.task := rfl

/-- `iunlockput` and `end_op` undo what `begin_op`, `namei` and `ilock` have done. -/
theorem ends_closeFile {Q : Unit → Kern → Prop} (h : k.lock ip = false) (hQ : Q () (k.setPhys σ)) :
    Ends (closeFile (some ip)) ((k.hold ip).setPhys σ) Q := by
  rw [closeFile, ends_bind, iunlockput, ends_bind, ends_modify, ends_modify, endOp, ends_modify]
  have hlock : update (update k.lock ip true) ip false = k.lock := by rw [update_idem, ← h, update_eq_self]
  have hinode : update (update k.inode ip (k.inode ip + 1)) ip (update k.inode ip (k.inode ip + 1) ip - 1) = k.inode := by
    rw [update_idem, update_self, Int.add_sub_cancel, update_eq_self]
  have hback : k.setPhys σ = { (k.hold ip).setPhys σ with
      lock := update (update k.lock ip true) ip false
      inode := update (update k.inode ip (k.inode ip + 1)) ip (update k.inode ip (k.inode ip + 1) ip - 1)
      outstanding := k.outstanding + 1 - 1 } := by
    rw [hlock, hinode, Int.add_sub_cancel]
    rfl
  exact hback ▸ hQ

/-! ## Success -/

section Commit

variable {root sz sp entry : ℕ}

/-- The registers that `exec` sets. -/
def setRegs (data : Frame) (sp entry : ℕ) : Frame := setLe (setLe (setLe data 120 8 sp) 24 8 entry) 48 8 sp

theorem leAt_setRegs (hsp : sp < 2 ^ 64) :
    leAt (setRegs data sp entry) 120 8 = sp ∧ leAt (setRegs data sp entry) 48 8 = sp := by
  refine ⟨?_, leAt_setLe_self hsp⟩
  rw [setRegs, leAt_setLe_of_disjoint (by omega), leAt_setLe_of_disjoint (by omega)]
  exact leAt_setLe_self hsp

/-- The old address space is freed beside the new one, once the trapframe has been written. -/
theorem Image.ends_replace {σ0 : Phys} {old new m n tf : ℕ} (h : Image ram σ0 σ new n tf) (hold : Space ram σ0 old m tf)
    (hnd : (σ0.free ++ (tf :: (frames (σ0.map old) 0 m ++ σ0.pages 2 old))).Nodup) (hm : m = pagesOf sz) (htf : ram.Has tf) :
    Ends (procFreepagetable ram old sz) (σ.setPage tf data) fun _ σ' => Space ram σ' new n tf ∧ SameSpace σ σ' new n ∧
      Trade σ0 σ' (tf :: (frames (σ0.map old) 0 m ++ σ0.pages 2 old)) (tf :: (frames (σ'.map new) 0 n ++ σ'.pages 2 new)) ∧
      σ'.mem tf = data := by
  obtain ⟨xs, hxs⟩ : ∃ xs, xs = frames (σ0.map old) 0 m ++ σ0.pages 2 old := ⟨_, rfl⟩
  obtain ⟨ys, hys⟩ : ∃ ys, ys = frames (σ.map new) 0 n ++ σ.pages 2 new := ⟨_, rfl⟩
  obtain ⟨σ1, hσ1⟩ : ∃ σ1, σ1 = σ.setPage tf data := ⟨_, rfl⟩
  have hwrite : Trade σ σ1 [tf] [tf] := hσ1 ▸ Trade.setPage List.mem_cons_self
  have hone : ∀ q ∈ [tf], ram.Has q := fun q hq => List.mem_singleton.mp hq ▸ htf
  have htrade : Trade σ0 σ1 [tf] (tf :: ys) := by
    have hnew := h.trade.frame_left [tf]
    rw [← hys] at hnew
    exact hnew.trans hwrite.frame
  rw [← hxs] at hnd
  have hnd1 : (σ1.free ++ (tf :: ys ++ xs)).Nodup := htrade.frame.nodup hnd
  have hnd2 : (σ.free ++ ([tf] ++ (frames (σ.map new) 0 n ++ σ.pages 2 new))).Nodup := by
    refine (h.trade.frame_left [tf]).nodup (hnd.sublist ?_)
    exact (List.Sublist.refl _).append ((List.nil_sublist xs).cons_cons tf)
  obtain ⟨hold1, hpages1, hmap1, -⟩ := hold.traded htrade (hxs ▸ hnd) hone
  obtain ⟨hnew1, hpages2, hmap2, hmem2⟩ := h.space.traded hwrite hnd2 hone
  have hhas : ∀ q ∈ xs, ram.Has q := by
    rw [hxs]
    intro q hq
    rcases List.mem_append.mp hq with hq | hq
    · exact hold.user.has q hq
    · exact hold.user.tree.has q (List.mem_append_right _ hq)
  have hnd3 : (σ1.free ++ (xs ++ ys)).Nodup := by
    have hsub : (σ1.free ++ (ys ++ xs)).Nodup := hnd1.sublist ((List.Sublist.refl _).append (List.sublist_cons_self tf _))
    exact (List.perm_append_comm.append_left _).nodup_iff.mp hsub
  have htf1 : tf ∉ σ1.free ++ xs := by
    have hmid : (tf :: (σ1.free ++ (ys ++ xs))).Nodup := List.perm_middle.nodup_iff.mp hnd1
    intro hin
    refine (List.nodup_cons.mp hmid).1 ?_
    rcases List.mem_append.mp hin with hin | hin
    · exact List.mem_append_left _ hin
    · exact List.mem_append_right _ (List.mem_append_right _ hin)
  rw [← hσ1]
  refine (ends_procFreepagetable hold1 hm).mono fun _ σ2 hfree => ?_
  rw [hmap1, hpages1, ← hxs] at hfree
  obtain ⟨hnew2, hpages3, hmap3, hmem3⟩ := hnew1.traded hfree (by rwa [hmap2, hpages2, ← hys]) hhas
  refine ⟨hnew2, ⟨hmap3.trans hmap2, hpages3.trans hpages2, fun f hf => ?_⟩, ?_, ?_⟩
  · rw [hmem3 f (hmap2.symm ▸ hf), hmem2 f hf]
  · rw [hmap3, hmap2, hpages3, hpages2, ← hxs, ← hys]
    have hall := htrade.frame.trans (hfree.frame_left (tf :: ys))
    rwa [List.append_nil] at hall
  · rw [hfree.mem tf htf1, hσ1, mem_setPage_self]

/-- The process has the new address space, and the old one has been freed. -/
structure Committed (ram : Ram) (k : Kern) (i : Slot) (σ σ' : Phys) (root sz sp : ℕ) : Prop where
  space : Space ram σ' root (pagesOf sz) (k.task i).trapframe
  same : SameSpace σ σ' root (pagesOf sz)
  trade : Trade k.phys σ' ((k.task i).owned k.phys)
    ((k.task i).trapframe :: (frames (σ'.map root) 0 (pagesOf sz) ++ σ'.pages 2 root))
  regs : sp < 2 ^ 64 → leAt (σ'.mem (k.task i).trapframe) 120 8 = sp ∧ leAt (σ'.mem (k.task i).trapframe) 48 8 = sp

theorem ends_execCommit (h : Ready ram k i) (himage : Image ram k.phys σ root (pagesOf sz) (k.task i).trapframe) :
    Ends (execCommit ram i path root sz sp entry) (k.setPhys σ) fun _ k' => ∃ σ', Committed ram k i σ σ' root sz sp ∧
      k' = (k.setPhys σ').setTask i
        { k.task i with pagetable := root, sz := sz, name := safestrcpy (k.task i).name (lastElem path path) 16 } := by
  have howned := Task.owned_of_pos (σ := k.phys) h.trapframe h.pagetable
  have hnd := h.ok.nodup
  rw [howned] at hnd
  have hwrite : ∀ d d', (σ.setPage (k.task i).trapframe d).setPage (k.task i).trapframe d' = σ.setPage (k.task i).trapframe d' := by
    intro d d'
    rw [Phys.setPage, Phys.setPage, Phys.setPage, update_idem]
  rw [execCommit, ends_bind, ends_get, ends_bind, ends_onPhys, ends_store, ends_bind, ends_modifyTask, ends_bind, ends_modifyTask,
    ends_bind, ends_onPhys, ends_store, ends_bind, ends_onPhys, ends_store, ends_onPhys]
  simp only [setPhys_phys, setPhys_task, setTask_phys, setTask_self, setTask_setPhys, setTask_setTask, setPhys_setPhys,
    mem_setPage_self, hwrite]
  refine (himage.ends_replace (h.ok.space h.pagetable) hnd rfl (h.ok.trapframe h.trapframe)).mono fun _ σ' hr => ?_
  obtain ⟨hspace, hsame, htrade, hmem⟩ := hr
  refine ⟨σ', ⟨hspace, hsame, howned ▸ htrade, fun hsp => ?_⟩, rfl⟩
  rw [hmem]
  exact leAt_setRegs hsp

end Commit

/-! ## `exec` -/

/-- Pages have been taken and given back. -/
def Restored (k k' : Kern) : Prop := ∃ σ', Trade k.phys σ' [] [] ∧ k' = k.setPhys σ'

/-- The process has a new program, with its arguments. -/
structure Execed (ram : Ram) (k k' : Kern) (i : Slot) (path : List UInt8) (argv : List (List UInt8)) : Prop where
  rest : k' = (k.setPhys k'.phys).setTask i (k'.task i)
  task : k'.task i = { k.task i with
    pagetable := (k'.task i).pagetable, sz := (k'.task i).sz, name := safestrcpy (k.task i).name (lastElem path path) 16 }
  space : Space ram k'.phys (k'.task i).pagetable (pagesOf (k'.task i).sz) (k.task i).trapframe
  trade : Trade k.phys k'.phys ((k.task i).owned k.phys) ((k'.task i).owned k'.phys)
  args : Strings argv → argv.length < MAXARG → ∃ sp ptr,
    ArgStack (k'.phys.user (k'.task i).pagetable) (k'.task i).sz sp argv ptr ∧
    leAt (k'.phys.mem (k.task i).trapframe) 120 8 = sp ∧ leAt (k'.phys.mem (k.task i).trapframe) 48 8 = sp

theorem ArgStack.congr {user user' : ℕ → UInt8} {ptr : ℕ → ℕ} (h : ArgStack user sz sp argv ptr)
    (heq : ∀ a < sz, user' a = user a) : ArgStack user' sz sp argv ptr where
  aligned := h.aligned
  inside := h.inside
  word := by
    intro i hi
    have := h.inside
    rw [← h.word i hi]
    exact leAt_congr fun j hj => heq _ (by omega)
  null := by
    have := h.inside
    rw [← h.null]
    exact leAt_congr fun j hj => heq _ (by omega)
  copy := by
    intro i arg hget
    have := h.above i arg hget
    rw [← h.copy i arg hget]
    exact slice_congr fun j hj => heq _ (by omega)
  above := h.above
  apart := h.apart

/-- The address space with the arguments is the process's. -/
theorem Committed.execed (h : Committed ram k i σ σ' root sz sp) (htf : (k.task i).trapframe ≠ 0)
    (hargs : Strings argv → argv.length < MAXARG → ∀ sp', some sp = some sp' → ∃ ptr, ArgStack (σ.user root) sz sp' argv ptr)
    (hk : k' = (k.setPhys σ').setTask i
      { k.task i with pagetable := root, sz := sz, name := safestrcpy (k.task i).name (lastElem path path) 16 }) :
    Execed ram k k' i path argv := by
  have htask : k'.task i = { k.task i with
      pagetable := root, sz := sz, name := safestrcpy (k.task i).name (lastElem path path) 16 } := by rw [hk, setTask_self]
  have hphys : k'.phys = σ' := by rw [hk, setTask_phys, setPhys_phys]
  refine ⟨?_, ?_, ?_, ?_, fun hstrings hlen => ?_⟩
  · rw [htask, hphys]
    exact hk
  · rw [htask]
  · rw [htask, hphys]
    exact h.space
  · have howned : (k'.task i).owned σ' = (k.task i).trapframe :: (frames (σ'.map root) 0 (pagesOf sz) ++ σ'.pages 2 root) := by
      rw [htask]
      exact Task.owned_of_pos htf h.space.root_ne
    rw [hphys, howned]
    exact h.trade
  · obtain ⟨ptr, hstack⟩ := hargs hstrings hlen sp rfl
    have hle := le_pagesOf sz
    have htop := h.space.user.le
    have hinside := hstack.inside
    have hsp : sp < 2 ^ 64 := by
      simp only [PGSIZE] at *
      omega
    rw [htask, hphys]
    exact ⟨sp, ptr, hstack.congr fun a ha => h.same.user (by omega), h.regs hsp⟩

theorem ends_execBad {ip : ℕ} (h : k.lock ip = false)
    (hfree : Ends (freeTable ram sz pagetable) σ fun _ σ' => Trade k.phys σ' [] []) :
    Ends (execBad ram pagetable sz (some ip)) ((k.hold ip).setPhys σ) fun r k' => r = -1 ∧ Restored k k' := by
  rw [execBad, ends_bind, ends_onPhys]
  refine hfree.mono fun _ σ' ht => ?_
  rw [ends_bind]
  exact ends_closeFile h (ends_pure.mpr ⟨rfl, σ', ht, rfl⟩)

theorem ends_exec (h : Ready ram k i) : Ends (exec ram disk i path argv) k fun r k' =>
    (r = -1 ∧ Restored k k') ∨ (r = argv.length ∧ Execed ram k k' i path argv) := by
  rw [exec, ends_bind, beginOp, ends_modify, ends_bind, namei]
  cases disk.namei path with
  | none =>
    rw [ends_pure, endOp, ends_bind, ends_modify, ends_pure]
    refine .inl ⟨rfl, k.phys, Trade.refl, ?_⟩
    rw [setPhys_self, Int.add_sub_cancel]
  | some ip =>
    dsimp only
    rw [ends_bind, ends_modify, ends_pure]
    dsimp only
    rw [ends_bind, ilock, ends_bind, ends_get, if_neg (by simp [h.unlocked ip]), ends_modify]
    have hbad : ∀ {σ : Phys} {pagetable : Option ℕ} {sz : ℕ},
        Ends (freeTable ram sz pagetable) σ (fun _ σ' => Trade k.phys σ' [] []) →
        Ends (execBad ram pagetable sz (some ip)) ((k.hold ip).setPhys σ) fun r k' =>
          (r = -1 ∧ Restored k k') ∨ (r = argv.length ∧ Execed ram k k' i path argv) :=
      fun hfree => (ends_execBad (h.unlocked ip) hfree).mono fun _ _ hr => .inl hr
    have hopen : Ends (execBad ram none 0 (some ip)) (k.hold ip) fun r k' =>
        (r = -1 ∧ Restored k k') ∨ (r = argv.length ∧ Execed ram k k' i path argv) := hbad (ends_pure.mpr Trade.refl)
    obtain ⟨k1, hk1⟩ : ∃ k1, k1 = k.hold ip := ⟨_, rfl⟩
    obtain ⟨elf, helf⟩ : ∃ elf, elf = readi (disk.data ip) 0 sizeofElfhdr := ⟨_, rfl⟩
    show Ends _ (k.hold ip) _
    rw [← hk1] at hopen ⊢
    rw [← helf]
    by_cases hlen : elf.length ≠ sizeofElfhdr
    · rw [if_pos hlen]
      exact hopen
    rw [if_neg hlen]
    by_cases hmagic : (elfhdr elf).magic ≠ ELF_MAGIC
    · rw [if_pos hmagic]
      exact hopen
    rw [if_neg hmagic, ends_bind, ends_get, ends_bind, ends_onPhys, hk1, hold_phys, hold_task]
    refine (ends_procPagetable h.nodup h.has (h.ok.trapframe h.trapframe).lt).mono fun r σ1 hr => ?_
    rcases hr with ⟨rfl, ht⟩ | ⟨root, rfl, hspace, ht⟩
    · exact hbad (ends_pure.mpr ht)
    have himage : Image ram k.phys σ1 root 0 (k.task i).trapframe := ⟨hspace, ht⟩
    dsimp only
    rw [ends_bind, ends_onPhys, setPhys_phys]
    refine (ends_loadSegments himage rfl nofun).mono fun r σ2 himage2 => ?_
    match r with
    | (false, sz) => exact hbad (himage2.ends_free rfl)
    | (true, sz) =>
      dsimp only
      rw [ends_bind]
      refine ends_closeFile (h.unlocked ip) ?_
      rw [ends_bind, ends_onPhys, setPhys_phys]
      refine (ends_execStack himage2 rfl).mono fun r σ3 h3 => ?_
      obtain ⟨himage3, hargs⟩ := h3
      match r with
      | (sz, none) =>
        dsimp only
        rw [setPhys_setPhys, execBad, ends_bind, ends_onPhys, setPhys_phys]
        refine (himage3.ends_free rfl).mono fun _ σ' ht => ?_
        rw [ends_bind, closeFile, ends_pure, ends_pure]
        exact .inl ⟨rfl, σ', ht, rfl⟩
      | (sz, some sp) =>
        dsimp only
        rw [setPhys_setPhys, ends_bind]
        refine (ends_execCommit h himage3).mono fun _ k' hk' => ?_
        obtain ⟨σ', hc, heq⟩ := hk'
        exact ends_pure.mpr (.inr ⟨rfl, hc.execed h.trapframe hargs heq⟩)

/-! ## `sys_exec` -/

/-- What others trade does not matter. -/
theorem Ready.traded {xs ys : List ℕ} (h : Ready ram k i) (ht : Trade k.phys σ' xs ys) (hnd : (k.phys.free ++ (xs ++ (k.task i).owned k.phys)).Nodup)
    (hhas : ∀ q ∈ xs, ram.Has q) : Ready ram (k.setPhys σ') i where
  has := by
    refine fun q hq => ht.all (fun p hp => ?_) q (List.mem_append_left _ hq)
    rcases List.mem_append.mp hp with hp | hp
    · exact h.has p hp
    · exact hhas p hp
  ok := (h.ok.traded ht hnd hhas).1
  pagetable := h.pagetable
  trapframe := h.trapframe
  unlocked := h.unlocked

theorem Execed.trapframe (he : Execed ram k k' i path argv) : (k'.task i).trapframe = (k.task i).trapframe := by rw [he.task]

theorem Execed.owned (h : Ready ram k i) (he : Execed ram k k' i path argv) : (k'.task i).owned k'.phys = (k.task i).trapframe ::
    (frames (k'.phys.map (k'.task i).pagetable) 0 (pagesOf (k'.task i).sz) ++ k'.phys.pages 2 (k'.task i).pagetable) := by
  have htf := he.trapframe
  rw [Task.owned_of_pos (htf ▸ h.trapframe) he.space.root_ne, htf]

/-- The process is ready again. -/
theorem Execed.ready (h : Ready ram k i) (he : Execed ram k k' i path argv) : Ready ram k' i where
  has := by
    refine fun q hq => he.trade.all (fun p hp => ?_) q (List.mem_append_left _ hq)
    rcases List.mem_append.mp hp with hp | hp
    · exact h.has p hp
    · exact h.ok.has p hp
  ok := by
    refine ⟨fun _ => ?_, fun _ => ?_, he.trade.nodup h.ok.nodup⟩
    · rw [he.trapframe]
      exact h.ok.trapframe h.trapframe
    · rw [he.trapframe]
      exact he.space
  pagetable := he.space.root_ne
  trapframe := by
    rw [he.trapframe]
    exact h.trapframe
  unlocked := by
    rw [he.rest]
    exact h.unlocked

/-- The pages of the arguments are freed after an `exec` that has succeeded. -/
theorem Execed.framed {σ1 σ2 : Phys} (h : Ready ram k i) (h1 : Trade k.phys σ1 [] args)
    (he : Execed ram (k.setPhys σ1) k' i path argv) (h2 : Trade k'.phys σ2 args []) : Execed ram k (k'.setPhys σ2) i path argv := by
  have hhas : ∀ q ∈ args, ram.Has q := fun q hq => h1.all (fun p hp => h.has p (by simpa using hp)) q (List.mem_append_right _ hq)
  have hready1 : Ready ram (k.setPhys σ1) i := h.traded h1 (by simpa using h.ok.nodup) nofun
  obtain ⟨-, howned1, -⟩ := h.ok.traded h1 (by simpa using h.ok.nodup) nofun
  have htrade1 : Trade k.phys σ1 ((k.task i).owned k.phys) (args ++ (k.task i).owned k.phys) := h1.frame
  have htrade2 : Trade σ1 k'.phys (args ++ (k.task i).owned k.phys) (args ++ (k'.task i).owned k'.phys) :=
    howned1 ▸ he.trade.frame_left args
  have hready2 := he.ready hready1
  obtain ⟨hok, howned2, hmem⟩ := hready2.ok.traded h2 (htrade2.nodup (htrade1.nodup h.ok.nodup)) hhas
  have hsame : SameSpace k'.phys σ2 (k'.task i).pagetable (pagesOf (k'.task i).sz) := by
    refine SameSpace.of_mem fun q hq => hmem q ?_
    rw [he.owned hready1]
    exact List.mem_cons_of_mem _ hq
  have htf : σ2.mem (k.task i).trapframe = k'.phys.mem (k.task i).trapframe := by
    refine hmem _ ?_
    rw [he.owned hready1]
    exact List.mem_cons_self
  refine ⟨?_, he.task, ?_, ?_, fun hstrings hlen => ?_⟩
  · have hrest := congrArg (Kern.setPhys · σ2) he.rest
    simpa using hrest
  · have hspace := hok.space hready2.pagetable
    rwa [he.trapframe] at hspace
  · rw [setPhys_task, setPhys_phys, howned2]
    exact (htrade1.trans htrade2).trans h2.frame
  · obtain ⟨sp, ptr, hstack, hregs⟩ := he.args hstrings hlen
    have hle := le_pagesOf (k'.task i).sz
    rw [setPhys_task, setPhys_phys, htf]
    exact ⟨sp, ptr, hstack.congr fun a ha => hsame.user (by omega), hregs⟩

theorem ends_freeArgs (h : ∀ q ∈ args, ram.Has q) : Ends (freeArgs ram args) k fun _ k' =>
    ∃ σ', Trade k.phys σ' args [] ∧ k' = k.setPhys σ' := by
  induction args generalizing k with
  | nil => exact ends_pure.mpr ⟨k.phys, Trade.refl, rfl⟩
  | cons arg rest ih =>
    rw [freeArgs, ends_bind, ends_onPhys]
    refine ends_kfree (h arg List.mem_cons_self) fun σ1 h1 => ?_
    refine (ih fun q hq => h q (List.mem_cons_of_mem _ hq)).mono fun _ k' hk' => ?_
    obtain ⟨σ2, h2, rfl⟩ := hk'
    exact ⟨σ2, h1.frame.trans h2, rfl⟩

/-- The pages with the arguments have been allocated; if all have been fetched, there are strings in them. -/
structure Fetches (k k' : Kern) (left : ℕ) (ok : Bool) (args : List ℕ) : Prop where
  rest : k' = k.setPhys k'.phys
  trade : Trade k.phys k'.phys [] args
  strings : ok = true → args.length < left ∧ ∀ arg ∈ args, 0 ∈ slice (k'.phys.mem arg) 0 PGSIZE

theorem ends_fetchaddr (hpos : ∀ u, σ.Reads root u → σ.frame root u ≠ 0) :
    Ends (fetchaddr root sz addr) σ fun _ σ' => σ' = σ := by
  rw [fetchaddr]
  split_ifs
  · exact ends_pure.mpr rfl
  · rw [ends_bind]
    refine (ends_copyin hpos).mono fun r σ' hr => ?_
    obtain ⟨rfl, -⟩ := hr
    match r with
    | (true, bs) => exact ends_pure.mpr rfl
    | (false, bs) => exact ends_pure.mpr rfl

/-- A string that has been fetched fits, and has a NUL. -/
theorem ends_fetchstr {max : ℕ} : Ends (fetchstr root addr max) σ fun r σ' =>
    σ' = σ ∧ r.2.length ≤ max ∧ (0 ≤ r.1 → 0 ∈ r.2) := by
  rw [fetchstr, copyinstr, ends_bind]
  refine (ends_copyinstrLoop le_rfl).mono fun r σ' hr => ?_
  obtain ⟨rfl, n, hn⟩ := hr
  obtain ⟨ok, bs⟩ := r
  cases ok with
  | true =>
    obtain ⟨hlt, -, hzero, hbs⟩ := hn.found rfl
    change bs = _ at hbs
    have hlen : bs.length = n + 1 := (congrArg List.length hbs).trans length_slice
    have hmem : σ'.user root (addr + n) ∈ bs := hbs ▸ List.mem_map_of_mem (List.mem_range.mpr (Nat.lt_succ_self n))
    refine ends_pure.mpr ⟨rfl, ?_, fun _ => hzero ▸ hmem⟩
    show bs.length ≤ max
    omega
  | false =>
    obtain ⟨-, hbs⟩ := hn.stopped rfl
    have hlen : bs.length = n := (congrArg List.length hbs).trans length_slice
    refine ends_pure.mpr ⟨rfl, hlen.le.trans hn.le, fun hneg => ?_⟩
    have hbad : (0 : ℤ) ≤ -1 := hneg
    omega

theorem zero_mem_slice {buf : List UInt8} (h : 0 ∈ buf) (hlen : buf.length ≤ PGSIZE) :
    0 ∈ slice (splice data 0 buf) 0 PGSIZE := by
  obtain ⟨j, hj, hget⟩ := List.mem_iff_getElem.mp h
  have hin : splice data 0 buf (0 + j) = 0 := by
    rw [splice_inside hj, List.getD_eq_getElem?_getD, List.getElem?_eq_getElem hj, hget]
    rfl
  rw [← hin]
  exact List.mem_map_of_mem (List.mem_range.mpr (by omega))

theorem ends_fetchArgs {uargv left j n tf : ℕ} (h : Space ram k.phys (k.task i).pagetable n tf) :
    Ends (fetchArgs i uargv left j) k fun r k' => Fetches k k' left r.1 r.2 := by
  induction left generalizing j k with
  | zero => exact ends_pure.mpr ⟨rfl, Trade.refl, nofun⟩
  | succ left ih =>
    rw [fetchArgs, ends_bind, ends_get, ends_bind, ends_onPhys]
    refine (ends_fetchaddr h.userPages.pos).mono fun r σ hσ => ?_
    rw [hσ, setPhys_self]
    cases r with
    | none => exact ends_pure.mpr ⟨rfl, Trade.refl, nofun⟩
    | some uarg =>
      dsimp only
      by_cases hz : uarg = 0
      · rw [if_pos hz]
        exact ends_pure.mpr ⟨rfl, Trade.refl, fun _ => ⟨Nat.succ_pos left, nofun⟩⟩
      rw [if_neg hz, ends_bind, ends_onPhys]
      refine ends_kalloc (fun σ1 h1 => ends_pure.mpr ⟨rfl, h1, nofun⟩) fun arg σ1 harg h1 => ?_
      dsimp only
      rw [ends_bind, ends_onPhys, setPhys_phys]
      refine ends_fetchstr.mono fun r σ hr => ?_
      obtain ⟨rfl, hlen, hnul⟩ := hr
      rw [ends_bind, ends_onPhys, ends_store]
      simp only [setPhys_phys, setPhys_setPhys]
      obtain ⟨σ2, hσ2⟩ : ∃ σ2, σ2 = σ.setPage arg (splice (σ.mem arg) 0 r.2) := ⟨_, rfl⟩
      rw [← hσ2]
      have htrade : Trade k.phys σ2 [] [arg] := h1.trans (hσ2 ▸ Trade.setPage List.mem_cons_self)
      by_cases hneg : r.1 < 0
      · rw [if_pos hneg]
        exact ends_pure.mpr ⟨rfl, htrade, nofun⟩
      · obtain ⟨hspace, -⟩ := h.traded htrade h.user.nodup nofun
        have hnot : arg ∉ σ2.free ++ [] := by
          have hnd := htrade.nodup (by simpa using (List.nodup_append.mp h.user.nodup).1)
          rw [List.append_nil]
          exact fun hin => List.disjoint_of_nodup_append hnd hin (List.mem_cons_self)
        rw [if_neg hneg, ends_bind]
        refine (ih hspace).mono fun r' k' hr' => ends_pure.mpr ⟨hr'.rest, htrade.trans (hr'.trade.frame_left [arg]), fun hok => ?_⟩
        obtain ⟨hshort, hstrings⟩ := hr'.strings hok
        refine ⟨by simpa using hshort, fun q hq => ?_⟩
        rcases List.mem_cons.mp hq with rfl | hq
        · rw [hr'.trade.mem q hnot, setPhys_phys, hσ2, mem_setPage_self]
          exact zero_mem_slice (hnul (by omega)) hlen
        · exact hstrings q hq

theorem strlen_lt {s : List UInt8} (h : 0 ∈ s) : strlen s < s.length := by
  have hle := length_take_strlen h
  rw [List.length_take] at hle
  omega

/-- `sys_exec` fetches the arguments and passes them to `exec`, and frees them. -/
theorem ends_sysExec (h : Ready ram k i) : Ends (sysExec ram disk i) k fun r k' =>
    (r = -1 ∧ Restored k k') ∨
      ∃ path argv, Strings argv ∧ argv.length < MAXARG ∧ r = argv.length ∧ Execed ram k k' i path argv := by
  rw [sysExec, ends_bind, ends_get, ends_bind, ends_get, ends_bind, ends_get, ends_bind, ends_onPhys]
  refine ends_fetchstr.mono fun r σ hr => ?_
  obtain ⟨hσ, -, -⟩ := hr
  rw [hσ, setPhys_self]
  match r with
  | (n, path) =>
    dsimp only
    by_cases hneg : n < 0
    · rw [if_pos hneg]
      exact ends_pure.mpr (.inl ⟨rfl, k.phys, Trade.refl, rfl⟩)
    rw [if_neg hneg, ends_bind]
    refine (ends_fetchArgs (h.ok.space h.pagetable)).mono fun r k1 hf => ?_
    match r with
    | (ok, args) =>
      obtain ⟨hrest, htrade, hstrings⟩ := hf
      have hhas : ∀ q ∈ args, ram.Has q := fun q hq =>
        htrade.all (fun p hp => h.has p (by simpa using hp)) q (List.mem_append_right _ hq)
      dsimp only
      rw [ends_bind, ends_get]
      cases ok with
      | false =>
        rw [if_neg (by decide), ends_bind, ends_pure, ends_bind]
        refine (ends_freeArgs hhas).mono fun _ k2 hk2 => ?_
        obtain ⟨σ2, h2, rfl⟩ := hk2
        refine ends_pure.mpr (.inl ⟨rfl, σ2, htrade.trans h2, ?_⟩)
        rw [hrest, setPhys_setPhys]
      | true =>
        obtain ⟨hlen, hnul⟩ := hstrings rfl
        have hready : Ready ram k1 i := by
          rw [hrest]
          exact h.traded htrade (by simpa using h.ok.nodup) nofun
        rw [if_pos rfl, ends_bind]
        refine (ends_exec hready).mono fun r k2 hr => ?_
        rw [ends_bind]
        refine (ends_freeArgs hhas).mono fun _ k3 hk3 => ?_
        obtain ⟨σ3, h3, rfl⟩ := hk3
        rw [ends_pure]
        rcases hr with ⟨rfl, σ2, h2, rfl⟩ | ⟨rfl, he⟩
        · refine .inl ⟨rfl, σ3, htrade.trans (h2.frame.trans h3), ?_⟩
          rw [hrest, setPhys_setPhys, setPhys_setPhys]
        · refine .inr ⟨path.take (strlen path), _, fun arg harg => ?_, ?_, rfl, ?_⟩
          · obtain ⟨q, hq, rfl⟩ := List.mem_map.mp harg
            have hlt := strlen_lt (hnul q hq)
            rw [length_slice] at hlt
            exact ⟨hnul q hq, hlt⟩
          · rw [List.length_map]
            exact hlen
          · rw [hrest] at he
            exact Execed.framed h htrade he h3

/-! ## What the caller sees -/

/-- Nothing that the process can see has changed, all pages that were free are free, and nothing has been left open. -/
structure Unchanged (k k' : Kern) (i : Slot) : Prop where
  task : k'.task = k.task
  map : k'.phys.map (k.task i).pagetable = k.phys.map (k.task i).pagetable
  user : ∀ a < pagesOf (k.task i).sz * PGSIZE, k'.phys.user (k.task i).pagetable a = k.phys.user (k.task i).pagetable a
  trapframe : k'.phys.mem (k.task i).trapframe = k.phys.mem (k.task i).trapframe
  free : k'.phys.free.Perm k.phys.free
  lock : k'.lock = k.lock
  inode : k'.inode = k.inode
  outstanding : k'.outstanding = k.outstanding

theorem Restored.unchanged (h : Ready ram k i) (hr : Restored k k') : Unchanged k k' i := by
  obtain ⟨σ', ht, rfl⟩ := hr
  obtain ⟨-, -, hmem⟩ := h.ok.traded ht (by simpa using h.ok.nodup) nofun
  have howned := Task.owned_of_pos (σ := k.phys) h.trapframe h.pagetable
  rw [howned] at hmem
  have hsame : SameSpace k.phys σ' (k.task i).pagetable (pagesOf (k.task i).sz) :=
    SameSpace.of_mem fun q hq => hmem q (List.mem_cons_of_mem _ hq)
  exact ⟨rfl, hsame.map, fun a => hsame.user, hmem _ List.mem_cons_self, by simpa using ht.perm, rfl, rfl, rfl⟩

/-- **A failed `exec` changes nothing**, whatever the file holds, whatever the arguments are and wherever memory runs out. -/
theorem exec_failed (h : Ready ram k i) (disk : Disk) :
    (∀ path argv, Ends (exec ram disk i path argv) k fun r k' => r = -1 → Unchanged k k' i) ∧
      Ends (sysExec ram disk i) k fun r k' => r = -1 → Unchanged k k' i := by
  refine ⟨fun path argv => (ends_exec h).mono fun r k' hr hbad => ?_, (ends_sysExec h).mono fun r k' hr hbad => ?_⟩
  · rcases hr with ⟨-, hr⟩ | ⟨hr, -⟩
    · exact hr.unchanged h
    · omega
  · rcases hr with ⟨-, hr⟩ | ⟨_, _, -, -, hr, -⟩
    · exact hr.unchanged h
    · omega

/-- What `exec` does to memory before it commits: `sp`, if nothing fails. -/
def image (ram : Ram) (trapframe : ℕ) (data : List UInt8) (argv : List (List UInt8)) : Code (Option ℕ) := do
  let elf := elfhdr (readi data 0 sizeofElfhdr)
  match ← procPagetable ram trapframe with
  | none => pure none
  | some pagetable => do
    match ← loadSegments ram pagetable data elf.phnum (elf.phoff % 2 ^ 32) 0 with
    | (false, _) => pure none
    | (true, sz) => do
      let (_, sp) ← execStack ram pagetable sz argv
      pure sp

theorem execBad_returns {ip : Option ℕ} {Q : ℤ → Kern → Prop} (h : Ends (execBad ram pagetable sz ip) k Q) :
    Ends (execBad ram pagetable sz ip) k fun r _ => r = -1 := by
  rw [execBad, ends_bind] at h ⊢
  refine h.mono fun _ _ h => ?_
  rw [ends_bind] at h ⊢
  exact h.mono fun _ _ _ => ends_pure.mpr rfl

/-- What `exec` of a file with a header returns. -/
theorem exec_returns {b : Bool} (h : Ready ram k i) (hip : disk.namei path = some ip)
    (hlen : (readi (disk.data ip) 0 sizeofElfhdr).length = sizeofElfhdr)
    (hmagic : (elfhdr (readi (disk.data ip) 0 sizeofElfhdr)).magic = ELF_MAGIC)
    (hrun : Ends (image ram (k.task i).trapframe (disk.data ip) argv) k.phys fun sp _ => sp.isSome = b) :
    Ends (exec ram disk i path argv) k fun r _ => r = if b then (argv.length : ℤ) else -1 := by
  have hends : Ends (exec ram disk i path argv) k _ := ends_exec h
  rw [exec, ends_bind, beginOp, ends_modify, ends_bind, namei, hip] at hends ⊢
  dsimp only at hends ⊢
  rw [ends_bind, ends_modify, ends_pure] at hends ⊢
  dsimp only at hends ⊢
  rw [ends_bind, ilock, ends_bind, ends_get, if_neg (by simp [h.unlocked ip]), ends_modify, if_neg (by simpa using hlen),
    if_neg (by simpa using hmagic), ends_bind, ends_get, ends_bind, ends_onPhys] at hends ⊢
  rw [image, ends_bind] at hrun
  refine (hends.and hrun).mono fun r σ1 h1 => ?_
  obtain ⟨hends, hrun⟩ := h1
  cases r with
  | none =>
    obtain rfl := ends_pure.mp hrun
    exact execBad_returns hends
  | some root =>
    dsimp only at hends hrun ⊢
    rw [ends_bind, ends_onPhys] at hends ⊢
    rw [ends_bind] at hrun
    refine (hends.and hrun).mono fun r σ2 h2 => ?_
    obtain ⟨hends, hrun⟩ := h2
    match r with
    | (false, sz) =>
      obtain rfl := ends_pure.mp hrun
      exact execBad_returns hends
    | (true, sz) =>
      dsimp only at hends hrun ⊢
      rw [ends_bind] at hends hrun ⊢
      rw [closeFile, ends_bind, iunlockput, ends_bind, ends_modify, ends_modify, endOp, ends_modify, ends_bind,
        ends_onPhys] at hends ⊢
      refine (hends.and hrun).mono fun r σ3 h3 => ?_
      obtain ⟨hends, hrun⟩ := h3
      match r with
      | (sz, none) =>
        obtain rfl := ends_pure.mp hrun
        exact execBad_returns hends
      | (sz, some sp) =>
        obtain rfl := ends_pure.mp hrun
        dsimp only at hends ⊢
        rw [ends_bind] at hends ⊢
        exact hends.mono fun _ _ _ => ends_pure.mpr rfl

/-- A segment of a file, of one page. -/
def tinySegment (vaddr : ℕ) : List UInt8 :=
  le 4 ELF_PROG_LOAD ++ le 4 5 ++ le 8 0 ++ le 8 vaddr ++ le 8 0 ++ le 8 8 ++ le 8 16 ++ le 8 0

/-- A file with two segments. -/
def tinyFile : List UInt8 :=
  le 4 ELF_MAGIC ++ List.replicate 20 0 ++ le 8 0 ++ le 8 64 ++ List.replicate 16 0 ++ le 2 2 ++ List.replicate 6 0 ++
    (tinySegment 0 ++ tinySegment PGSIZE)

def tinyDisk : Disk := ⟨fun _ => some 7, fun _ => tinyFile⟩

theorem tinyDisk_namei : tinyDisk.namei [97] = some 7 := rfl

theorem tinyFile_header : (readi tinyFile 0 sizeofElfhdr).length = sizeofElfhdr ∧
    (elfhdr (readi tinyFile 0 sizeofElfhdr)).magic = ELF_MAGIC := by
  decide +kernel

theorem Forkable.ready (h : Forkable ram k i) (htf : (k.task i).trapframe ≠ 0) (hlock : k.lock = fun _ => false) : Ready ram k i :=
  ⟨h.allots.has, h.ok, h.pagetable, htf, fun ip => congrFun hlock ip⟩

set_option maxRecDepth 2048 in
/-- There is no memory for the second segment. -/
theorem exec_failed_tiny : ∃ k k' k'', Ready smallRam k 0 ∧ (k.task 0).sz = 2 * PGSIZE ∧ (k.task 0).ofile 0 = some 0 ∧
    exec smallRam tinyDisk 0 [97] [[97, 0], [98, 99, 0]] k = .ok (-1, k') ∧ Unchanged k k' 0 ∧
    sysExec smallRam tinyDisk 0 k = .ok (-1, k'') ∧ Unchanged k k'' 0 := by
  have hrun : Ends firstProcess (bootKern 14) fun r k => r = some 0 ∧ ((k.task 0).sz = 2 * PGSIZE ∧ (k.task 0).ofile 0 = some 0 ∧
      (Ends (image smallRam (k.task 0).trapframe tinyFile [[97, 0], [98, 99, 0]]) k.phys fun sp _ => sp.isSome = false) ∧
      Ends (sysExec smallRam tinyDisk 0) k fun r _ => r = -1) := by
    decide +kernel
  obtain ⟨k, h, htf, hlock, -, hsz, hopen, himage, hsys⟩ := forkable_firstProcess (by decide) hrun
  have hready := h.ready htf hlock
  obtain ⟨r, k', he, rfl⟩ := (exec_returns hready tinyDisk_namei tinyFile_header.1 tinyFile_header.2 himage).eval
  obtain ⟨r, k'', he', rfl⟩ := hsys.eval
  obtain ⟨hexec, hsysExec⟩ := exec_failed hready tinyDisk
  exact ⟨k, k', k'', hready, hsz, hopen, he, (hexec _ _).of_eval he rfl, he', hsysExec.of_eval he' rfl⟩

/-- **The argument stack of `exec`.**  A successful `exec` returns `argc` and leaves in `sp` and `a1` the address of an array of
pointers to copies of the arguments, all of it apart in the last page of the user.  No subtraction from `sp` wraps at any call that
the loop over the arguments comes by, whether `exec` succeeds or not: the stack that `exec` has allocated ends at two pages at
least. -/
theorem exec_args (h : Ready ram k i) (disk : Disk) (hargs : Strings argv) (hlen : argv.length < MAXARG) :
    (∀ path, Ends (exec ram disk i path argv) k fun r k' => r ≠ -1 → r = argv.length ∧ ∃ sp ptr,
      leAt (k'.phys.mem (k.task i).trapframe) 48 8 = sp ∧ leAt (k'.phys.mem (k.task i).trapframe) 120 8 = sp ∧
      ArgStack (k'.phys.user (k'.task i).pagetable) (k'.task i).sz sp argv ptr) ∧
    (∀ root sz0 σ sz σ', uvmalloc ram root (PGROUNDUP sz0) ((PGROUNDUP sz0 + 2 * PGSIZE) % 2 ^ 64) PTE_W σ = .ok (sz, σ') →
      sz ≠ 0 → 2 * PGSIZE ≤ sz) ∧
    ∀ root sz σ argv' sp us σ', 2 * PGSIZE ≤ sz → Comes root (sz - PGSIZE) argv sz [] σ argv' sp us σ' →
      pushArgs root (sz - PGSIZE) argv sz [] σ = pushArgs root (sz - PGSIZE) argv' sp us σ' ∧
      (∀ arg rest, argv' = arg :: rest → strlen arg + 1 ≤ sp) ∧ (argv' = [] → (us.length + 1) * 8 ≤ sp) := by
  refine ⟨fun path => (ends_exec h).mono fun r k' hr hok => ?_, fun _ _ _ _ _ => stack_room,
    fun root sz σ argv' sp us σ' hsz hcomes => ?_⟩
  · rcases hr with ⟨hbad, -⟩ | ⟨hr, he⟩
    · exact absurd hbad hok
    · obtain ⟨sp, ptr, hstack, ha1, hsp⟩ := he.args hargs hlen
      exact ⟨hr, sp, ptr, hsp, ha1, hstack⟩
  · obtain ⟨hle, hpage, hcount⟩ := hcomes.le hargs (by omega) (by omega)
    refine ⟨hcomes.pushArgs, fun arg rest heq => hle arg (heq ▸ List.mem_cons_self), fun heq => ?_⟩
    rw [heq] at hcount
    simp only [PGSIZE, MAXARG, List.length_nil] at *
    omega

set_option maxRecDepth 2048 in
/-- A program with two arguments. -/
theorem exec_args_tiny : ∃ k k' sp ptr, Ready smallRam k 0 ∧ exec smallRam tinyDisk 0 [97] [[97, 0], [98, 99, 0]] k = .ok (2, k') ∧
    leAt (k'.phys.mem (k.task 0).trapframe) 48 8 = sp ∧
    ArgStack (k'.phys.user (k'.task 0).pagetable) (k'.task 0).sz sp [[97, 0], [98, 99, 0]] ptr := by
  have hrun : Ends firstProcess (bootKern 17) fun r k => r = some 0 ∧
      Ends (image smallRam (k.task 0).trapframe tinyFile [[97, 0], [98, 99, 0]]) k.phys fun sp _ => sp.isSome = true := by
    decide +kernel
  have hargs : Strings [[97, 0], [98, 99, 0]] := by
    intro arg harg
    simp only [List.mem_cons, List.not_mem_nil, or_false] at harg
    rcases harg with rfl | rfl
    · exact ⟨by decide, by decide⟩
    · exact ⟨by decide, by decide⟩
  obtain ⟨k, h, htf, hlock, -, himage⟩ := forkable_firstProcess (by decide) hrun
  have hready := h.ready htf hlock
  obtain ⟨r, k', he, rfl⟩ := (exec_returns hready tinyDisk_namei tinyFile_header.1 tinyFile_header.2 himage).eval
  obtain ⟨-, sp, ptr, hsp, -, hstack⟩ := ((exec_args hready tinyDisk hargs (by decide)).1 [97]).of_eval he (by decide)
  exact ⟨k, k', sp, ptr, hready, he, hsp, hstack⟩

end Xv6Mlfq.Vm
