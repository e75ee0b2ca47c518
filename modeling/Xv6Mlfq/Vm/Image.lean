import Xv6Mlfq.Vm.Fetch
import Xv6Mlfq.Vm.Process

/-!
# Xv6Mlfq.Vm.Image — the memory of a new program

What `exec` of `exec.c` does to memory: it loads the segments of a file, and makes a stack with the arguments.

* `Image ram σ0 σ root n tf`: since `σ0` an address space with `n` pages has been made, and nothing else.  Every step of `exec` keeps
  it, also one that fails, so that `proc_freepagetable` can take the pages back at any time.
* `ends_loadSegments`, `ends_execStack`: the two stages.
* `ArgStack`: the arguments on the stack, as `main` finds them.
-/

namespace Xv6Mlfq.Vm

open Bytes Function Exec

variable {ram : Ram} {σ σ' σ0 τ : Phys} {root n k tf sz u off va offset fuel i a sp lo sp' : ℕ}
  {data bs : List UInt8} {arg : List UInt8} {perm : ℕ → ℕ} {fill : ℕ → Frame}
  {argv argv' : List (List UInt8)} {us us' : List ℕ}

/-! ## The code -/

def ELF_MAGIC : ℕ := 0x464C457F

def ELF_PROG_LOAD : ℕ := 1

def MAXARG : ℕ := 32

/-- `readi` of a file that holds `data`, to kernel memory: the bytes it copies -/
def readi (data : List UInt8) (off n : ℕ) : List UInt8 :=
  if data.length < off ∨ (off + n) % 2 ^ 32 < off then [] else (data.drop off).take n

/-- `struct elfhdr`, as far as it is used -/
structure Elfhdr where
  magic : ℕ
  entry : ℕ
  phoff : ℕ
  phnum : ℕ

/-- `sizeof(struct elfhdr)` -/
def sizeofElfhdr : ℕ := 64

def elfhdr (bs : List UInt8) : Elfhdr :=
  let b := fun i => bs.getD i 0
  ⟨leAt b 0 4, leAt b 24 8, leAt b 32 8, leAt b 56 2⟩

/-- `struct proghdr`, as far as it is used -/
structure Proghdr where
  type : ℕ
  flags : ℕ
  off : ℕ
  vaddr : ℕ
  filesz : ℕ
  memsz : ℕ

/-- `sizeof(struct proghdr)` -/
def sizeofProghdr : ℕ := 56

def proghdr (bs : List UInt8) : Proghdr :=
  let b := fun i => bs.getD i 0
  ⟨leAt b 0 4, leAt b 4 4, leAt b 8 8, leAt b 16 8, leAt b 32 8, leAt b 40 8⟩

/-- `flags2perm` -/
def flags2perm (flags : ℕ) : ℕ :=
  let perm := if flags &&& 0x1 ≠ 0 then PTE_X else 0
  if flags &&& 0x2 ≠ 0 then perm ||| PTE_W else perm

/-- The loop of `loadseg`; `i` is a `uint`. -/
def loadsegLoop (pagetable va : ℕ) (data : List UInt8) (offset sz : ℕ) : ℕ → ℕ → Code Bool
  | 0, _ => throw .stuck
  | fuel + 1, i =>
    if i < sz then do
      let pa ← walkaddr pagetable ((va + i) % 2 ^ 64)
      if pa = 0 then throw .loadseg
      else do
        let n := if sz - i < PGSIZE then sz - i else PGSIZE
        let bs := readi data ((offset + i) % 2 ^ 32) n
        store pa 0 bs
        if bs.length ≠ n then pure false
        else loadsegLoop pagetable va data offset sz fuel ((i + PGSIZE) % 2 ^ 32)
    else pure true

/-- `loadseg`: whether it returns 0 -/
def loadseg (pagetable va : ℕ) (data : List UInt8) (offset sz : ℕ) : Code Bool :=
  loadsegLoop pagetable va data offset sz (sz / PGSIZE + 2) 0

/-- The loop of `exec` over the program headers, with the number of those left: whether all has been loaded, and `sz`. -/
def loadSegments (ram : Ram) (pagetable : ℕ) (data : List UInt8) : ℕ → ℕ → ℕ → Code (Bool × ℕ)
  | 0, _, sz => pure (true, sz)
  | rounds + 1, off, sz => do
    let bs := readi data off sizeofProghdr
    if bs.length ≠ sizeofProghdr then pure (false, sz)
    else
      let ph := proghdr bs
      let next := (off + sizeofProghdr) % 2 ^ 32
      if ph.type ≠ ELF_PROG_LOAD then loadSegments ram pagetable data rounds next sz
      else if ph.memsz < ph.filesz then pure (false, sz)
      else if (ph.vaddr + ph.memsz) % 2 ^ 64 < ph.vaddr then pure (false, sz)
      else if ph.vaddr % PGSIZE ≠ 0 then pure (false, sz)
      else do
        let sz1 ← uvmalloc ram pagetable sz ((ph.vaddr + ph.memsz) % 2 ^ 64) (flags2perm ph.flags)
        if sz1 = 0 then pure (false, sz)
        else if ← loadseg pagetable ph.vaddr data (ph.off % 2 ^ 32) (ph.filesz % 2 ^ 32) then
          loadSegments ram pagetable data rounds next sz1
        else pure (false, sz1)

/-- `sp -= len; sp -= sp % 16;` -/
def push (sp len : ℕ) : ℕ :=
  let sp := (sp + 2 ^ 64 - len) % 2 ^ 64
  sp - sp % 16

/-- The loop of `exec` over `argv`, each argument with what follows it in its buffer: `sp` and `ustack`, if all have been pushed. -/
def pushArgs (pagetable stackbase : ℕ) : List (List UInt8) → ℕ → List ℕ → Code (Option (ℕ × List ℕ))
  | [], sp, ustack => pure (some (sp, ustack))
  | arg :: rest, sp, ustack => do
    if MAXARG ≤ ustack.length then pure none
    else
      let sp := push sp (strlen arg + 1)
      if sp < stackbase then pure none
      else if ← copyout pagetable sp (arg.take (strlen arg + 1)) then pushArgs pagetable stackbase rest sp (ustack ++ [sp])
      else pure none

/-- The strings and the array of pointers of `exec`, on a stack that ends at `sz`: `sp`, if nothing has failed. -/
def execArgs (pagetable sz : ℕ) (argv : List (List UInt8)) : Code (Option ℕ) := do
  let stackbase := sz - PGSIZE
  match ← pushArgs pagetable stackbase argv sz [] with
  | none => pure none
  | some (sp, ustack) => do
    let sp := push sp ((ustack.length + 1) * 8)
    if sp < stackbase then pure none
    else if ← copyout pagetable sp ((ustack ++ [0]).flatMap (le 8)) then pure (some sp)
    else pure none

/-- `exec` from the allocation of the stack on to the last `copyout`: `sz`, and `sp` if nothing has failed. -/
def execStack (ram : Ram) (pagetable sz : ℕ) (argv : List (List UInt8)) : Code (ℕ × Option ℕ) := do
  let sz := PGROUNDUP sz
  let sz1 ← uvmalloc ram pagetable sz ((sz + 2 * PGSIZE) % 2 ^ 64) PTE_W
  if sz1 = 0 then pure (sz, none)
  else do
    let sz := sz1
    uvmclear pagetable (sz - 2 * PGSIZE)
    let sp ← execArgs pagetable sz argv
    pure (sz, sp)

/-! ## An address space in the making -/

/-- What is written to the user's pages does not change the tables. -/
theorem Space.touched (h : Space ram σ root n tf) (ht : Trade σ σ' (frames (σ.map root) 0 n) (frames (σ.map root) 0 n)) :
    Space ram σ' root n tf ∧ σ'.map root = σ.map root ∧ σ'.pages 2 root = σ.pages 2 root := by
  obtain ⟨htree, hpages, hsame⟩ := h.user.tree.traded ht h.user.nodup h.user.has
  have hmap : σ'.map root = σ.map root := map_congr fun v => (hsame v).2
  refine ⟨⟨⟨htree, ?_, ?_, ?_, ?_⟩, ?_, ?_, ?_⟩, hmap, hpages⟩
  · rw [hmap]
    exact h.user.leaf
  · rw [hmap]
    exact h.user.room
  · rw [hmap, hpages]
    exact ht.frame.nodup h.user.nodup
  · rw [hmap]
    exact h.user.has
  · rw [hmap, h.trap]
  · rw [hmap, h.tramp]
  · rw [hmap]
    exact h.above

structure Image (ram : Ram) (σ0 σ : Phys) (root n tf : ℕ) : Prop where
  space : Space ram σ root n tf
  trade : Trade σ0 σ [] (frames (σ.map root) 0 n ++ σ.pages 2 root)

theorem Image.grew (h : Image ram σ0 σ root n tf) (hg : Grew ram σ σ' root n k perm fill) :
    Image ram σ0 σ' root k tf where
  space := hg.space h.space
  trade := h.trade.trans hg.whole

theorem Image.touched (h : Image ram σ0 σ root n tf) (ht : Trade σ σ' (frames (σ.map root) 0 n) (frames (σ.map root) 0 n)) :
    Image ram σ0 σ' root n tf := by
  obtain ⟨hspace, hmap, hpages⟩ := h.space.touched ht
  refine ⟨hspace, ?_⟩
  rw [hmap, hpages]
  exact h.trade.trans ht.frame

/-- The pages can be taken back. -/
theorem Image.ends_free (h : Image ram σ0 σ root n tf) (hn : n = pagesOf sz) :
    Ends (procFreepagetable ram root sz) σ fun _ σ' => Trade σ0 σ' [] [] :=
  (ends_procFreepagetable h.space hn).mono fun _ _ ht => h.trade.trans ht

/-! ## Segments -/

theorem flags2perm_lt {flags : ℕ} : flags2perm flags < 2 ^ 10 := by
  unfold flags2perm
  dsimp only
  split_ifs <;> decide

/-- A page of the user is written. -/
theorem Space.trade_store (hu : u < n) (hσ : σ' = σ.setPage (σ.frame root u) (splice (σ.mem (σ.frame root u)) off bs)) :
    Trade σ σ' (frames (σ.map root) 0 n) (frames (σ.map root) 0 n) := by
  rw [hσ]
  exact Trade.setPage (mem_frames (Nat.zero_le u) (by omega))

theorem Space.reads (h : Space ram σ root n tf) (hu : u < n) (huser : σ.map root u &&& PTE_U ≠ 0) : σ.Reads root u := by
  have htop := h.user.le
  refine ⟨?_, (h.user.leaf u hu).1, huser⟩
  simp only [MAXVA, PGSIZE]
  omega

/-- `loadseg` writes to pages of the user, which exist. -/
theorem ends_loadsegLoop (h : Space ram σ root n tf) (huser : ∀ u < n, σ.map root u &&& PTE_U ≠ 0)
    (hva : va % PGSIZE = 0) (hi : i % PGSIZE = 0) (hle : va + sz ≤ n * PGSIZE) (hfuel : sz ≤ i + fuel * PGSIZE) :
    Ends (loadsegLoop root va data offset sz (fuel + 1) i) σ fun _ σ' =>
      Trade σ σ' (frames (σ.map root) 0 n) (frames (σ.map root) 0 n) := by
  have htop := h.user.le
  induction fuel generalizing i σ with
  | zero =>
    rw [loadsegLoop, if_neg (by omega), ends_pure]
    exact Trade.refl
  | succ fuel ih =>
    rw [loadsegLoop]
    by_cases hlt : i < sz
    · obtain ⟨u, hu⟩ : ∃ u, va + i = u * PGSIZE := by
        refine ⟨(va + i) / PGSIZE, ?_⟩
        simp only [PGSIZE] at *
        omega
      have hun : u < n := by
        simp only [PGSIZE] at *
        omega
      have haddr : (va + i) % 2 ^ 64 = u * PGSIZE := by
        simp only [PGSIZE] at *
        omega
      have hnext : (i + PGSIZE) % 2 ^ 32 = i + PGSIZE := by
        simp only [PGSIZE] at *
        omega
      have hreads := h.reads hun (huser u hun)
      have hhas : ram.Has (σ.frame root u) := h.user.has _ (mem_frames (Nat.zero_le u) (by omega))
      rw [if_pos hlt, ends_bind, haddr]
      refine ends_walkaddr (fun _ => ?_) fun hno => absurd hreads hno
      obtain ⟨m, hm⟩ : ∃ m, m = if sz - i < PGSIZE then sz - i else PGSIZE := ⟨_, rfl⟩
      obtain ⟨τ, hτ⟩ : ∃ τ, τ = σ.setPage (σ.frame root u) (splice (σ.mem (σ.frame root u)) 0
        (readi data ((offset + i) % 2 ^ 32) m)) := ⟨_, rfl⟩
      have ht := Space.trade_store (n := n) hun hτ
      obtain ⟨hspace, hmap, -⟩ := h.touched ht
      rw [if_neg hhas.pos.ne']
      dsimp only
      rw [← hm, ends_bind, ends_store, ← hτ]
      by_cases hlen : (readi data ((offset + i) % 2 ^ 32) m).length ≠ m
      · rw [if_pos hlen, ends_pure]
        exact ht
      · rw [if_neg hlen, hnext]
        have hrest := ih hspace (hmap.symm ▸ huser) (i := i + PGSIZE) ?_ ?_
        · rw [hmap] at hrest
          exact hrest.mono fun _ _ ht' => ht.trans ht'
        · rw [Nat.add_mod_right]
          exact hi
        · rw [Nat.succ_mul] at hfuel
          omega
    · rw [if_neg hlt, ends_pure]
      exact Trade.refl

theorem ends_loadseg (h : Space ram σ root n tf) (huser : ∀ u < n, σ.map root u &&& PTE_U ≠ 0)
    (hva : va % PGSIZE = 0) (hle : va + sz ≤ n * PGSIZE) : Ends (loadseg root va data offset sz) σ fun _ σ' =>
      Trade σ σ' (frames (σ.map root) 0 n) (frames (σ.map root) 0 n) := by
  refine ends_loadsegLoop h huser hva rfl hle ?_
  simp only [PGSIZE]
  omega

theorem le_pagesOf (sz : ℕ) : sz ≤ pagesOf sz * PGSIZE := pagesOf_le.mp le_rfl

/-- New pages are for the user. -/
theorem Grew.user_bit {x : ℕ} (hg : Grew ram σ σ' root n k perm fill)
    (hperm : perm = fun _ => PTE_R ||| PTE_U ||| x) (hx : x < 2 ^ 10) (huser : ∀ u < n, σ.map root u &&& PTE_U ≠ 0) :
    ∀ u < k, σ'.map root u &&& PTE_U ≠ 0 := by
  intro u hu
  by_cases hun : u < n
  · rw [hg.old u (.inl hun)]
    exact huser u hun
  · have hlt : PTE_R ||| PTE_U ||| x < 2 ^ 10 := Nat.or_lt_two_pow (by decide) hx
    rw [(hg.new u (by omega) hu).1, hperm, and_entry hlt (by decide)]
    intro hz
    have hbit := congrArg (Nat.testBit · 4) hz
    simp only [Nat.testBit_and, Nat.testBit_or] at hbit
    exact absurd hbit (by simp [show PTE_U.testBit 4 = true by decide])

theorem proghdr_lt (bs : List UInt8) : (proghdr bs).vaddr < 2 ^ 64 ∧ (proghdr bs).memsz < 2 ^ 64 := ⟨leAt_lt, leAt_lt⟩

/-- All segments, or as many as could be had. -/
theorem ends_loadSegments {rounds : ℕ} (h : Image ram σ0 σ root n tf) (hn : n = pagesOf sz)
    (huser : ∀ u < n, σ.map root u &&& PTE_U ≠ 0) : Ends (loadSegments ram root data rounds off sz) σ fun r σ' =>
      Image ram σ0 σ' root (pagesOf r.2) tf := by
  induction rounds generalizing off sz n σ with
  | zero => exact ends_pure.mpr (hn ▸ h)
  | succ rounds ih =>
    have hfail : Ends (pure (false, sz) : Code (Bool × ℕ)) σ fun r σ' => Image ram σ0 σ' root (pagesOf r.2) tf :=
      ends_pure.mpr (hn ▸ h)
    rw [loadSegments]
    dsimp only
    obtain ⟨bs, hbs⟩ : ∃ bs, bs = readi data off sizeofProghdr := ⟨_, rfl⟩
    obtain ⟨ph, hph⟩ : ∃ ph, ph = proghdr bs := ⟨_, rfl⟩
    obtain ⟨hvaddr, hmemsz⟩ := proghdr_lt bs
    rw [← hbs, ← hph]
    rw [← hph] at hvaddr hmemsz
    split_ifs with hlen htype hfile hwrap halign
    · exact hfail
    · exact ih h hn huser
    · exact hfail
    · exact hfail
    · exact hfail
    rw [ends_bind]
    have hsum : (ph.vaddr + ph.memsz) % 2 ^ 64 = ph.vaddr + ph.memsz := by omega
    rw [hsum]
    refine (ends_uvmalloc h.space.user hn flags2perm_lt).mono fun sz1 σ1 h1 => ?_
    rcases h1 with ⟨rfl, hg⟩ | ⟨rfl, -, hg⟩
    · have himage := h.grew hg
      by_cases hz : max sz (ph.vaddr + ph.memsz) = 0
      · have hsz : max sz (ph.vaddr + ph.memsz) = sz := by omega
        rw [if_pos hz, ends_pure]
        rwa [hsz] at himage
      · have huser1 := hg.user_bit rfl flags2perm_lt huser
        have hfit : ph.vaddr + ph.filesz % 2 ^ 32 ≤ pagesOf (max sz (ph.vaddr + ph.memsz)) * PGSIZE := by
          have hle := le_pagesOf (max sz (ph.vaddr + ph.memsz))
          omega
        rw [if_neg hz, ends_bind]
        refine (ends_loadseg himage.space huser1 (by omega) hfit).mono fun ok σ2 h2 => ?_
        have himage2 := himage.touched h2
        have hmap2 := (himage.space.touched h2).2.1
        cases ok with
        | false => exact ends_pure.mpr himage2
        | true => exact ih himage2 rfl (hmap2.symm ▸ huser1)
    · rw [if_pos rfl, ends_pure]
      exact hn ▸ h.grew hg

/-! ## The stack -/

/-- `uvmclear` leaves a page to the kernel alone. -/
theorem entry_clear (p : ℕ) : entry p (PTE_R ||| PTE_U ||| PTE_W) - (entry p (PTE_R ||| PTE_U ||| PTE_W) &&& PTE_U) =
    entry p (PTE_R ||| PTE_W) := by
  rw [and_entry (by decide) (by decide), entry_add (by decide), entry_add (by decide)]
  show p * 1024 + 23 - 16 = p * 1024 + 7
  omega

theorem ends_uvmclear {f : ℕ} (h : Space ram σ root n tf) (hu : u < n) (hf : f < 2 ^ 52)
    (hw : σ.map root u = entry f (PTE_R ||| PTE_U ||| PTE_W)) :
    Ends (uvmclear root (u * PGSIZE)) σ fun _ σ' => Space ram σ' root n tf ∧ σ'.pages 2 root = σ.pages 2 root ∧
      Trade σ σ' (σ.pages 2 root) (σ.pages 2 root) ∧ σ'.map root = update (σ.map root) u (entry f (PTE_R ||| PTE_W)) ∧
      frames (σ'.map root) 0 n = frames (σ.map root) 0 n := by
  have htop := h.user.lt_top
  rw [TOP_eq] at htop
  have hva : u * PGSIZE < MAXVA := by
    simp only [PGSIZE, MAXVA]
    omega
  obtain ⟨q, i, hs⟩ := (h.user.leaf u hu).slot
  have hpte := map_of_slot (by omega) hs
  rw [uvmclear, ends_bind, ends_walk hva, Nat.mul_div_cancel _ (by decide), hs]
  dsimp only
  rw [ends_bind, ends_get, ends_setPte, ← hpte, hw, entry_clear]
  obtain ⟨σ', hσ⟩ : ∃ σ', σ' = σ.setPage q (setLe (σ.mem q) (8 * i) 8 (entry f (PTE_R ||| PTE_W))) := ⟨_, rfl⟩
  rw [← hσ]
  obtain ⟨htree, hpages, htrade, hmap⟩ := h.user.tree.set (by omega) hs (entry_lt hf (by decide)) hσ
  rw [hpages] at htrade
  have hother : ∀ v, v ≠ u → σ'.map root v = σ.map root v := by
    intro v hv
    rw [hmap, update_of_ne hv]
  have hframes : frames (σ'.map root) 0 n = frames (σ.map root) 0 n := by
    refine List.map_congr_left fun v _ => ?_
    by_cases hv : v = u
    · rw [hv, hmap, update_self, hw, PTE2PA_entry hf (by decide), PTE2PA_entry hf (by decide)]
    · rw [hother v hv]
  have huser : User ram σ' root n := by
    refine ⟨htree, fun v hv => ?_, fun v hl hv => ?_, ?_, ?_⟩
    · by_cases hvu : v = u
      · rw [hvu, hmap, update_self]
        exact leaf_entry (by decide) (by decide)
      · rw [hother v hvu]
        exact h.user.leaf v hv
    · rw [hother v (by omega)]
      exact h.user.room v hl hv
    · rw [hframes, hpages]
      exact (htrade.frame_left _).nodup h.user.nodup
    · rw [hframes]
      exact h.user.has
  rw [← TOP_eq] at htop
  refine ⟨⟨huser, ?_, ?_, fun v hv => ?_⟩, hpages, htrade, hmap, hframes⟩
  · rw [hother _ (by omega), h.trap]
  · rw [hother _ (by omega), h.tramp]
  · rw [hother _ (by omega), h.above v hv]

/-- The trapframe and the trampoline are not for the user. -/
theorem Space.lt_of_reads (h : Space ram σ root n tf) (hr : σ.Reads root u) : u < n := by
  obtain ⟨-, hv, hu⟩ := hr
  rcases h.valid_iff.mp hv with hlt | rfl | rfl
  · exact hlt
  · rw [h.trap, and_entry (by decide) (by decide)] at hu
    exact absurd (by decide) hu
  · rw [h.tramp, and_entry (by decide) (by decide)] at hu
    exact absurd (by decide) hu

theorem Space.userPages (h : Space ram σ root n tf) : UserPages σ root where
  inj := by
    intro u u' hr hr' he
    have hnd : (frames (σ.map root) 0 n).Nodup := (List.nodup_append.mp (List.nodup_append.mp h.user.nodup).2.1).1
    have hmem : ∀ {v}, σ.Reads root v → v ∈ List.range' 0 n := fun hv => List.mem_range'_1.mpr ⟨Nat.zero_le _, by
      have := h.lt_of_reads hv
      omega⟩
    exact List.inj_on_of_nodup_map hnd (hmem hr) (hmem hr') he
  pos := fun u hr => (h.user.has _ (mem_frames (Nat.zero_le u) (by have := h.lt_of_reads hr; omega))).pos.ne'
  apart := by
    intro u hr hbad
    exact h.user.frame_other (h.lt_of_reads hr) (List.mem_append_right _ hbad)

theorem Space.trade_stored (h : Space ram σ root n tf) (hs : Stored σ σ' root a bs) :
    Trade σ σ' (frames (σ.map root) 0 n) (frames (σ.map root) 0 n) where
  perm := by rw [hs.free]
  mem := by
    intro p hp
    refine hs.mem p fun u hu he => hp (List.mem_append_right _ ?_)
    have hlt := h.lt_of_reads hu.1
    exact he ▸ mem_frames (Nat.zero_le u) (by omega)

/-- The arguments as `sys_exec` passes them: strings of less than a page, with the NUL. -/
def Strings (argv : List (List UInt8)) : Prop := ∀ arg ∈ argv, 0 ∈ arg ∧ strlen arg < PGSIZE

theorem take_strlen (h : 0 ∈ arg) : arg.take (strlen arg + 1) = arg.take (strlen arg) ++ [0] := by
  induction arg with
  | nil => cases h
  | cons b s ih =>
    by_cases hb : b = 0
    · simp [strlen, hb]
    · have hs : 0 ∈ s := by simpa [Ne.symm hb] using h
      simp [strlen, hb, ih hs]

theorem length_take_strlen (h : 0 ∈ arg) : (arg.take (strlen arg + 1)).length = strlen arg + 1 := by
  induction arg with
  | nil => cases h
  | cons b s ih =>
    by_cases hb : b = 0
    · simp [strlen, hb]
    · have hs : 0 ∈ s := by simpa [Ne.symm hb] using h
      simpa [strlen, hb] using ih hs

/-- Without a wrap, `sp` goes down to a multiple of 16. -/
theorem push_eq {len : ℕ} (hlen : len ≤ sp) (hsp : sp < 2 ^ 64) : push sp len = (sp - len) / 16 * 16 := by
  have hsub : (sp + 2 ^ 64 - len) % 2 ^ 64 = sp - len := by omega
  rw [push, hsub]
  omega

/-- The loop over `argv` comes by a call with the arguments `argv'`, with `sp'` and `us'`, in the state `σ'`. -/
inductive Comes (root lo : ℕ) : List (List UInt8) → ℕ → List ℕ → Phys → List (List UInt8) → ℕ → List ℕ → Phys → Prop
  | here {argv : List (List UInt8)} {sp : ℕ} {us : List ℕ} {σ : Phys} : Comes root lo argv sp us σ argv sp us σ
  | round {arg : List UInt8} {rest argv' : List (List UInt8)} {sp sp' : ℕ} {us us' : List ℕ} {σ τ σ' : Phys} (hmax : us.length < MAXARG)
      (low : lo ≤ push sp (strlen arg + 1))
      (copy : copyout root (push sp (strlen arg + 1)) (arg.take (strlen arg + 1)) σ = .ok (true, τ))
      (next : Comes root lo rest (push sp (strlen arg + 1)) (us ++ [push sp (strlen arg + 1)]) τ argv' sp' us' σ') :
      Comes root lo (arg :: rest) sp us σ argv' sp' us' σ'

/-- The loop goes on from any call that it comes by. -/
theorem Comes.pushArgs
    (h : Comes root lo argv sp us σ argv' sp' us' σ') : pushArgs root lo argv sp us σ = Vm.pushArgs root lo argv' sp' us' σ' := by
  induction h with
  | here => rfl
  | round hmax low copy _ ih =>
    rw [Vm.pushArgs, if_neg (by omega), if_neg (by omega), bind_ok copy]
    exact ih

/-- Nothing that is subtracted from `sp` is more than it. -/
theorem Comes.le (h : Comes root lo argv sp us σ argv' sp' us' σ')
    (hargs : Strings argv) (hlo : PGSIZE ≤ lo) (hsp : lo ≤ sp) :
    (∀ arg ∈ argv', strlen arg + 1 ≤ sp') ∧ PGSIZE ≤ sp' ∧ us'.length + argv'.length = us.length + argv.length := by
  induction h with
  | here =>
    refine ⟨fun arg harg => ?_, by omega, rfl⟩
    have hlt := (hargs arg harg).2
    omega
  | round _ low _ _ ih =>
    obtain ⟨h1, h2, h3⟩ := ih (fun arg harg => hargs arg (List.mem_cons_of_mem _ harg)) low
    refine ⟨h1, h2, ?_⟩
    rw [h3, List.length_append, List.length_cons, List.length_cons, List.length_nil]
    omega

theorem leaves_uvmallocLoop {oldsz newsz xperm : ℕ} :
    Leaves (uvmallocLoop ram root oldsz newsz xperm fuel a) σ fun r _ => r = 0 ∨ r = newsz := by
  induction fuel generalizing a σ with
  | zero => exact Leaves.throw
  | succ fuel ih =>
    rw [uvmallocLoop]
    split_ifs
    · refine Leaves.bind fun r τ _ => ?_
      cases r with
      | none => exact Leaves.bind fun _ _ _ => Leaves.pure (.inl rfl)
      | some mem =>
        refine Leaves.bind fun _ _ _ => Leaves.bind fun ok _ _ => ?_
        cases ok with
        | true => exact ih
        | false => exact Leaves.bind fun _ _ _ => Leaves.bind fun _ _ _ => Leaves.pure (.inl rfl)
    · exact Leaves.pure (.inr rfl)

/-- There are two pages below the end of the stack. -/
theorem stack_room {sz0 : ℕ}
    (he : uvmalloc ram root (PGROUNDUP sz0) ((PGROUNDUP sz0 + 2 * PGSIZE) % 2 ^ 64) PTE_W σ = .ok (sz, σ')) (hsz : sz ≠ 0) :
    2 * PGSIZE ≤ sz := by
  obtain ⟨old, hold⟩ : ∃ old, old = PGROUNDUP sz0 := ⟨_, rfl⟩
  rw [← hold, uvmalloc] at he
  split_ifs at he with hlt
  · cases he
    simp only [PGSIZE] at *
    omega
  · rcases leaves_uvmallocLoop _ _ he with h | h
    · exact absurd h hsz
    · have hmod : PGROUNDUP sz0 < 2 ^ 64 := by
        simp only [PGROUNDUP, PGSIZE]
        omega
      simp only [PGSIZE] at *
      omega

/-- Strings below `hi`, one below the other and none below `lo`, and where they are. -/
inductive Stacked (user : ℕ → UInt8) (lo : ℕ) : ℕ → List (List UInt8) → List ℕ → ℕ → Prop
  | nil {hi : ℕ} : Stacked user lo hi [] [] hi
  | cons {hi a sp : ℕ} {arg : List UInt8} {rest : List (List UInt8)} {ptrs : List ℕ} (low : lo ≤ a) (below : a + (strlen arg + 1) ≤ hi)
      (copy : slice user a (strlen arg + 1) = arg.take (strlen arg) ++ [0]) (next : Stacked user lo a rest ptrs sp) :
      Stacked user lo hi (arg :: rest) (a :: ptrs) sp

/-- Whatever the arguments are, only pages of the user are written. -/
theorem ends_pushArgs (h : Space ram σ root n tf) :
    Ends (pushArgs root lo argv sp us) σ fun _ σ' => Trade σ σ' (frames (σ.map root) 0 n) (frames (σ.map root) 0 n) := by
  induction argv generalizing σ sp us with
  | nil => exact ends_pure.mpr Trade.refl
  | cons arg rest ih =>
    rw [pushArgs]
    dsimp only
    split_ifs
    · exact ends_pure.mpr Trade.refl
    · exact ends_pure.mpr Trade.refl
    · rw [ends_bind]
      refine (ends_copyout h.userPages).mono fun ok σ1 h1 => ?_
      obtain ⟨m, hm⟩ := h1
      have ht := h.trade_stored hm.stored
      obtain ⟨hspace, hmap, -⟩ := h.touched ht
      cases ok with
      | false => exact ends_pure.mpr ht
      | true =>
        refine (ih hspace).mono fun _ σ2 ht' => ?_
        rw [hmap] at ht'
        exact ht.trans ht'

/-- The last page of the user can be written. -/
theorem writable_last (hw : σ.Writes root n) (hlo : n * PGSIZE ≤ a) (hhi : a < (n + 1) * PGSIZE) : σ.Writable root a := by
  have hdiv : a / PGSIZE = n := by
    simp only [PGSIZE] at *
    omega
  exact writes_iff.mp (hdiv ▸ hw)

/-- The arguments are pushed on to the last page. -/
theorem stacked_pushArgs (h : Space ram σ root (n + 1) tf) (hn : 0 < n)
    (hw : σ.Writes root n) (hlo : n * PGSIZE ≤ sp) (hhi : sp ≤ (n + 1) * PGSIZE) (hargs : Strings argv) :
    Ends (pushArgs root (n * PGSIZE) argv sp us) σ fun r σ' => ∀ sp' us', r = some (sp', us') →
      (∀ a, sp ≤ a → a < (n + 1) * PGSIZE → σ'.user root a = σ.user root a) ∧
      ∃ ptrs, us' = us ++ ptrs ∧ Stacked (σ'.user root) (n * PGSIZE) sp argv ptrs sp' := by
  have htop := h.user.le
  induction argv generalizing σ sp us with
  | nil =>
    refine ends_pure.mpr fun sp' us' heq => ?_
    cases heq
    exact ⟨fun _ _ _ => rfl, [], (List.append_nil us).symm, .nil⟩
  | cons arg rest ih =>
    obtain ⟨hnul, hlen⟩ := hargs arg List.mem_cons_self
    have hbytes := length_take_strlen hnul
    obtain ⟨a, ha⟩ : ∃ a, a = push sp (strlen arg + 1) := ⟨_, rfl⟩
    -- there is no wrap: `sp` is in the last page, which is not the first
    have hpush : a = (sp - (strlen arg + 1)) / 16 * 16 ∧ strlen arg + 1 ≤ sp := by
      have hle : strlen arg + 1 ≤ sp := by
        simp only [PGSIZE] at *
        omega
      rw [ha, push_eq hle (by simp only [PGSIZE] at *; omega)]
      exact ⟨rfl, hle⟩
    rw [pushArgs]
    dsimp only
    rw [← ha]
    split_ifs with hmax hlow
    · exact ends_pure.mpr (by rintro _ _ ⟨⟩)
    · exact ends_pure.mpr (by rintro _ _ ⟨⟩)
    · rw [ends_bind]
      refine (ends_copyout h.userPages).mono fun ok σ1 h1 => ?_
      obtain ⟨m, hm⟩ := h1
      cases ok with
      | false => exact ends_pure.mpr (by rintro _ _ ⟨⟩)
      | true =>
        have hs := hm.stored_all
        obtain ⟨hspace, hmap, -⟩ := h.touched (h.trade_stored hs)
        refine (ih hspace (hs.writes.mpr hw) (by omega) (by omega) fun arg' h' => hargs arg' (List.mem_cons_of_mem _ h')).mono
          fun r σ2 h2 sp' us' heq => ?_
        obtain ⟨hkeep, ptrs, hus, hstack⟩ := h2 sp' us' heq
        have hreads : ∀ b, n * PGSIZE ≤ b → b < (n + 1) * PGSIZE → σ.Readable root b := fun b hl hb => (writable_last hw hl hb).1
        refine ⟨fun b hl hb => ?_, a :: ptrs, ?_, .cons (by omega) (by omega) ?_ hstack⟩
        · rw [hkeep b (by omega) hb, hs.user b (reads_iff.mpr (hreads b (by omega) hb)), splice_outside (by omega)]
        · rw [hus, List.append_assoc]
          rfl
        · have hslice := hs.slice fun b hl hb => hreads b (by omega) (by omega)
          rw [hbytes] at hslice
          rw [← take_strlen hnul, ← hslice]
          exact slice_congr fun i hi => hkeep (a + i) (by omega) (by omega)

/-- What `main` finds on the stack: at `sp` the addresses of the arguments and a null pointer, and above it the arguments. -/
structure ArgStack (user : ℕ → UInt8) (sz sp : ℕ) (argv : List (List UInt8)) (ptr : ℕ → ℕ) : Prop where
  aligned : sp % 16 = 0
  inside : sz - PGSIZE ≤ sp ∧ sp + 8 * (argv.length + 1) ≤ sz
  word : ∀ i < argv.length, leAt user (sp + 8 * i) 8 = ptr i
  null : leAt user (sp + 8 * argv.length) 8 = 0
  copy : ∀ i arg, argv[i]? = some arg → slice user (ptr i) (strlen arg + 1) = arg.take (strlen arg) ++ [0]
  above : ∀ i arg, argv[i]? = some arg → sp + 8 * (argv.length + 1) ≤ ptr i ∧ ptr i + (strlen arg + 1) ≤ sz
  apart : ∀ i j arg, i < j → argv[j]? = some arg → ptr j + (strlen arg + 1) ≤ ptr i

section Stacked

variable {user user' : ℕ → UInt8} {lo hi sp : ℕ} {argv : List (List UInt8)} {ptrs : List ℕ}

section

variable (h : Stacked user lo hi argv ptrs sp)
include h

theorem Stacked.length : ptrs.length = argv.length := by
  induction h with
  | nil => rfl
  | cons _ _ _ _ ih => rw [List.length_cons, List.length_cons, ih]

theorem Stacked.le : sp ≤ hi := by
  induction h with
  | nil => exact le_rfl
  | cons _ _ _ _ ih => omega

/-- The last string is above `lo`. -/
theorem Stacked.low (hlo : lo ≤ hi) : lo ≤ sp := by
  induction h with
  | nil => exact hlo
  | cons low _ _ _ ih => exact ih low

/-- Each string is where its pointer says. -/
theorem Stacked.string (hget : argv[i]? = some arg) :
    sp ≤ ptrs.getD i 0 ∧ ptrs.getD i 0 + (strlen arg + 1) ≤ hi ∧
      slice user (ptrs.getD i 0) (strlen arg + 1) = arg.take (strlen arg) ++ [0] := by
  induction h generalizing i with
  | nil => simp at hget
  | cons low below copy next ih =>
    cases i with
    | zero =>
      cases hget
      exact ⟨next.le, below, copy⟩
    | succ i =>
      obtain ⟨h1, h2, h3⟩ := ih (by simpa using hget)
      rw [List.getD_cons_succ]
      exact ⟨h1, by omega, h3⟩

/-- A later string is below an earlier one. -/
theorem Stacked.apart {j : ℕ} (hij : i < j) (hget : argv[j]? = some arg) :
    ptrs.getD j 0 + (strlen arg + 1) ≤ ptrs.getD i 0 := by
  induction h generalizing i j with
  | nil => simp at hget
  | cons low below copy next ih =>
    obtain ⟨j, rfl⟩ : ∃ l, j = l + 1 := ⟨j - 1, by omega⟩
    rw [List.getElem?_cons_succ] at hget
    rw [List.getD_cons_succ]
    cases i with
    | zero => exact (next.string hget).2.1
    | succ i => exact ih (by omega) hget

end

/-- The array of pointers has been written below the strings. -/
theorem Stacked.argStack {sz : ℕ} (h : Stacked user lo sz argv ptrs sp) (hlo : lo ≤ a) (hsz : lo + PGSIZE = sz) (hlt : sz < 2 ^ 64)
    (ha : a % 16 = 0) (hfit : a + 8 * (argv.length + 1) ≤ sp)
    (hwords : slice user' a (8 * (argv.length + 1)) = (ptrs ++ [0]).flatMap (Bytes.le 8))
    (hkeep : ∀ b, sp ≤ b → b < sz → user' b = user b) : ArgStack user' sz a argv fun i => ptrs.getD i 0 := by
  have hlen := h.length
  have hle := h.le
  have hall : slice user' a (8 * (ptrs ++ [0]).length) = (ptrs ++ [0]).flatMap (Bytes.le 8) := by
    rw [List.length_append, hlen]
    exact hwords
  refine ⟨ha, ⟨by omega, by omega⟩, fun i hi => ?_, ?_, fun i arg hget => ?_, fun i arg hget => ?_, fun i j arg => h.apart⟩
  · obtain ⟨-, h2, -⟩ := h.string (List.getElem?_eq_getElem hi)
    refine leAt_flatMap hall ?_ ?_
    · rw [List.getElem?_append_left (by omega), List.getD_eq_getElem?_getD, List.getElem?_eq_getElem (by omega)]
      rfl
    · rw [show 256 ^ 8 = 2 ^ 64 from rfl]
      omega
  · refine leAt_flatMap hall ?_ (by decide)
    rw [← hlen, List.getElem?_append_right le_rfl, Nat.sub_self]
    rfl
  · obtain ⟨h1, h2, h3⟩ := h.string hget
    rw [← h3]
    exact slice_congr fun l hl => hkeep _ (by omega) (by omega)
  · obtain ⟨h1, h2, -⟩ := h.string hget
    exact ⟨by omega, h2⟩

end Stacked

theorem ends_execArgs (h : Space ram σ root n tf) :
    Ends (execArgs root sz argv) σ fun _ σ' => Trade σ σ' (frames (σ.map root) 0 n) (frames (σ.map root) 0 n) := by
  rw [execArgs, ends_bind]
  refine (ends_pushArgs h).mono fun r σ1 ht => ?_
  obtain ⟨hspace, hmap, -⟩ := h.touched ht
  match r with
  | none => exact ends_pure.mpr ht
  | some (sp, us) =>
    dsimp only
    split_ifs
    · exact ends_pure.mpr ht
    · rw [ends_bind]
      refine (ends_copyout hspace.userPages).mono fun ok σ2 h2 => ?_
      obtain ⟨m, hm⟩ := h2
      have ht' := hspace.trade_stored hm.stored
      rw [hmap] at ht'
      cases ok with
      | false | true => exact ends_pure.mpr (ht.trans ht')

theorem argStack_execArgs (h : Space ram σ root (n + 1) tf) (hn : 0 < n) (hw : σ.Writes root n)
    (hargs : Strings argv) (hlen : argv.length < MAXARG) : Ends (execArgs root ((n + 1) * PGSIZE) argv) σ fun r σ' =>
      ∀ sp, r = some sp → ∃ ptr, ArgStack (σ'.user root) ((n + 1) * PGSIZE) sp argv ptr := by
  have htop := h.user.le
  have hbase : (n + 1) * PGSIZE - PGSIZE = n * PGSIZE := by rw [Nat.succ_mul, Nat.add_sub_cancel]
  have hsum : n * PGSIZE + PGSIZE = (n + 1) * PGSIZE := (Nat.succ_mul n PGSIZE).symm
  have hmax : (n + 1) * PGSIZE < 2 ^ 64 := by
    simp only [PGSIZE]
    omega
  have hpage : PGSIZE ≤ n * PGSIZE := Nat.le_mul_of_pos_left _ hn
  rw [execArgs]
  dsimp only
  rw [hbase, ends_bind]
  refine ((ends_pushArgs h).and (stacked_pushArgs h hn hw (by omega) le_rfl hargs)).mono fun r σ1 h1 => ?_
  obtain ⟨ht, hstacked⟩ := h1
  obtain ⟨hspace, hmap, -⟩ := h.touched ht
  cases r with
  | none => exact ends_pure.mpr (by rintro _ ⟨⟩)
  | some x =>
    obtain ⟨sp, us⟩ := x
    obtain ⟨-, _, rfl, hstack⟩ := hstacked sp us rfl
    have hw1 : σ1.Writes root n := by
      rw [Phys.Writes, Phys.Reads, hmap]
      exact hw
    have hlow := hstack.low (by omega)
    have hhi := hstack.le
    -- the array is small, so that there is no wrap
    have hsmall : 8 * (argv.length + 1) ≤ n * PGSIZE := by
      simp only [PGSIZE, MAXARG] at *
      omega
    obtain ⟨a, ha⟩ : ∃ a, a = push sp (8 * (argv.length + 1)) := ⟨_, rfl⟩
    have hpush : a = (sp - 8 * (argv.length + 1)) / 16 * 16 := ha.trans (push_eq (by omega) (by omega))
    dsimp only
    rw [hstack.length, Nat.mul_comm (argv.length + 1) 8, ← ha]
    by_cases hbad : a < n * PGSIZE
    · rw [if_pos hbad]
      exact ends_pure.mpr (by rintro _ ⟨⟩)
    · rw [if_neg hbad, ends_bind]
      refine (ends_copyout hspace.userPages).mono fun ok σ2 h2 => ?_
      obtain ⟨m, hm⟩ := h2
      cases ok with
      | false => exact ends_pure.mpr (by rintro _ ⟨⟩)
      | true =>
        have hs := hm.stored_all
        have hsize : ((us ++ [0]).flatMap (le 8)).length = 8 * (argv.length + 1) := by
          rw [List.length_flatMap, List.map_congr_left fun x _ => length_le 8 x, List.map_const', List.sum_replicate_nat,
            List.length_append, hstack.length, Nat.mul_comm]
          rfl
        have hreads : ∀ b, n * PGSIZE ≤ b → b < (n + 1) * PGSIZE → σ1.Readable root b := fun b hl hb => (writable_last hw1 hl hb).1
        refine ends_pure.mpr fun sp' heq => ?_
        cases heq
        refine ⟨_, hstack.argStack (by omega) hsum hmax (by omega) (by omega) ?_ fun b hl hb => ?_⟩
        · have hslice := hs.slice fun b hl hb => hreads b (by omega) (by omega)
          rwa [hsize] at hslice
        · rw [hs.user b (reads_iff.mpr (hreads b (by omega) hb)), splice_outside (by omega)]

theorem ends_execStack (h : Image ram σ0 σ root n tf) (hn : n = pagesOf sz) :
    Ends (execStack ram root sz argv) σ fun r σ' => Image ram σ0 σ' root (pagesOf r.1) tf ∧
      (Strings argv → argv.length < MAXARG → ∀ sp, r.2 = some sp → ∃ ptr, ArgStack (σ'.user root) r.1 sp argv ptr) := by
  have htop := h.space.user.le
  have hround : PGROUNDUP sz = n * PGSIZE := by
    rw [hn] at htop ⊢
    exact PGROUNDUP_eq htop
  have hnew : (n * PGSIZE + 2 * PGSIZE) % 2 ^ 64 = (n + 2) * PGSIZE := by
    simp only [PGSIZE]
    omega
  have hmax : max (n * PGSIZE) ((n + 2) * PGSIZE) = (n + 2) * PGSIZE := by
    simp only [PGSIZE]
    omega
  rw [execStack]
  dsimp only
  rw [hround, hnew, ends_bind]
  refine (ends_uvmalloc h.space.user (pagesOf_mul n).symm (by decide)).mono fun sz1 σ1 h1 => ?_
  rw [hmax, pagesOf_mul] at h1
  rcases h1 with ⟨rfl, hg⟩ | ⟨rfl, -, hg⟩
  · have himage := h.grew hg
    have hguard : (n + 2) * PGSIZE - 2 * PGSIZE = n * PGSIZE := by rw [Nat.add_mul, Nat.add_sub_cancel]
    have hframe : σ1.frame root n < 2 ^ 52 := by
      have := (himage.space.user.has _ (mem_frames (Nat.zero_le n) (by omega))).lt
      unfold Phys.frame
      omega
    rw [if_neg (by simp only [PGSIZE]; omega), hguard, ends_bind]
    refine (ends_uvmclear himage.space (by omega) hframe (hg.new n le_rfl (by omega)).1).mono fun _ σ2 h2 => ?_
    obtain ⟨hspace2, hpages2, htrade2, hmap2, hframes2⟩ := h2
    have himage2 : Image ram σ0 σ2 root (n + 2) tf := by
      refine ⟨hspace2, ?_⟩
      rw [hframes2, hpages2]
      exact himage.trade.trans (htrade2.frame_left _)
    have hstack : σ2.map root (n + 1) = entry (σ1.frame root (n + 1)) (PTE_R ||| PTE_U ||| PTE_W) := by
      rw [hmap2, update_of_ne (by omega), (hg.new (n + 1) (by omega) (by omega)).1]
    have hw : σ2.Writes root (n + 1) := by
      refine ⟨hspace2.reads (by omega) ?_, ?_⟩
      · rw [hstack, and_entry (by decide) (by decide)]
        decide
      · rw [hstack, and_entry (by decide) (by decide)]
        decide
    have hargs : Ends (execArgs root ((n + 2) * PGSIZE) argv) σ2 fun r σ' => Strings argv → argv.length < MAXARG → ∀ sp, r = some sp →
        ∃ ptr, ArgStack (σ'.user root) ((n + 2) * PGSIZE) sp argv ptr := by
      by_cases hboth : Strings argv ∧ argv.length < MAXARG
      · exact (argStack_execArgs hspace2 (Nat.succ_pos n) hw hboth.1 hboth.2).mono fun _ _ hq _ _ => hq
      · exact (ends_execArgs hspace2).mono fun _ _ _ hs hl => absurd ⟨hs, hl⟩ hboth
    rw [ends_bind]
    refine ((ends_execArgs hspace2).and hargs).mono fun r σ3 h3 => ends_pure.mpr ⟨?_, h3.2⟩
    rw [pagesOf_mul]
    exact himage2.touched h3.1
  · rw [if_pos rfl, ends_pure, pagesOf_mul]
    exact ⟨h.grew hg, fun _ _ _ hsp => by cases hsp⟩

end Xv6Mlfq.Vm
