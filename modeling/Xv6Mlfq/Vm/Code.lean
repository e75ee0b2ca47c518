import Xv6Mlfq.Vm.Phys

/-!
# Xv6Mlfq.Vm.Code — `vm.c`

The functions of `vm.c` on page tables and user memory, as programs on physical memory.  A page table is given by the number of its page.
A loop whose end depends on what it finds has a bound on its rounds and fails with `stuck` if it is not done by then.
-/

namespace Xv6Mlfq.Vm

open Bytes Exec

/-! ## Addresses and entries -/

def PTE_V : ℕ := 1

def PTE_R : ℕ := 2

def PTE_W : ℕ := 4

def PTE_X : ℕ := 8

def PTE_U : ℕ := 16

def MAXVA : ℕ := 2 ^ 38

def TRAMPOLINE : ℕ := MAXVA - PGSIZE

def TRAPFRAME : ℕ := TRAMPOLINE - PGSIZE

def PGROUNDUP (sz : ℕ) : ℕ := (sz + PGSIZE - 1) % 2 ^ 64 / PGSIZE * PGSIZE

def PGROUNDDOWN (a : ℕ) : ℕ := a / PGSIZE * PGSIZE

/-- `PA2PTE(pa)` -/
def PA2PTE (pa : ℕ) : ℕ := (pa >>> 12) <<< 10

/-- The page of `PTE2PA(pte)`, which has 64 bits. -/
def PTE2PA (pte : ℕ) : ℕ := (pte >>> 10) % 2 ^ 52

def PTE_FLAGS (pte : ℕ) : ℕ := pte &&& 0x3FF

def PX (level va : ℕ) : ℕ := (va >>> (12 + 9 * level)) &&& 0x1FF

/-! ## Page tables -/

/-- The loop of `walk`, down to level 0; `pagetable` is at `level`. -/
def walkLoop (va : ℕ) (alloc : Bool) : ℕ → ℕ → Code (Option ℕ)
  | 0, pagetable => pure (some pagetable)
  | level + 1, pagetable => do
    let pte := (← get).pte pagetable (PX (level + 1) va)
    if pte &&& PTE_V ≠ 0 then walkLoop va alloc level (PTE2PA pte)
    else if alloc then
      match ← kalloc with
      | none => pure none
      | some new => do
        memset new 0
        setPte pagetable (PX (level + 1) va) (PA2PTE (new * PGSIZE) ||| PTE_V)
        walkLoop va alloc level new
    else pure none

/-- `walk`: the page and the index of the entry -/
def walk (pagetable va : ℕ) (alloc : Bool) : Code (Option (ℕ × ℕ)) := do
  if MAXVA ≤ va then throw .walk
  else
    match ← walkLoop va alloc 2 pagetable with
    | none => pure none
    | some p => pure (some (p, PX 0 va))

/-- `walkaddr`: the page, 0 if there is none for the user -/
def walkaddr (pagetable va : ℕ) : Code ℕ := do
  if MAXVA ≤ va then pure 0
  else
    match ← walk pagetable va false with
    | none => pure 0
    | some (p, i) => do
      let pte := (← get).pte p i
      if pte &&& PTE_V = 0 then pure 0
      else if pte &&& PTE_U = 0 then pure 0
      else pure (PTE2PA pte)

/-- The loop of `mappages` -/
def mappagesLoop (pagetable last perm : ℕ) : ℕ → ℕ → ℕ → Code Bool
  | 0, _, _ => throw .stuck
  | fuel + 1, a, pa => do
    match ← walk pagetable a true with
    | none => pure false
    | some (p, i) => do
      if (← get).pte p i &&& PTE_V ≠ 0 then throw .remap
      else do
        setPte p i (PA2PTE pa ||| perm ||| PTE_V)
        if a = last then pure true
        else mappagesLoop pagetable last perm fuel ((a + PGSIZE) % 2 ^ 64) ((pa + PGSIZE) % 2 ^ 64)

/-- `mappages`: whether it returns 0 -/
def mappages (pagetable va size pa perm : ℕ) : Code Bool :=
  if va % PGSIZE ≠ 0 then throw .mappagesVa
  else if size % PGSIZE ≠ 0 then throw .mappagesSizeAligned
  else if size = 0 then throw .mappagesSize
  else mappagesLoop pagetable ((va + size - PGSIZE) % 2 ^ 64) perm (size / PGSIZE) va pa

/-- The loop of `uvmunmap` -/
def uvmunmapLoop (ram : Ram) (pagetable stop : ℕ) (doFree : Bool) : ℕ → ℕ → Code Unit
  | 0, _ => pure ()
  | fuel + 1, a =>
    if a < stop then do
      match ← walk pagetable a false with
      | none => throw .uvmunmapWalk
      | some (p, i) => do
        let pte := (← get).pte p i
        if pte &&& PTE_V = 0 then throw .uvmunmapNotMapped
        else if PTE_FLAGS pte = PTE_V then throw .uvmunmapNotLeaf
        else do
          (if doFree then kfree ram (PTE2PA pte) else pure ())
          setPte p i 0
          uvmunmapLoop ram pagetable stop doFree fuel (a + PGSIZE)
    else pure ()

/-- `uvmunmap`; the loop makes a round for each page at most. -/
def uvmunmap (ram : Ram) (pagetable va npages : ℕ) (doFree : Bool) : Code Unit :=
  if va % PGSIZE ≠ 0 then throw .uvmunmapAligned
  else uvmunmapLoop ram pagetable ((va + npages * PGSIZE) % 2 ^ 64) doFree npages va

/-- `uvmcreate` -/
def uvmcreate : Code (Option ℕ) := do
  match ← kalloc with
  | none => pure none
  | some pagetable => do
    memset pagetable 0
    pure (some pagetable)

/-- `freewalk`, for at most `depth` levels -/
def freewalk (ram : Ram) : ℕ → ℕ → Code Unit
  | 0, _ => throw .stuck
  | depth + 1, pagetable => do
    forM (List.range 512) fun i => do
      let pte := (← get).pte pagetable i
      if pte &&& PTE_V ≠ 0 ∧ pte &&& (PTE_R ||| PTE_W ||| PTE_X) = 0 then do
        freewalk ram depth (PTE2PA pte)
        setPte pagetable i 0
      else if pte &&& PTE_V ≠ 0 then throw .freewalkLeaf
      else pure ()
    kfree ram pagetable

/-! ## User memory -/

/-- `uvmdealloc` -/
def uvmdealloc (ram : Ram) (pagetable oldsz newsz : ℕ) : Code ℕ := do
  if oldsz ≤ newsz then pure oldsz
  else do
    (if PGROUNDUP newsz < PGROUNDUP oldsz then
      uvmunmap ram pagetable (PGROUNDUP newsz) ((PGROUNDUP oldsz - PGROUNDUP newsz) / PGSIZE) true
    else pure ())
    pure newsz

/-- The loop of `uvmalloc`; a round takes a page of its own, so there are not more of them than pages. -/
def uvmallocLoop (ram : Ram) (pagetable oldsz newsz xperm : ℕ) : ℕ → ℕ → Code ℕ
  | 0, _ => throw .stuck
  | fuel + 1, a =>
    if a < newsz then do
      match ← kalloc with
      | none => do
        let _ ← uvmdealloc ram pagetable a oldsz
        pure 0
      | some mem => do
        memset mem 0
        if ← mappages pagetable a PGSIZE (mem * PGSIZE) (PTE_R ||| PTE_U ||| xperm) then
          uvmallocLoop ram pagetable oldsz newsz xperm fuel ((a + PGSIZE) % 2 ^ 64)
        else do
          kfree ram mem
          let _ ← uvmdealloc ram pagetable a oldsz
          pure 0
    else pure newsz

/-- `uvmalloc`: the new size, 0 on error -/
def uvmalloc (ram : Ram) (pagetable oldsz newsz xperm : ℕ) : Code ℕ :=
  if newsz < oldsz then pure oldsz
  else uvmallocLoop ram pagetable (PGROUNDUP oldsz) newsz xperm (PHYSTOP / PGSIZE + 1) (PGROUNDUP oldsz)

/-- `uvmfree` -/
def uvmfree (ram : Ram) (pagetable sz : ℕ) : Code Unit := do
  (if 0 < sz then uvmunmap ram pagetable 0 (PGROUNDUP sz / PGSIZE) true else pure ())
  freewalk ram 3 pagetable

/-- The loop of `uvmcopy` -/
def uvmcopyLoop (ram : Ram) (old new sz : ℕ) : ℕ → ℕ → Code Bool
  | 0, _ => pure true
  | fuel + 1, i =>
    if i < sz then do
      match ← walk old i false with
      | none => throw .uvmcopyPte
      | some (p, j) => do
        let pte := (← get).pte p j
        if pte &&& PTE_V = 0 then throw .uvmcopyPresent
        else do
          match ← kalloc with
          | none => do
            uvmunmap ram new 0 (i / PGSIZE) true
            pure false
          | some mem => do
            store mem 0 (slice ((← get).mem (PTE2PA pte)) 0 PGSIZE)
            if ← mappages new i PGSIZE (mem * PGSIZE) (PTE_FLAGS pte) then uvmcopyLoop ram old new sz fuel (i + PGSIZE)
            else do
              kfree ram mem
              uvmunmap ram new 0 (i / PGSIZE) true
              pure false
    else pure true

/-- `uvmcopy`: whether it returns 0; there is a round for each page. -/
def uvmcopy (ram : Ram) (old new sz : ℕ) : Code Bool := uvmcopyLoop ram old new sz ((sz + PGSIZE - 1) / PGSIZE) 0

/-- `uvmclear`: `*pte &= ~PTE_U` -/
def uvmclear (pagetable va : ℕ) : Code Unit := do
  match ← walk pagetable va false with
  | none => throw .uvmclear
  | some (p, i) => do
    let pte := (← get).pte p i
    setPte p i (pte - (pte &&& PTE_U))

/-! ## Copies -/

/-- The loop of `copyout`, which copies a byte at least in each round. -/
def copyoutLoop (pagetable : ℕ) : ℕ → ℕ → List UInt8 → Code Bool
  | 0, _, _ => pure true
  | fuel + 1, dstva, src =>
    if src.length = 0 then pure true
    else do
      let va0 := PGROUNDDOWN dstva
      if MAXVA ≤ va0 then pure false
      else
        match ← walk pagetable va0 false with
        | none => pure false
        | some (p, i) => do
          let pte := (← get).pte p i
          if pte &&& PTE_V = 0 ∨ pte &&& PTE_U = 0 ∨ pte &&& PTE_W = 0 then pure false
          else do
            let n := min (PGSIZE - (dstva - va0)) src.length
            store (PTE2PA pte) (dstva - va0) (src.take n)
            copyoutLoop pagetable fuel (va0 + PGSIZE) (src.drop n)

/-- `copyout`: whether it returns 0 -/
def copyout (pagetable dstva : ℕ) (src : List UInt8) : Code Bool := copyoutLoop pagetable src.length dstva src

/-- The loop of `copyin`: whether all has been copied, and the bytes that have been. -/
def copyinLoop (pagetable : ℕ) : ℕ → ℕ → ℕ → Code (Bool × List UInt8)
  | 0, _, _ => pure (true, [])
  | fuel + 1, srcva, len =>
    if len = 0 then pure (true, [])
    else do
      let va0 := PGROUNDDOWN srcva
      let pa0 ← walkaddr pagetable va0
      if pa0 = 0 then pure (false, [])
      else do
        let n := min (PGSIZE - (srcva - va0)) len
        let bs := slice ((← get).mem pa0) (srcva - va0) n
        let (ok, rest) ← copyinLoop pagetable fuel (va0 + PGSIZE) (len - n)
        pure (ok, bs ++ rest)

/-- `copyin`: whether it returns 0, and the bytes that have been copied to `dst` -/
def copyin (pagetable srcva len : ℕ) : Code (Bool × List UInt8) := copyinLoop pagetable len srcva len

/-- The inner loop of `copyinstr`, over `n` bytes from `off` on: the bytes copied, and whether the last is a NUL. -/
def scanString (data : Frame) (off : ℕ) : ℕ → List UInt8 × Bool
  | 0 => ([], false)
  | n + 1 =>
    if data off = 0 then ([0], true)
    else
      let (bs, gotNull) := scanString data (off + 1) n
      (data off :: bs, gotNull)

/-- The outer loop of `copyinstr` -/
def copyinstrLoop (pagetable : ℕ) : ℕ → ℕ → ℕ → Code (Bool × List UInt8)
  | 0, _, _ => pure (false, [])
  | fuel + 1, srcva, max =>
    if max = 0 then pure (false, [])
    else do
      let va0 := PGROUNDDOWN srcva
      let pa0 ← walkaddr pagetable va0
      if pa0 = 0 then pure (false, [])
      else do
        let n := min (PGSIZE - (srcva - va0)) max
        let (bs, gotNull) := scanString ((← get).mem pa0) (srcva - va0) n
        if gotNull then pure (true, bs)
        else do
          let (ok, rest) ← copyinstrLoop pagetable fuel (va0 + PGSIZE) (max - n)
          pure (ok, bs ++ rest)

/-- `copyinstr`: whether it returns 0, and the bytes that have been copied to `dst` -/
def copyinstr (pagetable srcva max : ℕ) : Code (Bool × List UInt8) := copyinstrLoop pagetable max srcva max

end Xv6Mlfq.Vm
