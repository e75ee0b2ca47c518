import Mathlib.Data.Finset.Card
import Xv6Mlfq.Fs.Inode
import Xv6Mlfq.Lib.Bytes

/-!
# Xv6Mlfq.Fs.Content — the contents of files, in blocks

The part of `fs.c` between the buffer cache and directories, byte for byte: the bitmap, the inode blocks, `bmap`, `itrunc`, `readi`
and `writei`, with the user copies of `vm.c` and `filewrite` of `file.c`.

* `Store`: the blocks as `bread` finds them, the blocks that a recycled buffer is read from again, and the blocks in the log.
* `Op`, `Store.exec`: visits to a block.  In a visit the buffer is locked, so that a visit that reads and writes a block of the bitmap
  or of the inodes is one action.  `Superblock.act` is what an action does, and `Store.exec` has the panics of `log_write` as well.
* `balloc`, `bmap`, `readi`, `writei`, `itrunc`, `iput`: programs of such actions.  An inode whose lock is held is passed on as a value.
* `FileOp`, `State.exec`: transactions; `filewrite` is a program of these.
-/

namespace Xv6Mlfq.Vol

open Bytes Function
open Files (BSIZE NDIRECT NINDIRECT MAXFILE NINODE toShort)

/-! ## The volume -/

/-- `bp->data` -/
abbrev Block : Type := ℕ → UInt8

def BPB : ℕ := BSIZE * 8

/-- `BSIZE / sizeof(struct dinode)` -/
def IPB : ℕ := BSIZE / 64

/-- `struct superblock`, with the order of the areas that it describes; `datastart` is `size - nblocks`. -/
structure Superblock where
  size : ℕ
  ninodes : ℕ
  inodestart : ℕ
  bmapstart : ℕ
  datastart : ℕ
  inode_lt : ∀ n < ninodes, n / IPB + inodestart < bmapstart
  bitmap_lt : ∀ b < size, b / BPB + bmapstart < datastart
  -- block numbers are `int` in `balloc`
  size_lt : size < 2 ^ 31

namespace Superblock

variable (sb : Superblock)

/-- `IBLOCK(n, sb)` -/
def iblock (n : ℕ) : ℕ := n / IPB + sb.inodestart

/-- `BBLOCK(b, sb)` -/
def bblock (b : ℕ) : ℕ := b / BPB + sb.bmapstart

end Superblock

/-- `struct dinode`, and its copy in `struct inode` -/
structure Inode where
  type : ℤ
  major : ℤ
  minor : ℤ
  nlink : ℤ
  size : ℕ
  addrs : ℕ → ℕ

def T_DIR : ℤ := 1

def Inode.zero : Inode := ⟨0, 0, 0, 0, 0, fun _ => 0⟩

/-- `ip->addrs[i] = addr` -/
def Inode.setAddr (ip : Inode) (i addr : ℕ) : Inode := { ip with addrs := update ip.addrs i addr }

def shortBytes (x : ℤ) : List UInt8 := le 2 (x % 2 ^ 16).toNat

/-- The 64 bytes of a `struct dinode`. -/
def Inode.bytes (d : Inode) : List UInt8 :=
  shortBytes d.type ++ shortBytes d.major ++ shortBytes d.minor ++ shortBytes d.nlink ++ le 4 d.size ++
    (List.range (NDIRECT + 1)).flatMap fun i => le 4 (d.addrs i)

def shortAt (data : Block) (off : ℕ) : ℤ := toShort (leAt data off 2)

/-- `(struct dinode*)bp->data + k`, read -/
def getInode (data : Block) (k : ℕ) : Inode where
  type := shortAt data (64 * k)
  major := shortAt data (64 * k + 2)
  minor := shortAt data (64 * k + 4)
  nlink := shortAt data (64 * k + 6)
  size := leAt data (64 * k + 8) 4
  addrs := fun i => if i ≤ NDIRECT then leAt data (64 * k + 12 + 4 * i) 4 else 0

/-- `(struct dinode*)bp->data + k`, written -/
def putInode (data : Block) (k : ℕ) (d : Inode) : Block := splice data (64 * k) d.bytes

/-- Entry `j` of an indirect block. -/
def entry (data : Block) (j : ℕ) : ℕ := leAt data (4 * j) 4

def setEntry (data : Block) (j addr : ℕ) : Block := setLe data (4 * j) 4 addr

/-- The blocks: `buf` as `bread` finds them, `disk` as they are read into a buffer, `log` those that `log_write` has been called on
since the last commit.  The inode table: `itable` has the inode of each reference, and `mem` the fields of the inodes that are valid. -/
structure Store where
  buf : ℕ → Block
  disk : ℕ → Block
  log : Finset ℕ
  itable : List ℕ
  mem : ℕ → Option Inode

inductive Panic
  | tooBig | outsideOfTrans | freeingFreeBlock | bmapOutOfRange | noInodes | ilock | ilockNoType | dirlookupNotDir | dirlookupRead
  | dirlinkRead | unlinkNlink | isdiremptyReadi | unlinkWritei
  deriving DecidableEq

namespace Store

/-- Assignments to the data of a buffer. -/
def fill (s : Store) (b : ℕ) (data : Block) : Store := { s with buf := update s.buf b data }

def logWrite (s : Store) (b : ℕ) : Store := { s with log := insert b s.log }

/-- The commit at the last `end_op`. -/
def commit (s : Store) : Store := { s with disk := fun b => if b ∈ s.log then s.buf b else s.disk b, log := ∅ }

/-- The buffer of a block is used for another block, and the block read anew; a block in the log is pinned. -/
def recycle (s : Store) (b : ℕ) : Store := if b ∈ s.log then s else s.fill b (s.disk b)

def setMem (s : Store) (n : ℕ) (d : Option Inode) : Store := { s with mem := update s.mem n d }

/-- A reference to inode `n`; an inode that was not in the table is not valid. -/
def addRef (s : Store) (n : ℕ) : Store :=
  { if n ∈ s.itable then s else s.setMem n none with itable := n :: s.itable }

/-- The bit of block `b` in the bitmap. -/
def used (sb : Superblock) (s : Store) (b : ℕ) : Bool := testBit (s.buf (sb.bblock b)) (b % BPB)

/-- Inode `n` in its block. -/
def inode (sb : Superblock) (s : Store) (n : ℕ) : Inode := getInode (s.buf (sb.iblock n)) (n % IPB)

end Store

/-! ## Actions -/

inductive Op
  /- a block that the holder of an inode's lock visits: its data read; assigned to; `log_write` -/
  | bread (b : ℕ) | fill (b : ℕ) (data : Block) | logWrite (b : ℕ)
  /- visits to the bitmap: of `balloc` to its block `k`, of `bfree` -/
  | mark (k : ℕ) | clear (b : ℕ)
  /- `iupdate` -/
  | iupdate (n : ℕ) (d : Inode)
  /- the inode table: `iget`; the test of `iput`, with the fields of an inode that is to be freed; `ip->ref--` -/
  | iget (n : ℕ) | unlinked (n : ℕ) | unref (n : ℕ)
  /- `ilock`, with the fields; `iunlock`, with what has become of them; `ip->valid = 0` -/
  | ilock (n : ℕ) | iunlock (n : ℕ) (d : Inode) | invalidate (n : ℕ)
  | panic (e : Panic)

@[reducible] def Op.Ans : Op → Type
  | .bread _ => Block
  | .mark _ => Option ℕ
  | .unlinked _ => Option Inode
  | .ilock _ => Inode
  | .panic _ => Empty
  | _ => Unit

abbrev Code (α : Type) : Type := Prog Op Op.Ans α

def op (a : Op) : Code a.Ans := Prog.perform a

/-- The inner loop of `balloc`, in block `k` of the bitmap. -/
def findFree (sb : Superblock) (data : Block) (k : ℕ) : Option ℕ :=
  (List.range (min BPB (sb.size - k * BPB))).find? fun bi => !testBit data bi

/-- What an action does, if `log_write` does not panic. -/
def Superblock.act (sb : Superblock) (s : Store) : (a : Op) → Except Panic (a.Ans × Store)
  | .bread b => .ok (s.buf b, s)
  | .fill b data => .ok ((), s.fill b data)
  | .logWrite b => .ok ((), s.logWrite b)
  | .mark k =>
    let b := k + sb.bmapstart
    match findFree sb (s.buf b) k with
    | some bi => .ok (some (k * BPB + bi), (s.fill b (setBit (s.buf b) bi)).logWrite b)
    | none => .ok (none, s)
  | .clear b =>
    let bp := sb.bblock b
    if testBit (s.buf bp) (b % BPB) then .ok ((), (s.fill bp (clearBit (s.buf bp) (b % BPB))).logWrite bp)
    else .error .freeingFreeBlock
  | .iupdate n d =>
    let bp := sb.iblock n
    .ok ((), (s.fill bp (putInode (s.buf bp) (n % IPB) d)).logWrite bp)
  | .iget n => if n ∈ s.itable ∨ s.itable.dedup.length < NINODE then .ok ((), s.addRef n) else .error .noInodes
  | .unlinked n => .ok ((s.mem n).filter fun d => s.itable.count n = 1 ∧ d.nlink = 0, s)
  | .unref n => .ok ((), { s with itable := s.itable.erase n })
  | .ilock n =>
    if n ∈ s.itable then
      match s.mem n with
      | some d => .ok (d, s)
      | none =>
        let d := s.inode sb n
        if d.type = 0 then .error .ilockNoType else .ok (d, s.setMem n (some d))
    else .error .ilock
  | .iunlock n d => .ok ((), s.setMem n (some d))
  | .invalidate n => .ok ((), s.setMem n none)
  | .panic e => .error e

/-- Whether `log_write` is called in an action. -/
def Op.logs : (a : Op) → a.Ans → Bool
  | .logWrite _, _ | .clear _, _ | .iupdate .., _ => true
  | .mark _, r => Option.isSome r
  | _, _ => false

/-- An action, with `log.outstanding`; `log.size` is `LOGSIZE`. -/
def Store.exec (sb : Superblock) (outstanding : ℕ) (s : Store) (a : Op) : Except Panic (a.Ans × Store) :=
  match sb.act s a with
  | .ok (r, s') =>
    if a.logs r then
      if LOGSIZE ≤ s.log.card ∨ LOGSIZE - 1 ≤ s.log.card then .error .tooBig
      else if outstanding < 1 then .error .outsideOfTrans
      else .ok (r, s')
    else .ok (r, s')
  | .error e => .error e

/-! ## Blocks -/

section Programs

variable (sb : Superblock)

def bzero (b : ℕ) : Code Unit := do
  op (.fill b fun _ => 0)
  op (.logWrite b)

/-- The outer loop of `balloc`, over the blocks of the bitmap that are left. -/
def ballocLoop : List ℕ → Code ℕ
  | [] => pure 0
  | k :: rest => do
    match ← op (.mark k) with
    | some b => do
      bzero b
      pure b
    | none => ballocLoop rest

/-- `balloc`, 0 if it is out of blocks -/
def balloc : Code ℕ := ballocLoop (List.range ((sb.size + BPB - 1) / BPB))

/-- `if((addr = ip->addrs[i]) == 0)`, with what follows in `bmap` -/
def addrAt (ip : Inode) (i : ℕ) : Code (ℕ × Inode) :=
  if ip.addrs i = 0 then do
    let addr ← balloc sb
    if addr = 0 then pure (0, ip) else pure (addr, ip.setAddr i addr)
  else pure (ip.addrs i, ip)

/-- The entry `j` of the indirect block `ind`, in `bmap` -/
def entryAt (ind j : ℕ) : Code ℕ := do
  let data ← op (.bread ind)
  if entry data j = 0 then
    let addr ← balloc sb
    if addr = 0 then pure 0
    else do
      op (.fill ind (setEntry data j addr))
      op (.logWrite ind)
      pure addr
  else pure (entry data j)

/-- `bmap`, with the inode as it becomes -/
def bmap (ip : Inode) (bn : ℕ) : Code (ℕ × Inode) :=
  if bn < NDIRECT then addrAt sb ip bn
  else if bn - NDIRECT < NINDIRECT then do
    let (ind, ip) ← addrAt sb ip NDIRECT
    if ind = 0 then pure (0, ip)
    else do
      let addr ← entryAt sb ind (bn - NDIRECT)
      pure (addr, ip)
  else .act (.panic .bmapOutOfRange) nofun

/-! ## Truncation -/

/-! ## User copies -/

end Programs

/-- How many of the `len` bytes from `va` on `copyin` or `copyout` copies, if it can use the pages that `reach` says. -/
def copied (reach : ℕ → Bool) : ℕ → ℕ → ℕ → ℕ
  | 0, _, _ => 0
  | fuel + 1, va, len =>
    if len = 0 then 0
    else if reach (va / PGSIZE) then
      let n := min (PGSIZE - va % PGSIZE) len
      n + copied reach fuel ((va / PGSIZE + 1) * PGSIZE) (len - n)
    else 0

/-- The memory on the other side of a copy: the kernel's, or that of a process, of which some pages can be used. -/
structure Memory where
  user : Bool
  reach : ℕ → Bool
  data : ℕ → UInt8

/-- How many bytes `either_copyin` or `either_copyout` copies before it returns; it returns -1 if these are less than `len`. -/
def Memory.span (m : Memory) (va len : ℕ) : ℕ := if m.user then copied m.reach len va len else len

/-! ## Reading and writing -/

section Programs

variable (sb : Superblock)

/-- The loop of `readi`: the bytes copied out, or none if a copy fails; `left` is `n - tot`. -/
def readLoop (dst : Memory) : ℕ → Inode → ℕ → ℕ → ℕ → List UInt8 → Code (Option (List UInt8) × Inode)
  | 0, ip, _, _, _, acc => pure (some acc, ip)
  | fuel + 1, ip, va, off, left, acc =>
    if left = 0 then pure (some acc, ip)
    else do
      let (addr, ip) ← bmap sb ip (off / BSIZE)
      if addr = 0 then pure (some acc, ip)
      else do
        let data ← op (.bread addr)
        let m := min left (BSIZE - off % BSIZE)
        if dst.span va m < m then pure (none, ip)
        else readLoop dst fuel ip (va + m) (off + m) (left - m) (acc ++ slice data (off % BSIZE) m)

/-- `readi`: the bytes that it has copied to `dst`, or none if it returns -1 -/
def readi (ip : Inode) (dst : Memory) (va off n : ℕ) : Code (Option (List UInt8) × Inode) :=
  if ip.size < off ∨ (off + n) % 2 ^ 32 < off then pure (some [], ip)
  else
    let n := if ip.size < off + n then ip.size - off else n
    readLoop sb dst n ip va off n []

/-- The loop of `writei`, with `tot` at its end. -/
def writeLoop (src : Memory) : ℕ → Inode → ℕ → ℕ → ℕ → ℕ → Code (ℕ × Inode)
  | 0, ip, _, _, _, tot => pure (tot, ip)
  | fuel + 1, ip, va, off, left, tot =>
    if left = 0 then pure (tot, ip)
    else do
      let (addr, ip) ← bmap sb ip (off / BSIZE)
      if addr = 0 then pure (tot, ip)
      else do
        let data ← op (.bread addr)
        let m := min left (BSIZE - off % BSIZE)
        op (.fill addr (splice data (off % BSIZE) (slice src.data va (src.span va m))))
        if src.span va m < m then pure (tot, ip)
        else do
          op (.logWrite addr)
          writeLoop src fuel ip (va + m) (off + m) (left - m) (tot + m)

/-- `writei`: `tot`, or none if it returns -1 -/
def writei (n : ℕ) (ip : Inode) (src : Memory) (va off len : ℕ) : Code (Option ℕ × Inode) :=
  if ip.size < off ∨ (off + len) % 2 ^ 32 < off ∨ MAXFILE * BSIZE < (off + len) % 2 ^ 32 then pure (none, ip)
  else do
    let (tot, ip) ← writeLoop sb src len ip va off len 0
    let ip := if ip.size < off + tot then { ip with size := off + tot } else ip
    op (.iupdate n ip)
    pure (some tot, ip)

/-- `fileread` of a file of type `FD_INODE` that is readable: what it returns, none for -1, and `f->off` -/
def fileread (n : ℕ) (dst : Memory) (addr off len : ℕ) : Code (Option ℕ × ℕ) := do
  let ip ← op (.ilock n)
  let (r, ip) ← readi sb ip dst addr off len
  op (.iunlock n ip)
  pure (r.map List.length, (off + (r.getD []).length) % 2 ^ 32)

end Programs

/-! ## Transactions -/

inductive FileOp
  | op (a : Op) | beginOp | endOp

@[reducible] def FileOp.Ans : FileOp → Type
  | .op a => a.Ans
  | _ => Unit

abbrev FileCode (α : Type) : Type := Prog FileOp FileOp.Ans α

def transact (a : FileOp) : FileCode a.Ans := Prog.perform a

/-- A program between `begin_op` and `end_op`, or outside of a transaction. -/
def within {α : Type} : Code α → FileCode α
  | .ret x => .ret x
  | .act a k => .act (.op a) fun r => within (k r)

/-- The store, and `log.outstanding`. -/
structure State where
  store : Store
  outstanding : ℕ

/-- `begin_op` is over when there is room for the operation; the last `end_op` commits. -/
def State.exec (sb : Superblock) (t : State) : (a : FileOp) → Except Panic (a.Ans × State)
  | .op a =>
    match t.store.exec sb t.outstanding a with
    | .ok (r, s) => .ok (r, ⟨s, t.outstanding⟩)
    | .error e => .error e
  | .beginOp => .ok ((), ⟨t.store, t.outstanding + 1⟩)
  | .endOp => .ok ((), ⟨if t.outstanding = 1 then t.store.commit else t.store, t.outstanding - 1⟩)

/-- `max` in `filewrite` -/
def maxChunk : ℕ := (MAXOPBLOCKS - 1 - 1 - 2) / 2 * BSIZE

section Filewrite

variable (sb : Superblock)

/-- The loop of `filewrite` on a file: `f->off`, and `i` at its end. -/
def filewriteLoop (n : ℕ) (src : Memory) (addr len : ℕ) : ℕ → ℕ → ℕ → FileCode (ℕ × ℕ)
  | 0, off, i => pure (off, i)
  | fuel + 1, off, i =>
    if i < len then do
      let n1 := min (len - i) maxChunk
      transact .beginOp
      let ip ← within (op (.ilock n))
      let (r, ip) ← within (writei sb n ip src (addr + i) off n1)
      let off := (off + r.getD 0) % 2 ^ 32
      within (op (.iunlock n ip))
      transact .endOp
      if r = some n1 then filewriteLoop n src addr len fuel off (i + n1) else pure (off, i)
    else pure (off, i)

/-- `filewrite` on a file of type `FD_INODE` that is writable: whether it returns `len`, and `f->off` -/
def filewrite (n : ℕ) (src : Memory) (addr off len : ℕ) : FileCode (Bool × ℕ) := do
  let (off, i) ← filewriteLoop sb n src addr len len off 0
  pure (i = len, off)

end Filewrite

end Xv6Mlfq.Vol
