import Xv6Mlfq.Lib.Prog
import Xv6Mlfq.Param
import Mathlib.Data.List.FinRange

/-!
# Xv6Mlfq.Fs.Inode — inodes, directories, paths and the calls on them

`fs.c` from `ialloc` on, `file.c` and `sysfile.c`, with what `fork`, `exit` and `exec` do to files and inodes, as programs.  An
action is a stretch under `itable.lock` or `ftable.lock`, an operation of an inode's sleep-lock, a visit to an inode's block in the
buffer cache, an access to the fields or the contents of an inode whose lock is held, or to the process's own files.  The
programs are over any type `H` of `struct inode *`; `Fs.Tree` runs them on inodes by number.

Contents are those of directories; what a file holds is left out, and so are `begin_op` and `end_op`, the fetching of arguments,
which comes before anything else, and `f->off`.
-/

namespace Xv6Mlfq.Files

/-! ## Data -/

/-- `NINODE` -/
abbrev NINODE : ℕ := 50

/-- `NFILE` -/
abbrev NFILE : ℕ := 100

/-- `NOFILE` -/
abbrev NOFILE : ℕ := 16

def NDEV : ℤ := 10

def BSIZE : ℕ := 1024

def NDIRECT : ℕ := 12

def NINDIRECT : ℕ := 256

def MAXFILE : ℕ := NDIRECT + NINDIRECT

def O_RDONLY : ℕ := 0x000

def O_WRONLY : ℕ := 0x001

def O_RDWR : ℕ := 0x002

def O_CREATE : ℕ := 0x200

def O_TRUNC : ℕ := 0x400

/-- The type of an inode: 0, `T_DIR`, `T_FILE`, `T_DEVICE`. -/
inductive FileType
  | none | dir | file | device
  deriving DecidableEq, Repr

/-- `struct dinode`, and its copy in `struct inode` -/
structure Dinode where
  type : FileType
  major : ℤ
  minor : ℤ
  nlink : ℤ
  size : ℕ
  addrs : Fin (NDIRECT + 1) → ℕ

/-- A free inode as `memset` leaves it. -/
def Dinode.zero : Dinode := ⟨.none, 0, 0, 0, 0, fun _ => 0⟩

/-- A `short` -/
def toShort (n : ℤ) : ℤ := (n + 2 ^ 15) % 2 ^ 16 - 2 ^ 15

/-- The bytes of a path element, cut to `DIRSIZ`. -/
abbrev Name : Type := List UInt8

def dot : Name := [46]

def dotdot : Name := [46, 46]

/-- `struct dirent` -/
structure Dirent where
  name : Name
  inum : ℕ
  deriving DecidableEq

/-- `sizeof(struct dirent)` -/
def sizeofDirent : ℕ := 16

/-- A path, taken apart by `skipelem`. -/
structure Path where
  absolute : Bool
  elems : List Name

/-- `f->type`, with the fields it makes valid -/
inductive FileKind (H : Type)
  | none | pipe (pi : ℕ) | inode (ip : H) | device (ip : H) (major : ℤ)

/-- `struct file` -/
structure File (H : Type) where
  ref : ℕ
  kind : FileKind H
  readable : Bool
  writable : Bool

inductive Panic
  | iget | ilock | ilockNoType | iunlock | schedLocks | dirlookupNotDir | dirlookupRead | dirlinkRead | isdirempty
  | unlinkNlink | unlinkWritei | filedup | fileclose | fileread | filewrite
  deriving DecidableEq

/-! ## Actions -/

inductive Op (H T : Type)
  /- under `itable.lock`: `iget`; `idup`; the test of `iput`, with `ref--` if it fails and `acquiresleep` if not; the last
  section of `iput` -/
  | iget (inum : ℕ) | idup (ip : H) | iputTest (ip : H) | iputDrop (ip : H)
  /- `ilock`: the test, the sleep-lock, the block; `iunlock`; `releasesleep` of `iput` -/
  | ilockTest (ip : H) | acquiresleep (ip : H) | load (ip : H) | iunlock (ip : H) | releasesleep (ip : H)
  /- the fields of an inode: reading them, assigning to those of the disk inode, `valid = 0`, `iupdate` -/
  | inum (ip : H) | fields (ip : H) | assign (ip : H) (d : Dinode) | invalidate (ip : H) | iupdate (ip : H)
  /- one round of `ialloc` -/
  | claim (inum : ℕ) (type : FileType)
  /- contents: a directory entry read by `readi` and written by `writei` (none if it returns -1), other `writei`, the blocks of
  `itrunc` -/
  | dirent (ip : H) (k : ℕ) | putDirent (ip : H) (k : ℕ) (de : Dirent) | writei (ip : H) | truncate (ip : H)
  /- under `ftable.lock`: `filealloc`, `filedup`, `fileclose` with what is left to close -/
  | filealloc | filedup (f : Fin NFILE) | filedrop (f : Fin NFILE)
  /- the fields of a file -/
  | file (f : Fin NFILE) | setFile (f : Fin NFILE) (kind : FileKind H) (readable writable : Bool)
  /- `p->ofile[fd]`, `p->cwd` -/
  | ofile (fd : Fin NOFILE) | setOfile (fd : Fin NOFILE) (f : Option (Fin NFILE)) | cwd | setCwd (ip : Option H)
  /- a pipe's page, `pipeclose` -/
  | pipealloc | pipeclose (pi : ℕ) (writable : Bool)
  /- `allocproc`, `freeproc` after a failed `uvmcopy`, the child made runnable, and the end of `exit` -/
  | allocproc | freeproc (child : T) | spawn (child : T) (ofile : Fin NOFILE → Option (Fin NFILE)) (cwd : Option H) | zombie
  /- something that may fail: `uvmcopy`, `copyout`, reading a program -/
  | try
  | panic (e : Panic)

variable {H T : Type}

/-- The answers. -/
@[reducible] def Op.Ans : Op H T → Type
  | .iget _ => H
  | .iputTest _ => Bool
  | .inum _ => ℕ
  | .fields _ => Dinode
  | .claim .. => Bool
  | .dirent .. => Dirent
  | .putDirent .. => Option Bool
  | .filealloc => Option (Fin NFILE)
  | .filedrop _ => Option (File H)
  | .file _ => File H
  | .ofile _ => Option (Fin NFILE)
  | .cwd => Option H
  | .pipealloc => Option ℕ
  | .allocproc => Option T
  | .try => Bool
  | .panic _ => Empty
  | _ => Unit

/-- A program of the kernel. -/
abbrev Code (H T α : Type) : Type := Prog (Op H T) Op.Ans α

/-- What is decided outside: whether something succeeds, and what `bmap` and a write to a file make of an inode's blocks and size. -/
structure Choice (T : Type) where
  ok : Bool
  addrs : Option (Fin (NDIRECT + 1) → ℕ)
  size : ℕ
  child : Option T

instance : Inhabited (Choice T) := ⟨⟨true, none, 0, none⟩⟩

/-- One action. -/
def op (a : Op H T) : Code H T a.Ans := Prog.perform a

/-! ## `fs.c` -/

/-- `itrunc` -/
def itrunc (ip : H) : Code H T Unit := do
  op (.truncate ip)
  op (.iupdate ip)

/-- `iput` -/
def iput (ip : H) : Code H T Unit := do
  if ← op (.iputTest ip) then
    itrunc ip
    let d ← op (.fields ip)
    op (.assign ip { d with type := .none })
    op (.iupdate ip)
    op (.invalidate ip)
    op (.releasesleep ip)
    op (.iputDrop ip)
  else
    pure ()

/-- `ilock` -/
def ilock (ip : H) : Code H T Unit := do
  op (.ilockTest ip)
  op (.acquiresleep ip)
  op (.load ip)

/-- `iunlockput` -/
def iunlockput (ip : H) : Code H T Unit := do
  op (.iunlock ip)
  iput ip

/-- A panic, where a value is expected. -/
def panic {α : Type} (e : Panic) : Code H T α := .act (.panic e) nofun

/-- The loop of `ialloc`, over the inode numbers left. -/
def iallocLoop (type : FileType) : List ℕ → Code H T (Option H)
  | [] => pure none
  | inum :: rest => do
    if ← op (.claim inum type) then
      let ip ← op (.iget inum)
      pure (some ip)
    else
      iallocLoop type rest

/-- `ialloc`, with `sb.ninodes` -/
def ialloc (ninodes : ℕ) (type : FileType) : Code H T (Option H) := iallocLoop type (List.range' 1 (ninodes - 1))

/-- The loops over the entries of a directory of the given size: the first entry from `k` on that passes the test, with its index;
`readi` returns less than an entry at the end of an odd size. -/
def scan (e : Panic) (test : Dirent → Bool) (dp : H) (size : ℕ) : ℕ → ℕ → Code H T (Option (Dirent × ℕ))
  | 0, _ => pure none
  | n + 1, k => do
    if size < (k + 1) * sizeofDirent then
      panic e
    else
      let de ← op (.dirent dp k)
      if test de then
        pure (some (de, k))
      else
        scan e test dp size n (k + 1)

/-- How often a loop by `sizeof(de)` from `k` on goes round. -/
def rounds (size k : ℕ) : ℕ := (size + sizeofDirent - 1) / sizeofDirent - k

/-- `dirlookup`, with the index of the entry -/
def dirlookup (dp : H) (name : Name) : Code H T (Option (H × ℕ)) := do
  let d ← op (.fields dp)
  if d.type ≠ .dir then
    panic .dirlookupNotDir
  else
    match ← scan .dirlookupRead (fun de => de.inum ≠ 0 && de.name = name) dp d.size (rounds d.size 0) 0 with
    | none => pure none
    | some (de, k) => do
      let ip ← op (.iget de.inum)
      pure (some (ip, k))

/-- `writei` of an entry: whether it has been written. -/
def writeDirent (dp : H) (k : ℕ) (de : Dirent) : Code H T Bool := do
  match ← op (.putDirent dp k de) with
  | none => pure false
  | some ok => do
    op (.iupdate dp)
    pure ok

/-- `dirlink` -/
def dirlink (dp : H) (name : Name) (inum : ℕ) : Code H T Bool := do
  match ← dirlookup dp name with
  | some (ip, _) => do
    iput ip
    pure false
  | none => do
    let d ← op (.fields dp)
    match ← scan .dirlinkRead (fun de => de.inum = 0) dp d.size (rounds d.size 0) 0 with
    | some (_, k) => writeDirent dp k ⟨name, inum % 2 ^ 16⟩
    | none => writeDirent dp (rounds d.size 0) ⟨name, inum % 2 ^ 16⟩

/-- The loop of `namex` -/
def namexLoop (nameiparent : Bool) : H → List Name → Code H T (Option (H × Name))
  | ip, [] => do
    if nameiparent then
      iput ip
      pure none
    else
      pure (some (ip, []))
  | ip, name :: rest => do
    ilock ip
    let d ← op (.fields ip)
    if d.type ≠ .dir then
      iunlockput ip
      pure none
    else if nameiparent && rest.isEmpty then
      op (.iunlock ip)
      pure (some (ip, name))
    else
      match ← dirlookup ip name with
      | none => do
        iunlockput ip
        pure none
      | some (next, _) => do
        iunlockput ip
        namexLoop nameiparent next rest

/-- `idup(myproc()->cwd)` -/
def dupCwd : Code H T (Option H) := do
  match ← op .cwd with
  | none => pure none
  | some ip => do
    op (.idup ip)
    pure (some ip)

/-- `namex` -/
def namex (path : Path) (nameiparent : Bool) : Code H T (Option (H × Name)) := do
  if path.absolute then
    let ip ← op (.iget ROOTINO)
    namexLoop nameiparent ip path.elems
  else
    match ← dupCwd with
    | none => pure none
    | some ip => namexLoop nameiparent ip path.elems

/-- `namei` -/
def namei (path : Path) : Code H T (Option H) := do
  match ← namex path false with
  | none => pure none
  | some (ip, _) => pure (some ip)

/-- `nameiparent` -/
def nameiparent (path : Path) : Code H T (Option (H × Name)) := namex path true

/-! ## `file.c` and `pipe.c` -/

/-- `fileclose` -/
def fileclose (f : Fin NFILE) : Code H T Unit := do
  match ← op (.filedrop f) with
  | none => pure ()
  | some ff =>
    match ff.kind with
    | .none => pure ()
    | .pipe pi => op (.pipeclose pi ff.writable)
    | .inode ip | .device ip _ => iput ip

/-- `fileread`; reading a pipe or a device touches neither files nor inodes. -/
def fileread (f : Fin NFILE) : Code H T Unit := do
  let x ← op (.file f)
  if x.readable then
    match x.kind with
    | .none => panic .fileread
    | .pipe _ | .device .. => pure ()
    | .inode ip => do
      ilock ip
      op (.iunlock ip)
  else
    pure ()

/-- `writei` of a file, up to the return -/
def writeiFile (ip : H) : Code H T Unit := do
  op (.writei ip)
  op (.iupdate ip)

/-- The loop of `filewrite`, for at most `n` rounds; `try` says whether `writei` has written all it was asked to. -/
def filewriteLoop (ip : H) : ℕ → Code H T Unit
  | 0 => pure ()
  | n + 1 => do
    ilock ip
    writeiFile ip
    op (.iunlock ip)
    if ← op .try then filewriteLoop ip n else pure ()

/-- `filewrite` of at most `n` rounds -/
def filewrite (f : Fin NFILE) (n : ℕ) : Code H T Unit := do
  let x ← op (.file f)
  if x.writable then
    match x.kind with
    | .none => panic .filewrite
    | .pipe _ | .device .. => pure ()
    | .inode ip => filewriteLoop ip n
  else
    pure ()

/-- `filestat` -/
def filestat (f : Fin NFILE) : Code H T Unit := do
  let x ← op (.file f)
  match x.kind with
  | .none | .pipe _ => pure ()
  | .inode ip | .device ip _ => do
    ilock ip
    op (.iunlock ip)

/-! ## `sysfile.c` -/

/-- The loop of `fdalloc` -/
def fdallocLoop (f : Fin NFILE) : List (Fin NOFILE) → Code H T (Option (Fin NOFILE))
  | [] => pure none
  | fd :: rest => do
    match ← op (.ofile fd) with
    | none => do
      op (.setOfile fd (some f))
      pure (some fd)
    | some _ => fdallocLoop f rest

/-- `fdalloc` -/
def fdalloc (f : Fin NFILE) : Code H T (Option (Fin NOFILE)) := fdallocLoop f (List.finRange NOFILE)

/-- A call on the file of a descriptor; nothing is done if there is none. -/
def withFile (fd : Fin NOFILE) (k : Fin NFILE → Code H T Unit) : Code H T Unit := do
  match ← op (.ofile fd) with
  | none => pure ()
  | some f => k f

/-- `sys_dup` -/
def sysDup (fd : Fin NOFILE) : Code H T Unit :=
  withFile fd fun f => do
    match ← fdalloc f with
    | none => pure ()
    | some _ => op (.filedup f)

/-- `sys_read` -/
def sysRead (fd : Fin NOFILE) : Code H T Unit := withFile fd fileread

/-- `sys_write` -/
def sysWrite (fd : Fin NOFILE) (n : ℕ) : Code H T Unit := withFile fd fun f => filewrite f n

/-- `sys_fstat` -/
def sysFstat (fd : Fin NOFILE) : Code H T Unit := withFile fd filestat

/-- `sys_close` -/
def sysClose (fd : Fin NOFILE) : Code H T Unit :=
  withFile fd fun f => do
    op (.setOfile fd none)
    fileclose f

/-- The error path of `sys_link` -/
def linkBad (ip : H) : Code H T Unit := do
  ilock ip
  let d ← op (.fields ip)
  op (.assign ip { d with nlink := toShort (d.nlink - 1) })
  op (.iupdate ip)
  iunlockput ip

/-- `sys_link`; all inodes are on one device. -/
def sysLink (old new : Path) : Code H T Unit := do
  match ← namei old with
  | none => pure ()
  | some ip => do
    ilock ip
    let d ← op (.fields ip)
    if d.type = .dir then
      iunlockput ip
    else do
      op (.assign ip { d with nlink := toShort (d.nlink + 1) })
      op (.iupdate ip)
      op (.iunlock ip)
      match ← nameiparent new with
      | none => linkBad ip
      | some (dp, name) => do
        ilock dp
        let inum ← op (.inum ip)
        if ← dirlink dp name inum then
          iunlockput dp
          iput ip
        else do
          iunlockput dp
          linkBad ip

/-- `isdirempty` -/
def isdirempty (dp : H) : Code H T Bool := do
  let d ← op (.fields dp)
  match ← scan .isdirempty (fun de => de.inum ≠ 0) dp d.size (rounds d.size 2) 2 with
  | none => pure true
  | some _ => pure false

/-- `sys_unlink`, from where the directory is empty or `ip` is none. -/
def unlinkEntry (dp ip : H) (k : ℕ) (d : Dinode) : Code H T Unit := do
  if ← writeDirent dp k ⟨[], 0⟩ then
    if d.type = .dir then do
      let dd ← op (.fields dp)
      op (.assign dp { dd with nlink := toShort (dd.nlink - 1) })
      op (.iupdate dp)
      iunlockput dp
    else
      iunlockput dp
    let d ← op (.fields ip)
    op (.assign ip { d with nlink := toShort (d.nlink - 1) })
    op (.iupdate ip)
    iunlockput ip
  else
    panic .unlinkWritei

/-- `sys_unlink` -/
def sysUnlink (path : Path) : Code H T Unit := do
  match ← nameiparent path with
  | none => pure ()
  | some (dp, name) => do
    ilock dp
    if name = dot ∨ name = dotdot then
      iunlockput dp
    else
      match ← dirlookup dp name with
      | none => iunlockput dp
      | some (ip, k) => do
        ilock ip
        let d ← op (.fields ip)
        if d.nlink < 1 then
          panic .unlinkNlink
        else if d.type = .dir then
          if ← isdirempty ip then
            unlinkEntry dp ip k d
          else do
            iunlockput ip
            iunlockput dp
        else
          unlinkEntry dp ip k d

/-- The error path of `create` -/
def createFail (dp ip : H) : Code H T (Option H) := do
  let d ← op (.fields ip)
  op (.assign ip { d with nlink := 0 })
  op (.iupdate ip)
  iunlockput ip
  iunlockput dp
  pure none

/-- The entries `.` and `..` of a new directory -/
def linkDots (dp ip : H) : Code H T Bool := do
  let inum ← op (.inum ip)
  if ← dirlink ip dot inum then
    let pinum ← op (.inum dp)
    dirlink ip dotdot pinum
  else
    pure false

/-- `create` from `dirlink(dp, name, ip->inum)` on -/
def createLink (dp ip : H) (name : Name) (type : FileType) : Code H T (Option H) := do
  let inum ← op (.inum ip)
  if ← dirlink dp name inum then
    if type = .dir then do
      let d ← op (.fields dp)
      op (.assign dp { d with nlink := toShort (d.nlink + 1) })
      op (.iupdate dp)
      iunlockput dp
      pure (some ip)
    else do
      iunlockput dp
      pure (some ip)
  else
    createFail dp ip

/-- `create` with a new inode -/
def createNew (dp ip : H) (name : Name) (type : FileType) (major minor : ℤ) : Code H T (Option H) := do
  ilock ip
  let d ← op (.fields ip)
  op (.assign ip { d with major := major, minor := minor, nlink := 1 })
  op (.iupdate ip)
  if type = .dir then
    if ← linkDots dp ip then createLink dp ip name type else createFail dp ip
  else
    createLink dp ip name type

/-- `create`: an inode with its lock -/
def create (ninodes : ℕ) (path : Path) (type : FileType) (major minor : ℤ) : Code H T (Option H) := do
  match ← nameiparent path with
  | none => pure none
  | some (dp, name) => do
    ilock dp
    match ← dirlookup dp name with
    | some (ip, _) => do
      iunlockput dp
      ilock ip
      let d ← op (.fields ip)
      if type = .file ∧ (d.type = .file ∨ d.type = .device) then
        pure (some ip)
      else do
        iunlockput ip
        pure none
    | none => do
      match ← ialloc ninodes type with
      | none => do
        iunlockput dp
        pure none
      | some ip => createNew dp ip name type major minor

/-- `sys_open` once there is a file and a descriptor -/
def openFile (f : Fin NFILE) (ip : H) (d : Dinode) (omode : ℕ) : Code H T Unit := do
  let kind := if d.type = .device then FileKind.device ip d.major else FileKind.inode ip
  op (.setFile f kind (omode &&& O_WRONLY = 0) (omode &&& O_WRONLY ≠ 0 || omode &&& O_RDWR ≠ 0))
  if omode &&& O_TRUNC ≠ 0 ∧ d.type = .file then do
    itrunc ip
    op (.iunlock ip)
  else
    op (.iunlock ip)

/-- `sys_open` with a locked inode -/
def openInode (ip : H) (omode : ℕ) : Code H T Unit := do
  let d ← op (.fields ip)
  if d.type = .device ∧ (d.major < 0 ∨ NDEV ≤ d.major) then
    iunlockput ip
  else
    match ← op .filealloc with
    | none => iunlockput ip
    | some f => do
      match ← fdalloc f with
      | none => do
        fileclose f
        iunlockput ip
      | some _ => openFile f ip d omode

/-- `sys_open` -/
def sysOpen (ninodes : ℕ) (path : Path) (omode : ℕ) : Code H T Unit := do
  if omode &&& O_CREATE ≠ 0 then
    match ← create ninodes path .file 0 0 with
    | none => pure ()
    | some ip => openInode ip omode
  else
    match ← namei path with
    | none => pure ()
    | some ip => do
      ilock ip
      let d ← op (.fields ip)
      if d.type = .dir ∧ omode ≠ O_RDONLY then
        iunlockput ip
      else
        openInode ip omode

/-- `create` and `iunlockput`, as in `sys_mkdir` and `sys_mknod` -/
def createPut (ninodes : ℕ) (path : Path) (type : FileType) (major minor : ℤ) : Code H T Unit := do
  match ← create ninodes path type major minor with
  | none => pure ()
  | some ip => iunlockput ip

/-- `sys_mkdir` -/
def sysMkdir (ninodes : ℕ) (path : Path) : Code H T Unit := createPut ninodes path .dir 0 0

/-- `sys_mknod` -/
def sysMknod (ninodes : ℕ) (path : Path) (major minor : ℤ) : Code H T Unit :=
  createPut ninodes path .device (toShort major) (toShort minor)

/-- `iput(p->cwd)` -/
def putCwd : Code H T Unit := do
  match ← op .cwd with
  | none => pure ()
  | some ip => iput ip

/-- `sys_chdir` -/
def sysChdir (path : Path) : Code H T Unit := do
  match ← namei path with
  | none => pure ()
  | some ip => do
    ilock ip
    let d ← op (.fields ip)
    if d.type ≠ .dir then
      iunlockput ip
    else do
      op (.iunlock ip)
      putCwd
      op (.setCwd (some ip))

/-- `exec`, as far as inodes go: reading the program may fail, in `bad` or before. -/
def exec (path : Path) : Code H T Unit := do
  match ← namei path with
  | none => pure ()
  | some ip => do
    ilock ip
    iunlockput ip

/-- `pipealloc`: the files of the two ends -/
def pipealloc : Code H T (Option (Fin NFILE × Fin NFILE)) := do
  match ← op .filealloc with
  | none => pure none
  | some f0 => do
    match ← op .filealloc with
    | none => do
      fileclose f0
      pure none
    | some f1 => do
      match ← op .pipealloc with
      | none => do
        fileclose f0
        fileclose f1
        pure none
      | some pi => do
        op (.setFile f0 (.pipe pi) true false)
        op (.setFile f1 (.pipe pi) false true)
        pure (some (f0, f1))

/-- `sys_pipe` -/
def sysPipe : Code H T Unit := do
  match ← pipealloc with
  | none => pure ()
  | some (rf, wf) => do
    match ← fdalloc rf with
    | none => do
      fileclose rf
      fileclose wf
    | some fd0 => do
      match ← fdalloc wf with
      | none => do
        op (.setOfile fd0 none)
        fileclose rf
        fileclose wf
      | some fd1 => do
        -- the two `copyout`
        if ← op .try then
          pure ()
        else do
          op (.setOfile fd0 none)
          op (.setOfile fd1 none)
          fileclose rf
          fileclose wf

/-! ## `proc.c` -/

/-- The loop of `fork` over the open files: those of the child. -/
def dupFiles : List (Fin NOFILE) → Code H T (Fin NOFILE → Option (Fin NFILE))
  | [] => pure fun _ => none
  | fd :: rest => do
    match ← op (.ofile fd) with
    | none => dupFiles rest
    | some f => do
      op (.filedup f)
      let ofile ← dupFiles rest
      pure (Function.update ofile fd (some f))

/-- `fork` -/
def fork : Code H T Unit := do
  match ← op .allocproc with
  | none => pure ()
  | some child => do
    if ← op .try then
      let ofile ← dupFiles (List.finRange NOFILE)
      let cwd ← dupCwd
      op (.spawn child ofile cwd)
    else
      op (.freeproc child)

/-- The loop of `exit` over the open files -/
def closeFiles : List (Fin NOFILE) → Code H T Unit
  | [] => pure ()
  | fd :: rest => do
    match ← op (.ofile fd) with
    | none => closeFiles rest
    | some f => do
      fileclose f
      op (.setOfile fd none)
      closeFiles rest

/-- `exit` -/
def exit : Code H T Unit := do
  closeFiles (List.finRange NOFILE)
  putCwd
  op (.setCwd none)
  op .zombie

/-! ## Calls -/

inductive Call
  | dup (fd : Fin NOFILE) | read (fd : Fin NOFILE) | write (fd : Fin NOFILE) (n : ℕ) | close (fd : Fin NOFILE)
  | fstat (fd : Fin NOFILE) | link (old new : Path) | unlink (path : Path) | open (path : Path) (omode : ℕ) | mkdir (path : Path)
  | mknod (path : Path) (major minor : ℤ) | chdir (path : Path) | exec (path : Path) | pipe | fork | exit

/-- The program of a call, with `sb.ninodes`. -/
def Call.code (ninodes : ℕ) : Call → Code H T Unit
  | .dup fd => sysDup fd
  | .read fd => sysRead fd
  | .write fd n => sysWrite fd n
  | .close fd => sysClose fd
  | .fstat fd => sysFstat fd
  | .link old new => sysLink old new
  | .unlink path => sysUnlink path
  | .open path omode => sysOpen ninodes path omode
  | .mkdir path => sysMkdir ninodes path
  | .mknod path major minor => sysMknod ninodes path major minor
  | .chdir path => sysChdir path
  | .exec path => Files.exec path
  | .pipe => sysPipe
  | .fork => Files.fork
  | .exit => Files.exit

end Xv6Mlfq.Files
