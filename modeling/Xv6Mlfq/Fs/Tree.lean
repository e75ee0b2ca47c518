import Xv6Mlfq.Fs.Tables
import Mathlib.Algebra.BigOperators.Group.Finset.Basic

/-!
# Xv6Mlfq.Fs.Tree — calls one after the other, on inodes by number

The programs of `Fs.Inode` with inode numbers for `struct inode *`: an inode has one set of fields (its copy in memory, if there is
one, and else the inode on disk), a reference count and a `valid` flag, and its directory entries.  Whether the inode table is full
is left open.  Calls do not overlap.

* `Tree.exec`, `State.exec`: what an action does; `allowed` restricts the actions.
* `step`: a whole call.
* `mkfs`: the image at the start.
-/

namespace Xv6Mlfq.Files

open Function

structure Tree where
  inode : ℕ → Dinode
  ents : ℕ → ℕ → Dirent
  ref : ℕ → ℕ
  valid : ℕ → Bool
  lock : ℕ → Bool

namespace Tree

def setInode (s : Tree) (n : ℕ) (d : Dinode) : Tree := { s with inode := update s.inode n d }

def setLock (s : Tree) (n : ℕ) (b : Bool) : Tree := { s with lock := update s.lock n b }

def setValid (s : Tree) (n : ℕ) (b : Bool) : Tree := { s with valid := update s.valid n b }

def setRef (s : Tree) (n r : ℕ) : Tree := { s with ref := update s.ref n r }

/-- `iget`: an entry of the table that was not in use has not been read from disk. -/
def iget (s : Tree) (n : ℕ) : Tree := if s.ref n = 0 then (s.setRef n 1).setValid n false else s.setRef n (s.ref n + 1)

/-- `writei` of entry `k`, at an offset `16 * k` that is at most the size: none if the file would get too long; at the end of the
file a block may be missing. -/
def putDirent {T : Type} (s : Tree) (n k : ℕ) (de : Dirent) (c : Choice T) : Option Bool × Tree :=
  let d := s.inode n
  if d.size < k * sizeofDirent ∨ MAXFILE * BSIZE < (k + 1) * sizeofDirent then (none, s)
  else if k * sizeofDirent < d.size then (some true, { s with ents := update s.ents n (update (s.ents n) k de) })
  else
    let addrs := c.addrs.getD d.addrs
    if c.ok then
      (some true, { s.setInode n { d with size := (k + 1) * sizeofDirent, addrs := addrs } with
        ents := update s.ents n (update (s.ents n) k de) })
    else (some false, s.setInode n { d with addrs := addrs })

/-- What an action does; those that are not on inodes are not enabled here. -/
def exec {T : Type} (s : Tree) : (a : Op ℕ T) → Choice T → Option (Except Panic (a.Ans × Tree))
  | .iget n, c => if s.ref n = 0 ∧ c.ok = false then some (.error .iget) else some (.ok (n, s.iget n))
  | .idup n, _ => some (.ok ((), s.setRef n (s.ref n + 1)))
  | .iputTest n, _ =>
    if s.ref n = 1 ∧ s.valid n = true ∧ (s.inode n).nlink = 0 then
      if s.lock n then some (.error .schedLocks) else some (.ok (true, s.setLock n true))
    else some (.ok (false, s.setRef n (s.ref n - 1)))
  | .iputDrop n, _ => some (.ok ((), s.setRef n (s.ref n - 1)))
  | .ilockTest n, _ => if s.ref n < 1 then some (.error .ilock) else some (.ok ((), s))
  | .acquiresleep n, _ => if s.lock n then none else some (.ok ((), s.setLock n true))
  | .load n, _ =>
    if s.valid n then some (.ok ((), s))
    else if (s.inode n).type = .none then some (.error .ilockNoType)
    else some (.ok ((), s.setValid n true))
  | .iunlock n, _ => if s.lock n = false ∨ s.ref n < 1 then some (.error .iunlock) else some (.ok ((), s.setLock n false))
  | .releasesleep n, _ => some (.ok ((), s.setLock n false))
  | .inum n, _ => some (.ok (n, s))
  | .fields n, _ => some (.ok (s.inode n, s))
  | .assign n d, _ => some (.ok ((), s.setInode n d))
  | .invalidate n, _ => some (.ok ((), s.setValid n false))
  | .iupdate _, _ => some (.ok ((), s))
  | .claim n type, _ =>
    if (s.inode n).type = .none then some (.ok (true, s.setInode n { Dinode.zero with type := type }))
    else some (.ok (false, s))
  | .dirent n k, _ => some (.ok (s.ents n k, s))
  | .putDirent n k de, c => some (.ok (s.putDirent n k de c))
  | .writei n, c =>
    some (.ok ((), s.setInode n { s.inode n with size := c.size, addrs := c.addrs.getD (s.inode n).addrs }))
  | .truncate n, _ => some (.ok ((), s.setInode n { s.inode n with size := 0, addrs := fun _ => 0 }))
  | _, _ => none

end Tree

/-- Inodes, files and processes. -/
structure State (T : Type) where
  tree : Tree
  tab : Tables ℕ T

variable {T : Type} [DecidableEq T]

/-- What an action of process `t` does, if it is allowed. -/
def State.exec (allowed : State T → Op ℕ T → Bool) (t : T) (s : State T) (a : Op ℕ T) (c : Choice T) :
    Option (Except Panic (a.Ans × State T)) :=
  if allowed s a then
    match s.tree.exec a c with
    | some (.ok (r, tree)) => some (.ok (r, { s with tree := tree }))
    | some (.error e) => some (.error e)
    | none =>
      match s.tab.exec t a c with
      | some (.ok (r, tab)) => some (.ok (r, { s with tab := tab }))
      | some (.error e) => some (.error e)
      | none => none
  else none

/-- A call by process `t`, with the choices made in it. -/
structure CallBy (T : Type) where
  t : T
  call : Call
  choices : List (Choice T)

/-- The outcome of a call. -/
def outcome (allowed : State T → Op ℕ T → Bool) (ninodes : ℕ) (s : State T) (e : CallBy T) :
    Option (Except Panic (Unit × State T)) :=
  if (s.tab.proc e.t).state = .alive then (e.call.code ninodes).run (State.exec allowed e.t) s e.choices else none

/-- A call that returns. -/
def step (allowed : State T → Op ℕ T → Bool) (ninodes : ℕ) (s : State T) (e : CallBy T) : Option (State T) :=
  match outcome allowed ninodes s e with
  | some (.ok (_, s')) => some s'
  | _ => none

/-! ## The image -/

/-- The root directory of `mkfs`: its entries, then zeroes up to the end of the block. -/
def rootEntry (names : List Name) : ℕ → Dirent
  | 0 => ⟨dot, ROOTINO⟩
  | 1 => ⟨dotdot, ROOTINO⟩
  | k + 2 =>
    match names[k]? with
    | some name => ⟨name, k + 2⟩
    | none => ⟨[], 0⟩

/-- The size of the root directory: the end of the block after its last entry. -/
def rootSize (names : List Name) : ℕ := ((names.length + 2) * sizeofDirent / BSIZE + 1) * BSIZE

/-- The image that `mkfs` makes of files with the given names and sizes (`Mkfs.image_tree`). -/
def mkfs (names : List Name) (size : ℕ → ℕ) : Tree where
  inode := fun n =>
    if n = ROOTINO then { Dinode.zero with type := .dir, nlink := 1, size := rootSize names }
    else if 2 ≤ n ∧ n < names.length + 2 then { Dinode.zero with type := .file, nlink := 1, size := size n }
    else .zero
  ents := fun n => if n = ROOTINO then rootEntry names else fun _ => ⟨[], 0⟩
  ref := fun _ => 0
  valid := fun _ => false
  lock := fun _ => false

/-- The first process, in the root directory; nothing is open. -/
def boot (names : List Name) (size : ℕ → ℕ) (t : T) : State T where
  tree := (mkfs names size).iget ROOTINO
  tab :=
    { file := fun _ => ⟨0, .none, false, false⟩
      proc := fun t' => if t' = t then ⟨.alive, fun _ => none, some ROOTINO⟩ else ⟨.unused, fun _ => none, none⟩
      pipe := fun _ => ⟨false, false, 0⟩
      npipe := 0 }

end Xv6Mlfq.Files
