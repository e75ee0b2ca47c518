import Xv6Mlfq.Fs.Inode

/-!
# Xv6Mlfq.Fs.Tables — open files, pipes and the files of processes

What the actions do to the file table, to the pipes, and to `ofile` and `cwd` of the processes.  A pipe is named by how many have
been allocated before it; `freed` counts how often its page has been freed.
-/

namespace Xv6Mlfq.Files

open Function

/-- A slot of the process table: unused, taken by `allocproc`, or with a process. -/
inductive ProcState
  | unused | embryo | alive
  deriving DecidableEq

structure Proc (H : Type) where
  state : ProcState
  ofile : Fin NOFILE → Option (Fin NFILE)
  cwd : Option H

structure PipeEnds where
  readopen : Bool
  writeopen : Bool
  freed : ℕ
  deriving DecidableEq

structure Tables (H T : Type) where
  file : Fin NFILE → File H
  proc : T → Proc H
  pipe : ℕ → PipeEnds
  npipe : ℕ

namespace Tables

variable {H T : Type}

def setFile (s : Tables H T) (f : Fin NFILE) (x : File H) : Tables H T := { s with file := update s.file f x }

/-- `filealloc`: the first free file. -/
def freeFile (s : Tables H T) : Option (Fin NFILE) := (List.finRange NFILE).find? fun f => (s.file f).ref = 0

/-- `pipeclose` -/
def pipeclose (p : PipeEnds) (writable : Bool) : PipeEnds :=
  let p := if writable then { p with writeopen := false } else { p with readopen := false }
  if p.readopen = false ∧ p.writeopen = false then { p with freed := p.freed + 1 } else p

variable [DecidableEq T]

def setProc (s : Tables H T) (t : T) (p : Proc H) : Tables H T := { s with proc := update s.proc t p }

/-- What an action of process `t` does; the actions on inodes are not enabled here. -/
def exec (s : Tables H T) (t : T) : (a : Op H T) → Choice T → Option (Except Panic (a.Ans × Tables H T))
  | .filealloc, _ =>
    match s.freeFile with
    | none => some (.ok (none, s))
    | some f => some (.ok (some f, s.setFile f { s.file f with ref := 1 }))
  | .filedup f, _ =>
    if (s.file f).ref < 1 then some (.error .filedup)
    else some (.ok ((), s.setFile f { s.file f with ref := (s.file f).ref + 1 }))
  | .filedrop f, _ =>
    if (s.file f).ref < 1 then some (.error .fileclose)
    else if 1 < (s.file f).ref then some (.ok (none, s.setFile f { s.file f with ref := (s.file f).ref - 1 }))
    else some (.ok (some (s.file f), s.setFile f { s.file f with ref := 0, kind := .none }))
  | .file f, _ => some (.ok (s.file f, s))
  | .setFile f kind readable writable, _ =>
    some (.ok ((), s.setFile f { s.file f with kind := kind, readable := readable, writable := writable }))
  | .ofile fd, _ => some (.ok ((s.proc t).ofile fd, s))
  | .setOfile fd f, _ => some (.ok ((), s.setProc t { s.proc t with ofile := update (s.proc t).ofile fd f }))
  | .cwd, _ => some (.ok ((s.proc t).cwd, s))
  | .setCwd ip, _ => some (.ok ((), s.setProc t { s.proc t with cwd := ip }))
  -- `kalloc` may fail
  | .pipealloc, c =>
    if c.ok then some (.ok (some s.npipe, { s with pipe := update s.pipe s.npipe ⟨true, true, 0⟩, npipe := s.npipe + 1 }))
    else some (.ok (none, s))
  | .pipeclose pi writable, _ => some (.ok ((), { s with pipe := update s.pipe pi (pipeclose (s.pipe pi) writable) }))
  | .allocproc, c =>
    match c.child with
    | none => some (.ok (none, s))
    | some child =>
      if (s.proc child).state = .unused then some (.ok (some child, s.setProc child { s.proc child with state := .embryo }))
      else none
  | .freeproc child, _ => some (.ok ((), s.setProc child { s.proc child with state := .unused }))
  | .spawn child ofile cwd, _ => some (.ok ((), s.setProc child ⟨.alive, ofile, cwd⟩))
  | .zombie, _ => some (.ok ((), s.setProc t { s.proc t with state := .unused }))
  | .try, c => some (.ok (c.ok, s))
  | .panic e, _ => some (.error e)
  | _, _ => none

end Tables

end Xv6Mlfq.Files
