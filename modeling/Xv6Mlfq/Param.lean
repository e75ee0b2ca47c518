import Mathlib.Data.Nat.Notation

/-!
# Xv6Mlfq.Param — constants that several parts of the kernel use

From `param.h`, `riscv.h` and `fs.h`, and `NINODES` of `mkfs.c`.
-/

namespace Xv6Mlfq

def PGSIZE : ℕ := 4096

def MAXOPBLOCKS : ℕ := 10

def LOGSIZE : ℕ := MAXOPBLOCKS * 3

def ROOTINO : ℕ := 1

def NINODES : ℕ := 200

end Xv6Mlfq
