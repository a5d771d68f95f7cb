import Mathlib

/-! The constants of `param.h`, `fs.h`, `stat.h` and `memlayout.h` that the model uses. -/

namespace Xv6

abbrev MAXOPBLOCKS : Nat := 10

abbrev LOGBLOCKS : Nat := MAXOPBLOCKS * 3

abbrev NBUF : Nat := MAXOPBLOCKS * 3

abbrev BSIZE : Nat := 1024

abbrev NPROC : Nat := 64

instance : NeZero NPROC := ⟨by decide⟩

end Xv6
