import Mathlib

/-!
# `param.h`: the kernel's compile-time constants

Only the constants a modelled function reads are here.
-/

namespace Xv6

/-- Maximum number of processes (`param.h`). -/
def NPROC : Nat := 64

/-- Maximum number of CPUs (`param.h`). -/
def NCPU : Nat := 8

instance : NeZero NPROC := ⟨by decide⟩

instance : NeZero NCPU := ⟨by decide⟩

/-- Max number of blocks any FS op writes (`param.h`). -/
def MAXOPBLOCKS : Nat := 10

/-- Max data blocks in the on-disk log (`param.h`). -/
def LOGSIZE : Nat := MAXOPBLOCKS * 3

/-- Size of disk block cache (`param.h`). -/
def NBUF : Nat := MAXOPBLOCKS * 3

/-- Open files per process (`param.h`). -/
def NOFILE : Nat := 16

/-- Open files per system (`param.h`). -/
def NFILE : Nat := 100

/-- Maximum number of active i-nodes (`param.h`). -/
def NINODE : Nat := 50

/-- Size of the file system in blocks (`param.h`). -/
def FSSIZE : Nat := 1000

/-- The tickets `allocproc` gives a new process (`param.h`). -/
def DEFAULT_TICKETS : Int32 := 10

end Xv6
