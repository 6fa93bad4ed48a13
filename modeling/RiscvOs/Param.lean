import RiscvOs.Lib.Bytes

set_option autoImplicit false

/-!
# Constants and the disk

The constants of `include/param.h` and `include/fs.h` that the disk subsystem uses, and the
disk as the kernel sees it: an array of blocks of `BSIZE` bytes. The last two names are for runs with
two parties.
-/

namespace RiscvOs

/-! ## `include/param.h` -/

/-- Maximum number of processes. -/
def NPROC : ℕ := 64

/-- Open files per process. -/
def NOFILE : ℕ := 16

/-- Open files per system. -/
def NFILE : ℕ := 100

/-- Maximum major device number. -/
def NDEV : ℕ := 10

/-- Maximum number of active in-memory inodes. -/
def NINODE : ℕ := 50

/-- Device number of the file system root disk. -/
def ROOTDEV : ℕ := 1

/-- Maximum number of blocks any file system operation writes. -/
def MAXOPBLOCKS : ℕ := 30

/-- Maximum number of data blocks in the on-disk log. -/
def LOGBLOCKS : ℕ := MAXOPBLOCKS * 3

/-- Size of the disk block cache. -/
def NBUF : ℕ := MAXOPBLOCKS * 3

/-! ## `include/fs.h` -/

/-- Block size in bytes. -/
def BSIZE : ℕ := 1024

/-- A block of the disk. -/
abbrev Block : Type := ByteBlock BSIZE

/-- The blocks of the disk, by block number. -/
abbrev Disk : Type := ℕ → Block

/-! ## Parties -/

/-- The harts or processes of a run with two of them. -/
def left : Fin 2 := ⟨0, Nat.two_pos⟩

@[inherit_doc left] def right : Fin 2 := ⟨1, Nat.one_lt_two⟩

end RiscvOs
