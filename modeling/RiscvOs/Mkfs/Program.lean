import RiscvOs.Fs.Dir

set_option autoImplicit false

/-!
# The program that makes the disk image (`mkfs/mkfs.c`)

`mkfs` runs on the host. It writes the superblock, a root directory and one file for each of its
arguments into an image of `FSSIZE` blocks. Inodes and blocks are handed out by two counters; the
bitmap is written at the end.

## Implementation notes

The image has `FSSIZE` blocks from the start, and a sector behind them cannot be read: `rsect`
calls `die`. The offset of a sector is computed in 32-bit arithmetic. All other calls of `lseek`,
`write` and `read` on the image succeed, and `read` of an argument returns as many bytes as there
are left, at most `BSIZE`.
-/

namespace RiscvOs.Mkfs

open Function Fs

/-- Size of the file system in blocks. -/
def FSSIZE : ℕ := 2000

/-- Number of inodes. -/
def NINODES : ℕ := 200

/-- Number of bitmap blocks. -/
def nbitmap : ℕ := FSSIZE / BPB + 1

/-- Number of inode blocks. -/
def ninodeblocks : ℕ := NINODES / IPB + 1

/-- Number of log blocks: the header and the data blocks. -/
def nlog : ℕ := LOGBLOCKS + 1

/-- Number of blocks before the data area. -/
def nmeta : ℕ := 2 + nlog + ninodeblocks + nbitmap

/-- Number of data blocks. -/
def nblocks : ℕ := FSSIZE - nmeta

/-- The superblock that `main` computes. -/
def sb : Superblock where
  size := FSSIZE
  nblocks := nblocks
  ninodes := NINODES
  nlog := nlog
  logstart := 2
  inodestart := 2 + nlog
  bmapstart := 2 + nlog + ninodeblocks

/-- `struct superblock` in a block of zeros. -/
def superBlock : Block :=
  let b : Block := fun _ => 0
  let b := ByteBlock.setU32 b 0 FSMAGIC
  let b := ByteBlock.setU32 b 4 (UInt32.ofNat sb.size)
  let b := ByteBlock.setU32 b 8 (UInt32.ofNat sb.nblocks)
  let b := ByteBlock.setU32 b 12 (UInt32.ofNat sb.ninodes)
  let b := ByteBlock.setU32 b 16 (UInt32.ofNat sb.nlog)
  let b := ByteBlock.setU32 b 20 (UInt32.ofNat sb.logstart)
  let b := ByteBlock.setU32 b 24 (UInt32.ofNat sb.inodestart)
  ByteBlock.setU32 b 28 (UInt32.ofNat sb.bmapstart)

/-- Why `mkfs` stops: `die`, for a sector that cannot be read or an argument that cannot be opened,
or a failed assertion.

* `fbn`: `fbn < MAXFILE`; `slash`: `index(shortname, '/') == 0`;
* `nameLength`: `strlen(shortname) <= DIRSIZ`; `rootino`: `rootino == ROOTINO`;
* `used`: `used < BPB`. -/
inductive Failure where
  | read | open
  | fbn | slash | nameLength | rootino | used
  deriving DecidableEq

/-- The image file, and the counters `freeinode` and `freeblock`. -/
structure Image where
  disk : Disk
  freeinode : ℕ
  freeblock : ℕ

/-- The sector at the offset `sec * BSIZE`. -/
def sector (sec : ℕ) : ℕ := sec * BSIZE % 2 ^ 32 / BSIZE

/-- Read a sector. -/
def rsect (sec : ℕ) (m : Image) : Except Failure Block :=
  if sector sec < FSSIZE then .ok (m.disk (sector sec)) else .error .read

/-- Write a sector. -/
def wsect (sec : ℕ) (b : Block) (m : Image) : Image :=
  { m with disk := update m.disk (sector sec) b }

/-- Read an inode record. -/
def rinode (inum : ℕ) (m : Image) : Except Failure Dinode := do
  let b ← rsect (IBLOCK inum sb) m
  .ok (readDinode b (inum % IPB))

/-- Write an inode record. -/
def winode (inum : ℕ) (din : Dinode) (m : Image) : Except Failure Image := do
  let b ← rsect (IBLOCK inum sb) m
  .ok (wsect (IBLOCK inum sb) (writeDinode b (inum % IPB) din) m)

/-- The record of a new inode. -/
def newRecord (type : UInt16) : Dinode := { Dinode.zero with type := type, nlink := 1 }

/-- Hand out the next inode. -/
def ialloc (type : UInt16) (m : Image) : Except Failure (ℕ × Image) := do
  let inum := m.freeinode
  let m ← winode inum (newRecord type) { m with freeinode := m.freeinode + 1 }
  .ok (inum, m)

/-- `freeblock++`. -/
def Image.bump (m : Image) : Image := { m with freeblock := m.freeblock + 1 }

/-- The address `k` of a record; the next block is handed out if it is zero. -/
def mapAddr (k : ℕ) (din : Dinode) (m : Image) : Dinode × Image :=
  if din.addr k = 0 then (din.setAddr k m.freeblock, m.bump) else (din, m)

/-- The block of a file that `iappend` writes to, handed out if there is none. -/
def mapBlock (fbn : ℕ) (din : Dinode) (m : Image) : Except Failure (ℕ × Dinode × Image) :=
  if fbn < NDIRECT then
    let (din, m) := mapAddr fbn din m
    .ok (din.addr fbn, din, m)
  else do
    let (din, m) := mapAddr NDIRECT din m
    let indirect ← rsect (din.addr NDIRECT) m
    if ByteBlock.u32 indirect (4 * (fbn - NDIRECT)) = 0 then
      let indirect := ByteBlock.setU32 indirect (4 * (fbn - NDIRECT)) (UInt32.ofNat m.freeblock)
      .ok ((ByteBlock.u32 indirect (4 * (fbn - NDIRECT))).toNat, din,
        wsect (din.addr NDIRECT) indirect m.bump)
    else .ok ((ByteBlock.u32 indirect (4 * (fbn - NDIRECT))).toNat, din, m)

/-- The number of bytes that a round of the loop of `iappend` copies: those that are left, up to the
end of the block. -/
def pieceLen (p : List UInt8) (off : ℕ) : ℕ := min p.length ((off / BSIZE + 1) * BSIZE - off)

/-- One round of the loop of `iappend`. -/
def appendRound (p : List UInt8) (off : ℕ) (din : Dinode) (m : Image) :
    Except Failure (Dinode × Image) := do
  let (x, din, m) ← mapBlock (off / BSIZE) din m
  let buf ← rsect x m
  .ok (din, wsect x (ByteBlock.splice buf (off - off / BSIZE * BSIZE) (pieceLen p off)
    fun i => p.getD i 0) m)

/-- The loop of `iappend`: the bytes `p` are appended at the offset `off`. -/
def appendLoop : (fuel : ℕ) → (p : List UInt8) → (off : ℕ) → Dinode → Image →
    Except Failure (ℕ × Dinode × Image)
  | 0, _, off, din, m => .ok (off, din, m)
  | fuel + 1, p, off, din, m =>
    if p = [] then .ok (off, din, m)
    else if MAXFILE ≤ off / BSIZE then .error .fbn
    else do
      let (din, m) ← appendRound p off din m
      appendLoop fuel (p.drop (pieceLen p off)) (off + pieceLen p off) din m

/-- Append bytes to an inode. -/
def iappend (inum : ℕ) (p : List UInt8) (m : Image) : Except Failure Image := do
  let din ← rinode inum m
  let (off, din, m) ← appendLoop p.length p din.size.toNat din m
  winode inum { din with size := UInt32.ofNat off } m

/-- `struct dirent` with the name copied by `strncpy`. -/
def dirent (inum : ℕ) (name : List UInt8) : List UInt8 :=
  [ByteBlock.leByte inum 0, ByteBlock.leByte inum 1] ++
    (name ++ List.replicate (DIRSIZ - name.length) 0)

/-- An argument: the path, and the contents of the file if it can be opened. -/
structure Arg where
  path : List UInt8
  data : Option (List UInt8)

/-- `"user/"`. -/
def userDir : List UInt8 := [117, 115, 101, 114, 47]

/-- The path without `user/`. -/
def shortname (path : List UInt8) : List UInt8 :=
  if userDir.isPrefixOf path then path.drop 5 else path

/-- The name in the directory: the short name without a leading `_`. -/
def storedName (path : List UInt8) : List UInt8 :=
  if (shortname path).head? = some 95 then (shortname path).drop 1 else shortname path

/-- The loop that copies a file in pieces of `BSIZE` bytes. -/
def copyLoop (inum : ℕ) : (fuel : ℕ) → (data : List UInt8) → Image → Except Failure Image
  | 0, _, m => .ok m
  | fuel + 1, data, m =>
    if data = [] then .ok m
    else do
      let m ← iappend inum (data.take BSIZE) m
      copyLoop inum fuel (data.drop BSIZE) m

/-- One argument: a new inode, its entry in the root directory, and its contents. -/
def addFile (m : Image) (a : Arg) : Except Failure Image :=
  if 47 ∈ shortname a.path then .error .slash
  else
    match a.data with
    | none => .error .open
    | some data =>
      if DIRSIZ < (storedName a.path).length then .error .nameLength
      else do
        let (inum, m) ← ialloc T_FILE m
        let m ← iappend ROOTINO (dirent inum (storedName a.path)) m
        copyLoop inum data.length data m

/-- Write the bitmap: the first `used` blocks are in use. -/
def balloc (used : ℕ) (m : Image) : Except Failure Image :=
  if BPB ≤ used then .error .used
  else .ok (wsect sb.bmapstart ((List.range used).foldl ByteBlock.setBit fun _ => 0) m)

/-- The size of the root directory is rounded up. -/
def fixRoot (m : Image) : Except Failure Image := do
  let din ← rinode ROOTINO m
  let off := (din.size.toNat / BSIZE + 1) * BSIZE
  winode ROOTINO { din with size := UInt32.ofNat off } m

/-- The empty image with its superblock. -/
def blank : Image where
  disk := update (fun _ _ => 0) 1 superBlock
  freeinode := 1
  freeblock := nmeta

/-- The root directory with its two entries. -/
def makeRoot (m : Image) : Except Failure Image := do
  let (rootino, m) ← ialloc T_DIR m
  if rootino ≠ ROOTINO then .error .rootino
  else do
    let m ← iappend rootino (dirent rootino [46]) m
    iappend rootino (dirent rootino [46, 46]) m

/-- `mkfs fs.img args...`: the image, if the program exits normally. -/
def mkfs (args : List Arg) : Except Failure Image := do
  let m ← makeRoot blank
  let m ← args.foldlM addFile m
  let m ← fixRoot m
  balloc m.freeblock m

end RiscvOs.Mkfs
