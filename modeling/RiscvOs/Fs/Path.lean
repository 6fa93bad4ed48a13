import RiscvOs.Fs.Dir

set_option autoImplicit false

/-!
# Paths (`kernel/disk/fs.c`, `kernel/disk/sysfile.c`)

Looking up paths, and the two operations that change directories: `create` and `sys_unlink`.
They are composed of the calls on inodes and directories; the part of a system call between
`begin_op` and `end_op` is one function here.

## Implementation notes

A path is a list of characters without a `NUL`. `namex` gets as many rounds as the path has
characters, and one for its end: `skipelem` shortens the path in every round.
-/

namespace RiscvOs.Fs

open Str

/-- The character that separates the elements of a path. -/
def slash : UInt8 := 47

/-- The next element of a path, of which at most `DIRSIZ` characters are kept, and the rest of the
path without leading slashes. -/
def skipelem (path : List UInt8) : Option (List UInt8 × List UInt8) :=
  let path := path.dropWhile (· == slash)
  if path = [] then none
  else some ((path.takeWhile (· != slash)).take DIRSIZ,
    (path.dropWhile (· != slash)).dropWhile (· == slash))

/-- `iunlock(ip); iput(ip)`. -/
def iunlockput (ip : Slot) (s : FS) : Except Panic FS := do
  let s ← iunlock ip s
  iput ip s

/-- The loop of `namex`, at the inode `ip`. The result is the inode and the last element. -/
def namexLoop (parent : Bool) : (fuel : ℕ) → (ip : Slot) → (name path : List UInt8) → FS →
    Except Panic (Option (Slot × List UInt8) × FS)
  | 0, _, _, _, s => .ok (none, s)
  | fuel + 1, ip, name, path, s =>
    match skipelem path with
    | none =>
      if parent then do
        let s ← iput ip s
        .ok (none, s)
      else .ok (some (ip, name), s)
    | some (name, path) => do
      let s ← ilock ip s
      if (s.itable ip).type ≠ T_DIR then do
        let s ← iunlockput ip s
        .ok (none, s)
      else if parent = true ∧ path = [] then do
        -- stop one level early
        let s ← iunlock ip s
        .ok (some (ip, name), s)
      else do
        let (r, s) ← dirlookup ip (cstr name) s
        let s ← iunlockput ip s
        match r with
        | none => .ok (none, s)
        | some (next, _) => namexLoop parent fuel next name path s

/-- Where a lookup starts: at the root, or in the directory `cwd`. -/
def namexStart (path : List UInt8) (cwd : Slot) (s : FS) : Except Panic (Slot × FS) :=
  if path.head? = some slash then iget ROOTDEV ROOTINO s else .ok (cwd, idup cwd s)

/-- Look up a path. With `parent` the inode of the parent directory is returned. -/
def namex (parent : Bool) (path : List UInt8) (cwd : Slot) (s : FS) :
    Except Panic (Option (Slot × List UInt8) × FS) := do
  let (ip, s) ← namexStart path cwd s
  namexLoop parent (path.length + 1) ip [] path s

/-- `namei`. -/
def namei (path : List UInt8) (cwd : Slot) (s : FS) : Except Panic (Option Slot × FS) := do
  let (r, s) ← namex false path cwd s
  .ok (r.map Prod.fst, s)

/-- `nameiparent`. -/
def nameiparent (path : List UInt8) (cwd : Slot) (s : FS) :
    Except Panic (Option (Slot × List UInt8) × FS) := namex true path cwd s

/-- Store the fields of a record that are neither the type nor a block in a slot, and write them
to the disk. -/
def setAttrs (ip : Slot) (major minor nlink : UInt16) (s : FS) : Except Panic FS :=
  iupdate ip (s.setInode ip
    { s.itable ip with major := major, minor := minor, nlink := nlink })

/-- `ip->nlink = n; iupdate(ip)`. -/
def setNlink (ip : Slot) (n : UInt16) (s : FS) : Except Panic FS :=
  setAttrs ip (s.itable ip).major (s.itable ip).minor n s

/-- `if(type == T_DIR) { dp->nlink = n; iupdate(dp); }`: the entry `..` of a directory is a link to
its parent. -/
def setParentNlink (dp : Slot) (type n : UInt16) (s : FS) : Except Panic FS :=
  if type = T_DIR then setNlink dp n s else .ok s

/-- The names `.` and `..`. -/
def dot : List UInt8 := [46]

def dotdot : List UInt8 := [46, 46]

/-- The entries that `create` makes in a new directory, for itself and its parent. -/
def createDots (dp ip : Slot) (type : UInt16) (junk : ℕ → Dirent) (s : FS) :
    Except Panic (Bool × FS) :=
  if type = T_DIR then do
    let (ok, s) ← dirlink ip (cstr dot) (s.itable ip).inum (junk 0) s
    if ok then dirlink ip (cstr dotdot) (s.itable dp).inum (junk 1) s else .ok (false, s)
  else .ok (true, s)

/-- The entries that `create` makes: in the new directory, then in its parent. -/
def createLinks (dp ip : Slot) (name : List UInt8) (type : UInt16) (junk : ℕ → Dirent) (s : FS) :
    Except Panic (Bool × FS) := do
  let (ok, s) ← createDots dp ip type junk s
  if ok then dirlink dp (cstr name) (s.itable ip).inum (junk 2) s else .ok (false, s)

/-- The part of `create` after `ialloc`: the new inode is initialised and linked; if that fails it
is freed again. -/
def createNew (dp ip : Slot) (name : List UInt8) (type major minor : UInt16) (junk : ℕ → Dirent)
    (s : FS) : Except Panic (Option Slot × FS) := do
  let s ← ilock ip s
  let s ← setAttrs ip major minor 1 s
  let (ok, s) ← createLinks dp ip name type junk s
  if ok then do
    let s ← setParentNlink dp type ((s.itable dp).nlink + 1) s
    let s ← iunlockput dp s
    .ok (some ip, s)
  else do
    let s ← setNlink ip 0 s
    let s ← iunlockput ip s
    let s ← iunlockput dp s
    .ok (none, s)

/-- The part of `create` after the parent directory `dp` has been found. -/
def createAt (dp : Slot) (name : List UInt8) (type major minor : UInt16) (junk : ℕ → Dirent)
    (s : FS) : Except Panic (Option Slot × FS) := do
  let s ← ilock dp s
  let (r, s) ← dirlookup dp (cstr name) s
  match r with
  | some (ip, _) => do
    let s ← iunlockput dp s
    let s ← ilock ip s
    if type = T_FILE ∧ ((s.itable ip).type = T_FILE ∨ (s.itable ip).type = T_DEVICE) then
      .ok (some ip, s)
    else do
      let s ← iunlockput ip s
      .ok (none, s)
  | none => do
    let (r, s) ← ialloc (s.itable dp).dev type s
    match r with
    | none => do
      let s ← iunlockput dp s
      .ok (none, s)
    | some ip => createNew dp ip name type major minor junk s

/-- Create a file, or find it if it exists; the inode is returned with its lock held. -/
def create (path : List UInt8) (type major minor : UInt16) (cwd : Slot) (junk : ℕ → Dirent)
    (s : FS) : Except Panic (Option Slot × FS) := do
  let (r, s) ← nameiparent path cwd s
  match r with
  | none => .ok (none, s)
  | some (dp, name) => createAt dp name type major minor junk s

/-- The loop of `isdirempty`. -/
def emptyLoop (dp : Slot) : (fuel off : ℕ) → FS → Except Panic (Bool × FS)
  | 0, _, s => .ok (true, s)
  | fuel + 1, off, s =>
    if off < (s.itable dp).size.toNat then do
      let (de, s) ← readEntry .emptyRead dp off s
      if de.inum ≠ 0 then .ok (false, s) else emptyLoop dp fuel (off + direntSize) s
    else .ok (true, s)

/-- Whether a directory has no entries except the first two. -/
def isdirempty (dp : Slot) (s : FS) : Except Panic (Bool × FS) :=
  emptyLoop dp ((s.itable dp).size.toNat / direntSize + 1) (2 * direntSize) s

/-- A file can be removed, a directory only if it is empty. -/
def mayUnlink (ip : Slot) (s : FS) : Except Panic (Bool × FS) :=
  if (s.itable ip).type = T_DIR then isdirempty ip s else .ok (true, s)

/-- The removal of the entry at `off` of `dp`, which is the name of the locked inode `ip`. -/
def removeEntry (dp ip : Slot) (off : ℕ) (s : FS) : Except Panic FS := do
  let (r, s) ← writei dp (kernelSrc fun _ => 0) off direntSize s
  if r ≠ some direntSize then .error .unlinkWrite
  else do
    let s ← setParentNlink dp (s.itable ip).type ((s.itable dp).nlink - 1) s
    let s ← iunlockput dp s
    let s ← setNlink ip ((s.itable ip).nlink - 1) s
    iunlockput ip s

/-- The part of `sys_unlink` after the parent directory has been found. `nlink` is signed. -/
def unlinkAt (dp : Slot) (name : List UInt8) (s : FS) : Except Panic (Bool × FS) := do
  let s ← ilock dp s
  if strncmp (cstr name) (cstr dot) DIRSIZ = 0 ∨ strncmp (cstr name) (cstr dotdot) DIRSIZ = 0 then do
    let s ← iunlockput dp s
    .ok (false, s)
  else do
    let (r, s) ← dirlookup dp (cstr name) s
    match r with
    | none => do
      let s ← iunlockput dp s
      .ok (false, s)
    | some (ip, off) => do
      let s ← ilock ip s
      if (s.itable ip).nlink.toInt16 < 1 then .error .unlinkNlink
      else do
        let (empty, s) ← mayUnlink ip s
        if empty then do
          let s ← removeEntry dp ip off s
          .ok (true, s)
        else do
          let s ← iunlockput ip s
          let s ← iunlockput dp s
          .ok (false, s)

/-- `sys_unlink` between `begin_op` and `end_op`; the result is `false` for `-1`. -/
def sysUnlink (path : List UInt8) (cwd : Slot) (s : FS) : Except Panic (Bool × FS) := do
  let (r, s) ← nameiparent path cwd s
  match r with
  | none => .ok (false, s)
  | some (dp, name) => unlinkAt dp name s

end RiscvOs.Fs
