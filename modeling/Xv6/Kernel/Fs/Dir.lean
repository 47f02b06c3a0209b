import Xv6.Kernel.Fs.Inode
import Xv6.Kernel.String

/-! Directories and path names. A path is the list of its characters, without the NUL. -/
namespace Xv6.Fs
open Lib

def dirsiz : ℕ := 14

/-- `sizeof(struct dirent)`. -/
def direntSize : ℕ := 16

/-- `struct dirent`; `inum` is a `ushort`, and `name` has `DIRSIZ` bytes. -/
structure Dirent where
  inum : ℕ
  name : Bytes

def Dirent.decode (b : Bytes) : Dirent := { inum := b.get 0 2, name := fun k => b (2 + k) }

def Dirent.encode (de : Dirent) : Bytes := fun k =>
  if k < 2 then UInt8.ofNat (de.inum / 256 ^ k) else de.name (k - 2)

def namecmp (s t : Bytes) : ℤ := strncmp s t dirsiz

section
variable (sb : Superblock)

/-- The entry at `off`; `why` is the panic of the caller. -/
def readDirent (i : Fin ninode) (off : ℕ) (why : Panic) : FsM Dirent := do
  let (r, de) ← readi sb i .kernel (fun _ => 0) off direntSize
  if r ≠ direntSize then throw (.panic why)
  return Dirent.decode de

def writeDirent (i : Fin ninode) (off : ℕ) (de : Dirent) (why : Panic) : FsM Unit := do
  let r ← writei sb i (.kernel de.encode) off direntSize
  if r ≠ direntSize then throw (.panic why)

/-- The loop of `dirlookup`. -/
def dirlookupLoop (dp : Fin ninode) (name : Bytes) : ℕ → ℕ → FsM (Option (Fin ninode × ℕ))
  | 0, _ => return none
  | fuel + 1, off => do
    if off < ((← get).din dp).size then do
      let de ← readDirent sb dp off .dirlookupRead
      if de.inum ≠ 0 ∧ namecmp name de.name = 0 then do
        let ip ← iget de.inum
        return some (ip, off)
      else dirlookupLoop dp name fuel (off + direntSize)
    else return none

/-- The inode that `name` stands for, and the offset of its entry. -/
def dirlookup (dp : Fin ninode) (name : Bytes) : FsM (Option (Fin ninode × ℕ)) := do
  let s ← get
  if (s.din dp).type ≠ .dir then throw (.panic .dirlookupNotDir)
  dirlookupLoop sb dp name ((s.din dp).size / direntSize + 1) 0

/-- The offset at which the loop of `dirlink` ends. -/
def dirlinkLoop (dp : Fin ninode) : ℕ → ℕ → FsM ℕ
  | 0, off => return off
  | fuel + 1, off => do
    if off < ((← get).din dp).size then do
      let de ← readDirent sb dp off .dirlinkRead
      if de.inum = 0 then return off
      else dirlinkLoop dp fuel (off + direntSize)
    else return off

/-- `strncpy` fills the name of the entry, whatever was in it. -/
def dirlink (dp : Fin ninode) (name : Bytes) (inum : ℕ) : FsM ℤ := do
  match ← dirlookup sb dp name with
  | some (ip, _) => do
    iput sb ip
    return -1
  | none => do
    let off ← dirlinkLoop sb dp (((← get).din dp).size / direntSize + 1) 0
    writeDirent sb dp off { inum := inum % 2 ^ 16, name := strncpy (fun _ => 0) name dirsiz } .dirlink
    return 0

/-- How `sys_unlink` takes an entry away. -/
def eraseDirent (dp : Fin ninode) (off : ℕ) : FsM Unit :=
  writeDirent sb dp off { inum := 0, name := fun _ => 0 } .unlinkWritei

def slash : UInt8 := 47

/-- How `skipelem` copies the element `s` to `name`. -/
def copyElem (s : List UInt8) (name : Bytes) : Bytes :=
  if dirsiz ≤ s.length then name.blit 0 dirsiz fun k => s.getD k 0
  else Function.update (name.blit 0 s.length fun k => s.getD k 0) s.length 0

/-- The path after its first element, which goes to `name`. -/
def skipelem (path : List UInt8) (name : Bytes) : Option (List UInt8 × Bytes) :=
  let path := path.dropWhile (· = slash)
  if path = [] then none
  else
    some ((path.dropWhile (· ≠ slash)).dropWhile (· = slash), copyElem (path.takeWhile (· ≠ slash)) name)

/-- The loop of `namex`. Every turn takes a character of the path. -/
def namexLoop (nameiparent : Bool) : ℕ → Fin ninode → List UInt8 → Bytes → FsM (Option (Fin ninode) × Bytes)
  | 0, _, _, name => return (none, name)
  | fuel + 1, ip, path, name =>
    match skipelem path name with
    | none =>
      if nameiparent then do
        iput sb ip
        return (none, name)
      else return (some ip, name)
    | some (path, name) => do
      ilock ip
      if ((← get).din ip).type ≠ .dir then do
        iunlockput sb ip
        return (none, name)
      else if nameiparent && path.isEmpty then do
        -- stop one level early
        iunlock ip
        return (some ip, name)
      else
        match ← dirlookup sb ip name with
        | none => do
          iunlockput sb ip
          return (none, name)
        | some (next, _) => do
          iunlockput sb ip
          namexLoop nameiparent fuel next path name

def namex (cwd : Fin ninode) (path : List UInt8) (nameiparent : Bool) (name : Bytes) :
    FsM (Option (Fin ninode) × Bytes) := do
  let ip ← if path.head? = some slash then iget rootino else idup cwd
  namexLoop sb nameiparent (path.length + 1) ip path name

def namei (cwd : Fin ninode) (path : List UInt8) : FsM (Option (Fin ninode)) := do
  let (ip, _) ← namex sb cwd path false fun _ => 0
  return ip

def nameiparent (cwd : Fin ninode) (path : List UInt8) : FsM (Option (Fin ninode) × Bytes) :=
  namex sb cwd path true fun _ => 0

end

end Xv6.Fs
