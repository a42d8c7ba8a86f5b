import FioXfs.Lib.Steps
import FioXfs.Tar
import FioXfs.Volume.Walk
import FioXfs.Volume.Xattrs
set_option autoImplicit false

/-!
# Getting a tree out (`export.rs`)

Into a tar stream, or onto the local filesystem.  Both go through the names of a walk in order and
stop at the first that fails, so what they do is a list of steps and how it ended.  A step that the
sink or the host refuses is the last; whether they take it is all that either asks of them.  The
counts of the reports are left out.
-/

namespace FioXfs

open FioXfs.Lib

/-- File content is read and written in pieces this large. -/
def CHUNK : Nat := 2 ^ 20

/-- What is done up to an error. -/
abbrev Steps (α : Type) : Type := Lib.Steps Error α

namespace Volume

/-- A file's contents from `off` on, piece by piece. -/
def readPieces (v : Volume) (i : Inode) (extents : List Bmap.Extent) (size : Nat) :
    Nat → Nat → Steps Bytes
  | 0, _ => ⟨[], some (.panic "out of fuel")⟩
  | fuel + 1, off =>
      if off < size then
        match v.readInodeRange i extents off CHUNK with
        | .error e => ⟨[], some e⟩
        | .ok chunk =>
            Lib.Steps.andThen ⟨[chunk], none⟩
              (readPieces v i extents size fuel (off + chunk.length))
      else ⟨[], none⟩

/-- A file's contents, piece by piece. -/
def contentsOf (v : Volume) (i : Inode) (size : Nat) : Steps Bytes :=
  match v.extents i false with
  | .error e => ⟨[], some e⟩
  | .ok extents => v.readPieces i extents size (size + 1) 0

/-- The first path of an inode with several links, when it has been seen. -/
def firstSeen (seen : List (Nat × Bytes)) (st : Stat) : Option Bytes :=
  if st.isDir = false ∧ 1 < st.links then seen.lookup st.inode else none

/-- The paths seen, with this one when its inode has several links. -/
def nowSeen (seen : List (Nat × Bytes)) (st : Stat) (path : Bytes) : List (Nat × Bytes) :=
  if st.isDir = false ∧ 1 < st.links then (st.inode, path) :: seen else seen

/-! ## Packing -/

/-- An entry handed to the writer, which stops at a header it cannot write. -/
def hand (ino : Nat) (h : Tar.Header) (pieces : Steps Bytes) : Steps (Nat × Tar.Entry) :=
  match Tar.extendedRecords h (Tar.ustar h.path h.kind.flag h h.contents).2 with
  | .error e => ⟨[], some e⟩
  | .ok _ => ⟨[(ino, ⟨h, pieces.done⟩)], pieces.error⟩

/-- The attributes an entry carries; a symbolic link's has none. -/
def packXattrs (v : Volume) (i : Inode) (st : Stat) : Result (List (Bytes × Bytes)) :=
  if st.ftype ≠ Mode.IFLNK then do
    let xattrs ← v.xattrsInode i
    return xattrs.map fun x => (x.name, x.value)
  else .ok []

/-- An entry of its own for a name. -/
def packOwn (v : Volume) (i : Inode) (e : WalkEntry) (h : Tar.Header) : Steps (Nat × Tar.Entry) :=
  let st := e.stat
  if st.ftype = Mode.IFDIR then
    hand st.inode { h with kind := .directory, path := h.path ++ [SLASH] } ⟨[], none⟩
  else if st.ftype = Mode.IFLNK then
    match v.symlinkTarget i with
    | .error err => ⟨[], some err⟩
    | .ok target => hand st.inode { h with kind := .symlink, link := target } ⟨[], none⟩
  else if st.ftype = Mode.IFCHR ∨ st.ftype = Mode.IFBLK ∨ st.ftype = Mode.IFIFO then
    let kind :=
      if st.ftype = Mode.IFCHR then Tar.EntryKind.charDevice
      else if st.ftype = Mode.IFBLK then .blockDevice
      else .fifo
    hand st.inode { h with kind := kind, major := st.rdev.1, minor := st.rdev.2 } ⟨[], none⟩
  else if st.ftype = Mode.IFREG then
    hand st.inode { h with size := st.size } (v.contentsOf i st.size)
  else ⟨[], some (.corrupt s!"{shown e.rawPath}: file type {oct st.ftype}")⟩

/-- The header every entry starts from. -/
def packHeader (e : WalkEntry) : Tar.Header :=
  { path := e.rawPath, mode := e.stat.mode &&& 0o7777, uid := e.stat.uid, gid := e.stat.gid
    mtime := e.stat.mtime }

/-- Pack one name: the first names seen by then, and the entry written for it, with the inode it
is for. -/
def packOne (v : Volume) (seen : List (Nat × Bytes)) (e : WalkEntry) :
    List (Nat × Bytes) × Steps (Nat × Tar.Entry) :=
  match v.inode e.stat.inode with
  | .error err => (seen, ⟨[], some err⟩)
  | .ok i =>
      match firstSeen seen e.stat with
      | some first =>
          (seen, hand e.stat.inode { packHeader e with kind := .hardLink, link := first } ⟨[], none⟩)
      | none =>
          let seen := nowSeen seen e.stat e.rawPath
          if e.stat.ftype = Mode.IFSOCK then (seen, ⟨[], none⟩)
          else
            match v.packXattrs i e.stat with
            | .error err => (seen, ⟨[], some err⟩)
            | .ok xattrs => (seen, v.packOwn i e { packHeader e with xattrs := xattrs })

/-- The entries `pack_into` has for the names of a walk, with the inode each is for. -/
def packEntries (v : Volume) (es : List WalkEntry) : Steps (Nat × Tar.Entry) :=
  Lib.Steps.run v.packOne [] es

/-- The entries `pack_into` writes to a sink, from the sink's state `k` on. -/
def packInto {κ : Type} (v : Volume) (sink : κ → Nat × Tar.Entry → Option κ) (k : κ)
    (es : List WalkEntry) : Steps (Nat × Tar.Entry) :=
  (v.packEntries es).handed sink (.io "the sink failed") k

/-! ## The local filesystem -/

/-- What extracting asks of the local filesystem. -/
inductive HostOp where
  | createDir (path : Bytes)
  | symlink (target path : Bytes)
  | createFile (path : Bytes)
  /-- Write to the file just created. -/
  | write (path piece : Bytes)
  /-- Give the file just created its size and its time. -/
  | finish (path : Bytes) (size : Nat) (mtime : Timestamp)
  | hardLink (first path : Bytes)
  | setMode (path : Bytes) (mode : Nat)
  | lchown (path : Bytes) (uid gid : Nat)
  /-- Open a directory and set its time. -/
  | openDir (path : Bytes) (mtime : Timestamp)
  deriving DecidableEq

/-- The paths an operation names; a file that is open is not named again. -/
def HostOp.paths : HostOp → List Bytes
  | .hardLink first path => [first, path]
  | .createDir path | .symlink _ path | .createFile path | .setMode path _ | .lchown path _ _
  | .openDir path _ => [path]
  | .write _ _ | .finish _ _ _ => []

/-- The path at which an operation follows a symbolic link. -/
def HostOp.follows : HostOp → Option Bytes
  | .createFile path | .setMode path _ | .openDir path _ => some path
  | _ => none

/-- Whether a NUL byte is in what an operation hands to the host by name. -/
def HostOp.hasNul : HostOp → Bool
  | .symlink target path => decide (0 ∈ target ∨ 0 ∈ path)
  | op => op.paths.any fun path => decide (0 ∈ path)

/-- What is at a path. -/
inductive Node where
  | dir
  | file
  | link (target : Bytes)
  deriving DecidableEq

/-- What has been made, by path. -/
abbrev Host : Type := Bytes → Option Node

/-- One more thing made. -/
def Host.set (h : Host) (path : Bytes) (n : Node) : Host := fun q => if q = path then some n else h q

/-- The ways of a local filesystem. -/
structure LocalFs where
  /-- Whether it refuses what could be done: no room, no permission, no such directory, a name or
  a target too long. -/
  refuses : Host → HostOp → Bool
  /-- Where a symbolic link leads: to a path below the destination, or out of it. -/
  leads : Host → Bytes → Bytes → Option Bytes
  /-- A file made where a link leads is where it leads. -/
  stays : ∀ h path target q, leads h path target = some q →
    leads (h.set q .file) path target = some q

/-- Where a path leads, when that is below the destination. -/
def LocalFs.follow (fs : LocalFs) (h : Host) (path : Bytes) : Option Bytes :=
  match h path with
  | some (.link target) => fs.leads h path target
  | _ => some path

/-- What is there after an operation, unless what is there stands in its way.  What is done outside
leaves all below the destination as it is. -/
def LocalFs.effect (fs : LocalFs) (h : Host) : HostOp → Option Host
  | .createDir path => if (h path).isNone then some (h.set path .dir) else none
  | .symlink target path => if (h path).isNone then some (h.set path (.link target)) else none
  | .createFile path =>
      match fs.follow h path with
      | none => some h
      | some q =>
          match h q with
          | none => some (h.set q .file)
          | some .file => some h
          | some _ => none
  | .hardLink first path =>
      match h first with
      | some .dir => none
      | none => none
      | some n => if (h path).isNone then some (h.set path n) else none
  | .setMode path _ | .openDir path _ =>
      match fs.follow h path with
      | none => some h
      | some q => if (h q).isNone then none else some h
  | .lchown path _ _ => if (h path).isNone then none else some h
  | .write _ _ | .finish _ _ _ => some h

/-- What the host does when asked, unless it refuses: always what has a NUL byte in it. -/
def LocalFs.perform (fs : LocalFs) (h : Host) (op : HostOp) : Option Host :=
  if op.hasNul ∨ fs.refuses h op then none else fs.effect h op

/-! ## Extracting -/

/-- A path below `dest`; an absolute one replaces it. -/
def joinTo (dest path : Bytes) : Bytes :=
  if path.head? = some SLASH then path
  else if dest = [] ∨ dest.getLast? = some SLASH then dest ++ path
  else dest ++ [SLASH] ++ path

/-- A directory made, with the mode and the time it gets in the end. -/
structure MadeDir where
  ino : Nat
  path : Bytes
  mode : Nat
  mtime : Timestamp

/-- What extracting keeps between names: the first paths of inodes with several links, and the
directories made. -/
structure ExtractState where
  seen : List (Nat × Bytes)
  dirs : List MadeDir

/-- Set the permission bits. -/
def setMode (path : Bytes) (mode : Nat) : HostOp := .setMode path (mode &&& 0o7777)

/-- Set the owner, when asked to. -/
def setOwner (owner : Bool) (st : Stat) (path : Bytes) : List HostOp :=
  if owner then [.lchown path st.uid st.gid] else []

/-- A file's contents, piece by piece into the file created at `path`. -/
def writeOut (path : Bytes) (pieces : Steps Bytes) : Steps HostOp :=
  ⟨pieces.done.map (.write path), pieces.error⟩

/-- What is made for a name of its own. -/
def extractOwn (v : Volume) (owner : Bool) (i : Inode) (st : Stat) (path : Bytes) : Steps HostOp :=
  if st.ftype = Mode.IFDIR then
    ⟨[.createDir path, setMode path 0o700] ++ setOwner owner st path, none⟩
  else if st.ftype = Mode.IFLNK then
    match v.symlinkTarget i with
    | .error err => ⟨[], some err⟩
    | .ok target => ⟨[.symlink target path] ++ setOwner owner st path, none⟩
  else if st.ftype = Mode.IFREG then
    Lib.Steps.andThen ⟨[.createFile path], none⟩
      ((writeOut path (v.contentsOf i st.size)).andThen
        ⟨[.finish path st.size st.mtime] ++ setOwner owner st path ++ [setMode path st.mode], none⟩)
  else ⟨[], none⟩

/-- Steps for one inode. -/
def stepsFor (ino : Nat) (s : Steps HostOp) : Steps (Nat × HostOp) :=
  ⟨s.done.map fun op => (ino, op), s.error⟩

/-- Extract one name: what is asked of the host, each time with the inode it is for. -/
def extractOne (v : Volume) (owner : Bool) (dest : Bytes) (s : ExtractState) (e : WalkEntry) :
    ExtractState × Steps (Nat × HostOp) :=
  let st := e.stat
  let path := joinTo dest e.rawPath
  match v.inode st.inode with
  | .error err => (s, ⟨[], some err⟩)
  | .ok i =>
      match firstSeen s.seen st with
      | some first => (s, ⟨[(st.inode, .hardLink first path)], none⟩)
      | none =>
          let s : ExtractState := ⟨nowSeen s.seen st path, s.dirs⟩
          match v.packXattrs i st with
          | .error err => (s, ⟨[], some err⟩)
          | .ok _ =>
              let made := if st.ftype = Mode.IFDIR then [⟨st.inode, path, st.mode, st.mtime⟩] else []
              (⟨s.seen, s.dirs ++ made⟩, stepsFor st.inode (v.extractOwn owner i st path))

/-- The directories made get their mode and time, the last first. -/
def finishDirs (dirs : List MadeDir) : List (Nat × HostOp) :=
  dirs.reverse.flatMap fun d => [(d.ino, .openDir d.path d.mtime), (d.ino, setMode d.path d.mode)]

/-- What `extract` asks for the names of a walk, of a host that refuses nothing. -/
def extractOps (v : Volume) (owner : Bool) (dest : Bytes) (es : List WalkEntry) :
    Steps (Nat × HostOp) :=
  (Lib.Steps.run (v.extractOne owner dest) ⟨[], []⟩ es).andThen
    ⟨finishDirs (Lib.Steps.after (v.extractOne owner dest) ⟨[], []⟩ es).dirs, none⟩

/-- What the host does when asked for one inode. -/
def LocalFs.take (fs : LocalFs) (h : Host) (x : Nat × HostOp) : Option Host := fs.perform h x.2

/-- What `extract` asks of the host for the names of a walk, once `dest` is there. -/
def extract (v : Volume) (owner : Bool) (dest : Bytes) (fs : LocalFs) (h : Host)
    (es : List WalkEntry) : Steps (Nat × HostOp) :=
  (v.extractOps owner dest es).handed fs.take (.io "the host refused") h

end Volume

end FioXfs
