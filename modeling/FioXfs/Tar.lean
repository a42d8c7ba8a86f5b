import FioXfs.Inode
import FioXfs.Lib.Numeral
set_option autoImplicit false

/-!
# Writing tar archives (`tar.rs`)

POSIX ustar with PAX extended headers for anything ustar cannot hold.  The sink is the bytes
written so far, as the source's `Vec<u8>` is.
-/

namespace FioXfs.Tar

open FioXfs.Lib

/-- What an archive entry is. -/
inductive EntryKind where
  /-- Regular file, followed by its contents. -/
  | file
  /-- A second name for a file already in the archive. -/
  | hardLink
  /-- Symbolic link. -/
  | symlink
  /-- Character device. -/
  | charDevice
  /-- Block device. -/
  | blockDevice
  /-- Directory. -/
  | directory
  /-- FIFO. -/
  | fifo
  deriving DecidableEq

/-- The byte a header names a kind by. -/
def EntryKind.flag : EntryKind → UInt8
  | file => 48
  | hardLink => 49
  | symlink => 50
  | charDevice => 51
  | blockDevice => 52
  | directory => 53
  | fifo => 54

/-- One entry's metadata. -/
structure Header where
  /-- Path within the archive, relative.  A directory's gets a trailing `/`. -/
  path : Bytes := []
  /-- What it is. -/
  kind : EntryKind := .file
  /-- Link target, for symlinks and hard links. -/
  link : Bytes := []
  /-- Permission bits (`0o7777`). -/
  mode : Nat := 0
  /-- Owner. -/
  uid : Nat := 0
  /-- Group. -/
  gid : Nat := 0
  /-- Modification time. -/
  mtime : Timestamp := ⟨0, 0⟩
  /-- Bytes of content that follow; regular files only. -/
  size : Nat := 0
  /-- Device major number. -/
  major : Nat := 0
  /-- Device minor number. -/
  minor : Nat := 0
  /-- Extended attributes: each name and value. -/
  xattrs : List (Bytes × Bytes) := []
  deriving DecidableEq

/-- An entry to be packed: its header and its contents, in the pieces they come in. -/
structure Entry where
  header : Header
  pieces : List Bytes

def BLOCK : Nat := 512

/-! ## PAX records -/

/-- `len` until it is `body` and its own digits. -/
def paxLen (body : Nat) : Nat → Nat → Result Nat
  | 0, _ => .error (.panic "out of fuel")
  | fuel + 1, len =>
      if len ≠ body + (numeral 10 len).length then
        paxLen body fuel (body + (numeral 10 len).length)
      else .ok len

/-- One PAX record: `<len> <key>=<value>\n`, where `<len>` counts itself. -/
def paxRecord (key value : Bytes) : Result Bytes := do
  let body := key.length + value.length + 3
  let len ← paxLen body (body + 3) (body + 1)
  return numeral 10 len ++ [32] ++ key ++ [61] ++ value ++ [10]

/-- Records one after another. -/
def paxRecords : List (Bytes × Bytes) → Result Bytes
  | [] => return []
  | r :: rs => do
      let first ← paxRecord r.1 r.2
      let rest ← paxRecords rs
      return first ++ rest

/-- A signed number in decimal. -/
def decimal (n : Int) : Bytes := (if n < 0 then [45] else []) ++ numeral 10 n.natAbs

/-- A time in decimal seconds. -/
def paxTime (t : Timestamp) : Result Bytes :=
  if t.nsecs = 0 then .ok (decimal t.secs)
  else if 0 ≤ t.secs then .ok (decimal t.secs ++ [46] ++ padded 10 9 t.nsecs)
  else do
    failIf (1000000000 < t.nsecs) (.panic "attempt to subtract with overflow")
    return [45] ++ decimal (-(t.secs + 1)) ++ [46] ++ padded 10 9 (1000000000 - t.nsecs)

/-! ## Headers -/

/-- A number in a field of `width` bytes, when it fits. -/
def octal (width v : Nat) : Option Bytes :=
  let digits := width - 1
  if digits < 22 ∧ 2 ^ (3 * digits) ≤ v then none else some (padded 8 digits v ++ [0])

/-- What a number leaves in its field: nothing when it does not fit. -/
def octalText (width v : Nat) : Bytes := (octal width v).getD []

/-- Whether a header has device numbers. -/
def Header.isDevice (h : Header) : Bool := h.kind = .charDevice || h.kind = .blockDevice

/-- What is written into a header before its checksum: each field's offset, width and bytes. -/
def headerFields (path : Bytes) (kind : UInt8) (h : Header) (size : Nat) :
    List (Nat × Nat × Bytes) :=
  [(0, 100, path.take 100),
    (100, 8, octalText 8 (h.mode &&& 0o7777)),
    (108, 8, octalText 8 h.uid),
    (116, 8, octalText 8 h.gid),
    (124, 12, octalText 12 size),
    (136, 12, if 0 ≤ h.mtime.secs then octalText 12 h.mtime.secs.toNat else []),
    (156, 1, [kind]),
    (157, 100, h.link.take 100),
    (257, 6, ascii "ustar" ++ [0]),
    (263, 2, ascii "00"),
    (329, 8, if h.isDevice then octalText 8 h.major else []),
    (337, 8, if h.isDevice then octalText 8 h.minor else []),
    (148, 8, List.replicate 8 32)]

/-- Whether the fields hold all there is to say. -/
def headerFits (path : Bytes) (h : Header) (size : Nat) : Bool :=
  path.length ≤ 100 && (octal 8 (h.mode &&& 0o7777)).isSome && (octal 8 h.uid).isSome &&
    (octal 8 h.gid).isSome && (octal 12 size).isSome &&
    (decide (0 ≤ h.mtime.secs) && (octal 12 h.mtime.secs.toNat).isSome) && h.link.length ≤ 100 &&
    (!h.isDevice || ((octal 8 h.major).isSome && (octal 8 h.minor).isSome))

/-- The sum of a header's bytes. -/
def checksum (b : Bytes) : Nat := (b.map UInt8.toNat).sum

/-- A header block, and whether it says everything about the entry. -/
def ustar (path : Bytes) (kind : UInt8) (h : Header) (size : Nat) : Bytes × Bool :=
  let b := patch (List.replicate BLOCK 0) ((headerFields path kind h size).map fun f => (f.1, f.2.2))
  (splice b 148 (padded 8 6 (checksum b) ++ [0]), headerFits path h size)

/-! ## The writer -/

/-- Writes entries to a sink. -/
structure Writer where
  /-- The sink. -/
  out : Bytes
  /-- Content bytes still owed for the current entry. -/
  owed : Nat
  /-- Padding owed after them. -/
  pad : Nat
  deriving DecidableEq

/-- Zeroes that fill the last block of `n` bytes. -/
def padding (n : Nat) : Nat := (BLOCK - n % BLOCK) % BLOCK

/-- The size a header gives: only a regular file's contents follow. -/
def Header.contents (h : Header) : Nat := if h.kind = .file then h.size else 0

/-- The records that say again what an entry's header may not have been able to. -/
def metadataRecords (h : Header) : Result (List (Bytes × Bytes)) := do
  let time ← paxTime h.mtime
  return (if 100 < h.path.length then [(ascii "path", h.path)] else []) ++
    (if 100 < h.link.length then [(ascii "linkpath", h.link)] else []) ++
    [(ascii "size", numeral 10 h.contents), (ascii "uid", numeral 10 h.uid),
      (ascii "gid", numeral 10 h.gid), (ascii "mtime", time)]

/-- The keyword an attribute's record has. -/
def xattrKey (name : Bytes) : Bytes := ascii "SCHILY.xattr." ++ name

/-- The records of an entry's extended header. -/
def extendedRecords (h : Header) (fits : Bool) : Result (List (Bytes × Bytes)) := do
  let metadata ← (if fits = false ∨ h.mtime.nsecs ≠ 0 then metadataRecords h else .ok [])
  return metadata ++ h.xattrs.map fun x => (xattrKey x.1, x.2)

/-- The last component of a path that is not empty. -/
def baseName (path : Bytes) : Bytes := ((path.splitOn 47).reverse.find? (· ≠ [])).getD (ascii "x")

/-- An extended header and its records, padded. -/
def extendedHeader (h : Header) (pax : Bytes) : Bytes :=
  let name := ascii "PaxHeaders/" ++ (baseName h.path).take 80
  let ph : Header := { mode := 0o644, mtime := ⟨max h.mtime.secs 0, 0⟩ }
  (ustar name 120 ph pax.length).1 ++ pax ++ List.replicate (padding pax.length) 0

namespace Writer

/-- Start an archive. -/
def new : Writer := ⟨[], 0, 0⟩

/-- Write bytes to the sink. -/
def writeAll (bytes : Bytes) : Act Writer Unit := modify fun w => { w with out := w.out ++ bytes }

/-- Pad the current entry's contents. -/
def finishEntry : Act Writer Unit := do
  let pad := (← get).pad
  if 0 < pad then do
    modify fun w => { w with pad := 0 }
    writeAll (List.replicate pad 0)

/-- Begin an entry.  A regular file's `size` bytes of content must follow through `data` before
the next entry. -/
def begin (h : Header) : Act Writer Unit := do
  failIf ((← get).owed ≠ 0) (.panic "the previous entry's content is incomplete")
  finishEntry
  let block := ustar h.path h.kind.flag h h.contents
  let records ← liftE (extendedRecords h block.2)
  let pax ← liftE (paxRecords records)
  if pax ≠ [] then writeAll (extendedHeader h pax)
  writeAll block.1
  modify fun w => { w with owed := h.contents, pad := padding h.contents }

/-- Content of the current entry. -/
def data (buf : Bytes) : Act Writer Unit := do
  failIf ((← get).owed < buf.length) (.panic "more content than the header's size")
  modify fun w => { w with owed := w.owed - buf.length }
  writeAll buf

/-- Write an entry and all of its content at once. -/
def append (h : Header) (content : Bytes) : Act Writer Unit := do
  begin h
  data content

/-- End the archive with its two zero blocks. -/
def finish : Act Writer Unit := do
  failIf ((← get).owed ≠ 0) (.panic "the last entry's content is incomplete")
  finishEntry
  writeAll (List.replicate (2 * BLOCK) 0)

end Writer

end FioXfs.Tar
