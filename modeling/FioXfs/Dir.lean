import FioXfs.Inode
set_option autoImplicit false

/-!
# Directories (`dir.rs`)

Reading a directory's names: the short form that lives in the inode, and the data
blocks of the other three forms, whose hash indexes are not needed to list them.
Blocks are as long as the superblock says, so the fixed fields of a header and a tail
are inside them; the loop over entries checks its own bounds.
-/

namespace FioXfs.Dir

open FioXfs.Lib

/-- Byte offset in a directory's logical space where the leaf (index) blocks begin;
data blocks lie below it. -/
def LEAF_OFFSET : Nat := 2 ^ 35

def XD2B : Nat := 0x58443242
def XD2D : Nat := 0x58443244
def XDB3 : Nat := 0x58444233
def XDD3 : Nat := 0x58444433

/-- The type of a name, as recorded in a directory entry. -/
inductive FileType where
  /-- Not recorded (a filesystem without `ftype`). -/
  | unknown
  /-- Regular file. -/
  | file
  /-- Directory. -/
  | directory
  /-- Character device. -/
  | charDevice
  /-- Block device. -/
  | blockDevice
  /-- FIFO. -/
  | fifo
  /-- Socket. -/
  | socket
  /-- Symbolic link. -/
  | symlink
  deriving DecidableEq

namespace FileType

/-- The type a directory entry's `ftype` byte names. -/
def fromFtype : Nat → FileType
  | 1 => .file
  | 2 => .directory
  | 3 => .charDevice
  | 4 => .blockDevice
  | 5 => .fifo
  | 6 => .socket
  | 7 => .symlink
  | _ => .unknown

/-- The `ftype` byte a directory entry stores for this type. -/
def code : FileType → Nat
  | unknown => 0
  | file => 1
  | directory => 2
  | charDevice => 3
  | blockDevice => 4
  | fifo => 5
  | socket => 6
  | symlink => 7

/-- The type named by an inode's mode. -/
def fromMode (mode : Nat) : FileType :=
  let t := mode &&& Mode.IFMT
  if t = Mode.IFREG then file
  else if t = Mode.IFDIR then directory
  else if t = Mode.IFCHR then charDevice
  else if t = Mode.IFBLK then blockDevice
  else if t = Mode.IFIFO then fifo
  else if t = Mode.IFSOCK then socket
  else if t = Mode.IFLNK then symlink
  else unknown

theorem fromFtype_code (t : FileType) : fromFtype t.code = t := by
  cases t <;> rfl

end FileType

/-- One name in a directory, as stored. -/
structure RawEntry where
  /-- The name's bytes. -/
  name : Bytes
  /-- Its inode. -/
  ino : Nat
  /-- Its type, when the filesystem records one. -/
  ftype : FileType
  deriving DecidableEq

/-- Bytes an entry's type takes. -/
def ftypeLen (sb : Superblock) : Nat := if sb.hasFtype then 1 else 0

/-- The type in the byte after a name, when there is one. -/
def ftypeAt (sb : Superblock) (buf : Bytes) (o : Nat) : FileType :=
  if sb.hasFtype then .fromFtype (getBe 1 buf o) else .unknown

/-! ## Short form -/

/-- An inode number of `isz` bytes. -/
def inoAt (isz : Nat) (buf : Bytes) (o : Nat) : Result Nat := do
  failIf (buf.length < o + isz) (.corrupt "short-form directory entry runs off the end")
  return getBe isz buf o

/-- `count` short-form entries from offset `p`. -/
def shortEntries (sb : Superblock) (isz : Nat) (buf : Bytes) : Nat → Nat → Result (List RawEntry)
  | 0, _ => return []
  | count + 1, p => do
      failIf (buf.length < p + 3) (.corrupt "short-form directory entry runs off the end")
      let namelen := getBe 1 buf p
      let after := p + 3 + namelen
      failIf (namelen = 0 ∨ buf.length < after + ftypeLen sb)
        (.corrupt "short-form directory name runs off the end")
      let ino ← inoAt isz buf (after + ftypeLen sb)
      let rest ← shortEntries sb isz buf count (after + ftypeLen sb + isz)
      return ⟨slice buf (p + 3) namelen, ino, ftypeAt sb buf after⟩ :: rest

/-- Parse a short-form directory: the parent and the entries.  `.` and `..` are not
stored in this form. -/
def parseShortform (sb : Superblock) (fork : Bytes) (size : Nat) :
    Result (Nat × List RawEntry) := do
  failIf (size < 6 ∨ fork.length < size) (.corrupt s!"short-form directory of {size} bytes")
  let buf := fork.take size
  let count := getBe 1 buf 0
  let isz := if 0 < getBe 1 buf 1 then 8 else 4
  let parent ← inoAt isz buf 2
  let names ← shortEntries sb isz buf count (2 + isz)
  return (parent, names)

/-! ## Data blocks -/

/-- Bytes an entry of a data block takes. -/
def entryLen (sb : Superblock) (namelen : Nat) : Nat :=
  (8 + 1 + namelen + ftypeLen sb + 2 + 7) / 8 * 8

/-- The entries of a data block from offset `p` to `stop`.  Every turn moves at least
eight bytes on, so there are fewer of them than bytes. -/
def dataEntries (sb : Superblock) (buf : Bytes) (dirIno stop : Nat) :
    Nat → Nat → Result (List RawEntry)
  | 0, p => if p < stop then .error (.panic "out of fuel") else return []
  | fuel + 1, p => do
      if stop ≤ p then return []
      let offBlock : Error := .corrupt s!"directory {dirIno}: entry runs off the block"
      failIf (stop < p + 8) offBlock
      if be16 buf p = 0xffff then do
        -- Free space: tag, length, ... length again at the end.
        let len := be16 buf (p + 2)
        failIf (len < 8 ∨ len % 8 ≠ 0)
          (.corrupt s!"directory {dirIno}: free space of {len} bytes")
        dataEntries sb buf dirIno stop fuel (p + len)
      else do
        failIf (buf.length ≤ p + 8) (.panic "index out of bounds")
        let namelen := getBe 1 buf (p + 8)
        let len := entryLen sb namelen
        failIf (namelen = 0 ∨ stop < p + len) offBlock
        let rest ← dataEntries sb buf dirIno stop fuel (p + len)
        return ⟨slice buf (p + 9) namelen, be64 buf p, ftypeAt sb buf (p + 9 + namelen)⟩ :: rest

/-- A data block's header length and whether it is a single-block directory's, by its
magic. -/
def dataForm (sb : Superblock) (buf : Bytes) (dirIno : Nat) : Result (Nat × Bool) :=
  let magic := be32 buf 0
  if magic = XD2B ∧ sb.isV5 = false then .ok (16, true)
  else if magic = XD2D ∧ sb.isV5 = false then .ok (16, false)
  else if magic = XDB3 ∧ sb.isV5 = true then .ok (64, true)
  else if magic = XDD3 ∧ sb.isV5 = true then .ok (64, false)
  else .error (.corrupt s!"directory {dirIno}: data block magic {hex magic}")

/-- The checksum and the owner of a v5 block. -/
def checkDataBlock (sb : Superblock) (buf : Bytes) (dirIno : Nat) : Result Unit :=
  if sb.isV5 then do
    failIf (Crc.verify buf 4 = false) (.corrupt s!"directory {dirIno}: data block checksum")
    failIf (be64 buf 40 ≠ dirIno)
      (.corrupt s!"directory {dirIno}: data block owned by {be64 buf 40}")
  else .ok ()

/-- Where a block's names stop.  A single-block directory keeps its hash index and a
tail at the end of the same block. -/
def namesEnd (buf : Bytes) (dirIno hdr : Nat) (blockForm : Bool) : Result Nat :=
  if blockForm then do
    let count := be32 buf (buf.length - 8)
    failIf (buf.length < 8 + count * 8 + hdr)
      (.corrupt s!"directory {dirIno}: block tail count {count}")
    return buf.length - (8 + count * 8)
  else .ok buf.length

/-- Parse one directory data block: its names, `.` and `..` included. -/
def parseDataBlock (sb : Superblock) (buf : Bytes) (dirIno : Nat) : Result (List RawEntry) := do
  let (hdr, blockForm) ← dataForm sb buf dirIno
  checkDataBlock sb buf dirIno
  let stop ← namesEnd buf dirIno hdr blockForm
  dataEntries sb buf dirIno stop buf.length hdr

end FioXfs.Dir
