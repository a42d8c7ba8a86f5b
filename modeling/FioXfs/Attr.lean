import FioXfs.Crc
import FioXfs.Lib.Levels
import FioXfs.Lib.Numeral
import FioXfs.Lib.Utf8
import FioXfs.Superblock
set_option autoImplicit false

/-!
# Extended attributes (`attr.rs`)

Short form in the inode, or leaf and node blocks in the attribute fork, with large values in
blocks of their own.  A name is the UTF-8 bytes of the source's `String`.
-/

namespace FioXfs.Attr

open FioXfs.Lib

/-- One extended attribute. -/
structure Xattr where
  /-- The full name, such as `security.selinux`. -/
  name : Bytes
  /-- The value, which is bytes rather than text. -/
  value : Bytes
  deriving DecidableEq

def LOCAL : Nat := 0x01
def ROOT : Nat := 0x02
def SECURE : Nat := 0x04
def PARENT : Nat := 0x08
def INCOMPLETE : Nat := 0x80

def LEAF_MAGIC_V4 : Nat := 0xfbee
def LEAF_MAGIC_V5 : Nat := 0x3bee
def NODE_MAGIC_V4 : Nat := 0xfebe
def NODE_MAGIC_V5 : Nat := 0x3ebe
def RMT_MAGIC : Nat := 0x5841524d

/-- Header length of a v5 remote value block. -/
def RMT_HDR : Nat := 56

/-- An attribute's value, or where it is. -/
inductive Value where
  /-- The value, stored with the name. -/
  | inline (value : Bytes)
  /-- Stored in blocks of its own, from logical block `blk`, `len` bytes long. -/
  | remote (blk len : Nat)
  deriving DecidableEq

/-- A name as found, before its value is fetched. -/
structure Found where
  name : Bytes
  value : Value
  deriving DecidableEq

/-- The name a namespace bit gives an on-disk attribute name, or `none` for entries that are not
user-visible attributes at all. -/
def fullName (flags : Nat) (name : Bytes) : Option Bytes :=
  if hasBit flags (INCOMPLETE ||| PARENT) then none
  else
    let name := fromUtf8Lossy name
    some <|
      if hasBit flags SECURE then ascii "security." ++ name
      else if hasBit flags ROOT then
        if name = ascii "SGI_ACL_FILE" then ascii "system.posix_acl_access"
        else if name = ascii "SGI_ACL_DEFAULT" then ascii "system.posix_acl_default"
        else ascii "trusted." ++ name
      else ascii "user." ++ name

/-- One entry of an on-disk ACL as `system.posix_acl_*` has it.  Only named users and groups
carry an ID. -/
def aclEntry (e : Bytes) : Bytes :=
  let tag := be32 e 0
  let id := if tag = 0x02 ∨ tag = 0x08 then be32 e 4 else 2 ^ 32 - 1
  toLe 2 tag ++ toLe 2 (be16 e 8) ++ toLe 4 id

/-- Rewrite an XFS on-disk ACL into the `system.posix_acl_*` value Linux reports for it. -/
def posixAcl (xfs : Bytes) : Result Bytes := do
  failIf (xfs.length < 4) (.corrupt "ACL shorter than its count")
  let count := be32 xfs 0
  failIf (xfs.length < 4 + count * 12) (.corrupt "ACL shorter than its entries")
  return toLe 4 2 ++ (List.range count).flatMap fun i => aclEntry (xfs.drop (4 + i * 12))

/-! ## Short form -/

/-- The name found under `flags` with its value, when it is one. -/
def found (flags : Nat) (name : Bytes) (value : Value) : List Found :=
  ((fullName flags name).map fun n => ⟨n, value⟩).toList

/-- `count` short-form attributes from offset `p`. -/
def shortAttrs (fork : Bytes) (total : Nat) : Nat → Nat → Result (List Found)
  | 0, _ => return []
  | count + 1, p => do
      let offEnd : Error := .corrupt "short-form attribute runs off the fork"
      failIf (total < p + 3) offEnd
      let namelen := getBe 1 fork p
      let valuelen := getBe 1 fork (p + 1)
      let nameAt := p + 3
      let stop := nameAt + namelen + valuelen
      failIf (total < stop) offEnd
      let rest ← shortAttrs fork total count stop
      return found (getBe 1 fork (p + 2)) (slice fork nameAt namelen)
        (.inline (slice fork (nameAt + namelen) valuelen)) ++ rest

/-- Parse a short-form attribute fork. -/
def parseShortform (fork : Bytes) : Result (List Found) := do
  failIf (fork.length < 4) (.corrupt "short-form attributes: no header")
  shortAttrs fork (min (be16 fork 0) fork.length) (getBe 1 fork 2) 4

/-! ## Blocks -/

/-- What an attribute fork block turned out to be. -/
inductive Block where
  /-- A leaf: its names, and the next leaf's block, 0 for none. -/
  | leaf (found : List Found) (forw : Nat)
  /-- An interior node: its leftmost child's block. -/
  | node (firstChild : Nat)
  deriving DecidableEq

/-- The checksum and the owner of a v5 block. -/
def checkBlock (sb : Superblock) (buf : Bytes) (ino fsb : Nat) : Result Unit :=
  if sb.isV5 then do
    failIf (Crc.verify buf 12 = false) (.corrupt s!"inode {ino}: attribute block {fsb} checksum")
    failIf (be64 buf 48 ≠ ino)
      (.corrupt s!"inode {ino}: attribute block {fsb} owned by {be64 buf 48}")
  else .ok ()

/-- The attribute at index entry `e` of a leaf. -/
def leafAttr (buf : Bytes) (bad : Error) (e : Nat) : Result (List Found) :=
  let nameidx := be16 buf (e + 4)
  let flags := getBe 1 buf (e + 6)
  if hasBit flags LOCAL then do
    -- valuelen u16, namelen u8, name, value.
    failIf (buf.length < nameidx + 3) bad
    let valuelen := be16 buf nameidx
    let namelen := getBe 1 buf (nameidx + 2)
    let nameAt := nameidx + 3
    failIf (buf.length < nameAt + namelen + valuelen) bad
    return found flags (slice buf nameAt namelen) (.inline (slice buf (nameAt + namelen) valuelen))
  else do
    -- valueblk u32, valuelen u32, namelen u8, name.
    failIf (buf.length < nameidx + 9) bad
    let namelen := getBe 1 buf (nameidx + 8)
    let nameAt := nameidx + 9
    failIf (buf.length < nameAt + namelen) bad
    return found flags (slice buf nameAt namelen)
      (.remote (be32 buf nameidx) (be32 buf (nameidx + 4)))

/-- Parse one attribute fork block (`fsb` is for messages). -/
def parseBlock (sb : Superblock) (buf : Bytes) (ino fsb : Nat) : Result Block := do
  let magic := be16 buf 8
  let v5 := sb.isV5
  let leaf := if v5 then LEAF_MAGIC_V5 else LEAF_MAGIC_V4
  let node := if v5 then NODE_MAGIC_V5 else NODE_MAGIC_V4
  failIf (magic ≠ leaf ∧ magic ≠ node)
    (.corrupt s!"inode {ino}: attribute block {fsb} magic {hex magic}")
  checkBlock sb buf ino fsb
  if magic = node then do
    failIf (be16 buf (if v5 then 56 else 12) = 0) (.corrupt s!"inode {ino}: empty attribute node {fsb}")
    return .node (be32 buf ((if v5 then 64 else 16) + 4))
  let count := be16 buf (if v5 then 56 else 12)
  let entries := if v5 then 80 else 32
  failIf (buf.length < entries + count * 8)
    (.corrupt s!"inode {ino}: attribute leaf {fsb} count {count}")
  let names ← (List.range count).mapM fun i =>
    leafAttr buf (.corrupt s!"inode {ino}: attribute leaf {fsb} entry {i}") (entries + i * 8)
  return .leaf names.flatten (be32 buf 0)

/-- Blocks a remote value of `len` bytes occupies. -/
def remoteBlocks (sb : Superblock) (len : Nat) : Nat :=
  divCeil len (if sb.isV5 then sb.blockSize - RMT_HDR else sb.blockSize)

/-- The value bytes of one remote value block, checked. -/
def remotePayload (sb : Superblock) (buf : Bytes) (ino want : Nat) : Result Bytes :=
  if sb.isV5 then do
    failIf (be32 buf 0 ≠ RMT_MAGIC ∨ Crc.verify buf 12 = false ∨ be64 buf 32 ≠ ino)
      (.corrupt s!"inode {ino}: remote attribute value block")
    let bytes := be32 buf 8
    failIf (buf.length < RMT_HDR + bytes)
      (.corrupt s!"inode {ino}: remote attribute value of {bytes} bytes")
    return slice buf RMT_HDR bytes
  else .ok (buf.take want)

/-! ## Names -/

end FioXfs.Attr
