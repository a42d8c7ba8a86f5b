import FioXfs.Attr
import FioXfs.Volume
set_option autoImplicit false

/-!
# Extended attributes of an inode (`volume.rs`)

The attribute fork's names in the order its leaves are linked, each with its value fetched.
-/

namespace FioXfs.Volume

open FioXfs.Lib FioXfs.Attr FioXfs.Bmap

/-- Blocks an attribute fork is followed through. -/
def MAX_ATTR_BLOCKS : Nat := 2 ^ 20

/-- The names in an attribute fork's leaves from block `blk` on, with `left` blocks still
allowed. -/
def attrLeaves (v : Volume) (i : Inode) (extents : List Extent) :
    Nat → List Nat → Nat → Result (List Found)
  | 0, _, _ => .error (.corrupt s!"inode {i.ino}: attribute blocks loop")
  | left + 1, seen, blk => do
      failIf (blk ∈ seen) (.corrupt s!"inode {i.ino}: attribute blocks loop")
      let buf ← v.readMapped extents blk 1
      match ← Attr.parseBlock v.sb buf i.ino blk with
      | .node firstChild => attrLeaves v i extents left (blk :: seen) firstChild
      | .leaf names forw =>
          if forw = 0 then return names
          else do
            let rest ← attrLeaves v i extents left (blk :: seen) forw
            return names ++ rest

/-- The names an inode's attribute fork holds. -/
def attrsFound (v : Volume) (i : Inode) : Result (List Found) :=
  match i.aformat with
  | none => .ok []
  | some .local_ => Attr.parseShortform i.attrFork
  | some .dev => .error (.corrupt s!"inode {i.ino}: device-format attributes")
  | some f =>
      if f = .extents ∧ i.anextents = 0 then .ok []
      else do
        let extents ← v.extents i true
        v.attrLeaves i extents MAX_ATTR_BLOCKS [] 0

/-- The bytes of a remote value's block `n`, after `out` of them. -/
def remoteBlock (v : Volume) (i : Inode) (extents : List Extent) (blk len : Nat) (out : Bytes)
    (n : Nat) : Result Bytes := do
  let buf ← v.readMapped extents (blk + n) 1
  failIf (len < out.length) (.panic "attempt to subtract with overflow")
  let bytes ← remotePayload v.sb buf i.ino (len - out.length)
  return out ++ bytes

/-- The value of an attribute found. -/
def attrValue (v : Volume) (i : Inode) (f : Found) : Result Bytes :=
  match f.value with
  | .inline value => .ok value
  | .remote blk len => do
      let extents ← v.extents i true
      let value ← (List.range (remoteBlocks v.sb len)).foldlM
        (v.remoteBlock i extents blk len) []
      failIf (value.length ≠ len) (.corrupt s!"inode {i.ino}: remote attribute {shown f.name}")
      return value

/-- One attribute with its value. -/
def fetchXattr (v : Volume) (i : Inode) (f : Found) : Result Xattr := do
  let value ← v.attrValue i f
  let value ← if (ascii "system.posix_acl_").isPrefixOf f.name then posixAcl value else .ok value
  return ⟨f.name, value⟩

/-- Every user-visible extended attribute of an inode. -/
def xattrsInode (v : Volume) (i : Inode) : Result (List Xattr) := do
  let found ← v.attrsFound i
  found.mapM (v.fetchXattr i)

end FioXfs.Volume
