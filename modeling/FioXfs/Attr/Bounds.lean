import FioXfs.Checked
import FioXfs.Volume.Contents
import FioXfs.Volume.Xattrs
import Mathlib.Data.List.TakeWhile
set_option autoImplicit false

/-!
# Malformed attributes

The parsers of attribute forks and blocks with every index they take checked, and the loop over
an attribute fork's blocks with the blocks it reads listed.  Whatever the fork and its blocks
hold, no index is past the end, no block is read twice, and a value put together from blocks of
its own is as long as its name says.
-/

namespace FioXfs.Attr

open FioXfs.Lib

/-! ## The parsers, index by index -/

/-- The entries of an on-disk ACL from entry `i` on, `left` of them. -/
def checkedAclEntries (xfs : Bytes) : Nat → Nat → Result (List Bytes)
  | 0, _ => return []
  | left + 1, i => do
      let e ← readFrom xfs (4 + i * 12)
      let tag ← readBe 4 e 0
      let id ← readBe 4 e 4
      let perm ← readBe 2 e 8
      let id := if tag = 0x02 ∨ tag = 0x08 then id else 2 ^ 32 - 1
      let rest ← checkedAclEntries xfs left (i + 1)
      return (toLe 2 tag ++ toLe 2 perm ++ toLe 4 id) :: rest

def checkedAcl (xfs : Bytes) : Result Bytes := do
  failIf (xfs.length < 4) (.corrupt "ACL shorter than its count")
  let count ← readBe 4 xfs 0
  failIf (xfs.length < 4 + count * 12) (.corrupt "ACL shorter than its entries")
  let entries ← checkedAclEntries xfs count 0
  return toLe 4 2 ++ entries.flatten

/-- `count` short-form attributes from offset `p`. -/
def checkedShortAttrs (fork : Bytes) (total : Nat) : Nat → Nat → Result (List Found)
  | 0, _ => return []
  | count + 1, p => do
      let offEnd : Error := .corrupt "short-form attribute runs off the fork"
      failIf (total < p + 3) offEnd
      let namelen ← readBe 1 fork p
      let valuelen ← readBe 1 fork (p + 1)
      let flags ← readBe 1 fork (p + 2)
      let nameAt := p + 3
      let stop := nameAt + namelen + valuelen
      failIf (total < stop) offEnd
      let name ← readUpTo fork nameAt (nameAt + namelen)
      let value ← readUpTo fork (nameAt + namelen) stop
      let rest ← checkedShortAttrs fork total count stop
      return found flags name (.inline value) ++ rest

def checkedShortform (fork : Bytes) : Result (List Found) := do
  failIf (fork.length < 4) (.corrupt "short-form attributes: no header")
  let size ← readBe 2 fork 0
  let count ← readBe 1 fork 2
  checkedShortAttrs fork (min size fork.length) count 4

/-- The attribute at index entry `e` of a leaf. -/
def checkedLeafAttr (buf : Bytes) (bad : Error) (e : Nat) : Result (List Found) := do
  let nameidx ← readBe 2 buf (e + 4)
  let flags ← readBe 1 buf (e + 6)
  if hasBit flags LOCAL then do
    failIf (buf.length < nameidx + 3) bad
    let valuelen ← readBe 2 buf nameidx
    let namelen ← readBe 1 buf (nameidx + 2)
    let nameAt := nameidx + 3
    failIf (buf.length < nameAt + namelen + valuelen) bad
    let name ← readUpTo buf nameAt (nameAt + namelen)
    let value ← readUpTo buf (nameAt + namelen) (nameAt + namelen + valuelen)
    return found flags name (.inline value)
  else do
    failIf (buf.length < nameidx + 9) bad
    let blk ← readBe 4 buf nameidx
    let len ← readBe 4 buf (nameidx + 4)
    let namelen ← readBe 1 buf (nameidx + 8)
    let nameAt := nameidx + 9
    failIf (buf.length < nameAt + namelen) bad
    let name ← readUpTo buf nameAt (nameAt + namelen)
    return found flags name (.remote blk len)

/-- The checksum and the owner of a v5 block. -/
def checkedHeader (sb : Superblock) (buf : Bytes) (ino fsb : Nat) : Result Unit :=
  if sb.isV5 then do
    failIf (Crc.verify buf 12 = false) (.corrupt s!"inode {ino}: attribute block {fsb} checksum")
    let owner ← readBe 8 buf 48
    failIf (owner ≠ ino) (.corrupt s!"inode {ino}: attribute block {fsb} owned by {owner}")
  else .ok ()

def checkedParseBlock (sb : Superblock) (buf : Bytes) (ino fsb : Nat) : Result Block := do
  let magic ← readBe 2 buf 8
  let v5 := sb.isV5
  let leaf := if v5 then LEAF_MAGIC_V5 else LEAF_MAGIC_V4
  let node := if v5 then NODE_MAGIC_V5 else NODE_MAGIC_V4
  failIf (magic ≠ leaf ∧ magic ≠ node)
    (.corrupt s!"inode {ino}: attribute block {fsb} magic {hex magic}")
  checkedHeader sb buf ino fsb
  if magic = node then do
    let children ← readBe 2 buf (if v5 then 56 else 12)
    failIf (children = 0) (.corrupt s!"inode {ino}: empty attribute node {fsb}")
    let firstChild ← readBe 4 buf ((if v5 then 64 else 16) + 4)
    return .node firstChild
  let count ← readBe 2 buf (if v5 then 56 else 12)
  let entries := if v5 then 80 else 32
  failIf (buf.length < entries + count * 8)
    (.corrupt s!"inode {ino}: attribute leaf {fsb} count {count}")
  let names ← (List.range count).mapM fun i =>
    checkedLeafAttr buf (.corrupt s!"inode {ino}: attribute leaf {fsb} entry {i}") (entries + i * 8)
  let forw ← readBe 4 buf 0
  return .leaf names.flatten forw

/-- The value bytes of one remote value block. -/
def checkedPayload (sb : Superblock) (buf : Bytes) (ino want : Nat) : Result Bytes :=
  if sb.isV5 then do
    let magic ← readBe 4 buf 0
    let owner ← readBe 8 buf 32
    failIf (magic ≠ RMT_MAGIC ∨ Crc.verify buf 12 = false ∨ owner ≠ ino)
      (.corrupt s!"inode {ino}: remote attribute value block")
    let bytes ← readBe 4 buf 8
    failIf (buf.length < RMT_HDR + bytes)
      (.corrupt s!"inode {ino}: remote attribute value of {bytes} bytes")
    readUpTo buf RMT_HDR (RMT_HDR + bytes)
  else readUpTo buf 0 (min want buf.length)

section
variable {fork buf : Bytes} {sb : Superblock} {ino fsb want total : Nat}

theorem checkedAclEntries_eq {xfs : Bytes} :
    ∀ {left i : Nat}, 4 + (i + left) * 12 ≤ xfs.length → checkedAclEntries xfs left i =
      .ok ((List.range' i left).map fun i => aclEntry (xfs.drop (4 + i * 12))) := by
  intro left
  induction left with
  | zero =>
    intro i _
    rfl
  | succ left ih =>
    intro i hlen
    have hdrop : 12 ≤ (xfs.drop (4 + i * 12)).length := by
      rw [List.length_drop]
      omega
    rw [checkedAclEntries, readFrom_ok (by omega), except_ok_bind, readBe_ok (by omega),
      except_ok_bind, readBe_ok (by omega), except_ok_bind, readBe_ok (by omega), except_ok_bind]
    dsimp only
    rw [ih (by omega), except_ok_bind, List.range'_succ, List.map_cons]
    rfl

theorem acl_in_bounds (xfs : Bytes) : InBounds (checkedAcl xfs) (posixAcl xfs) := by
  have heq : checkedAcl xfs = posixAcl xfs := by
    unfold checkedAcl posixAcl be32
    by_cases h4 : xfs.length < 4
    · rw [except_throwIf_bind_of h4, except_throwIf_bind_of h4]
    rw [except_throwIf_bind_of_not h4, except_throwIf_bind_of_not h4, readBe_ok (by omega),
      except_ok_bind]
    by_cases hcount : xfs.length < 4 + getBe 4 xfs 0 * 12
    · rw [except_throwIf_bind_of hcount]
      exact (except_throwIf_bind_of hcount).symm
    · rw [except_throwIf_bind_of_not hcount, checkedAclEntries_eq (by omega), except_ok_bind]
      dsimp only
      rw [except_throwIf_bind_of_not hcount, List.range_eq_range', List.flatMap_def]
  refine inBounds_of_eq (Q := fun _ => True) heq ?_
  unfold posixAcl
  refine (ensures_throwIf (not_stopped_corrupt _)).bind fun _ _ => ?_
  exact (ensures_throwIf (not_stopped_corrupt _)).bind fun _ _ => ensures_pure trivial

theorem checkedShortAttrs_eq (htotal : total ≤ fork.length) :
    ∀ {count p : Nat}, checkedShortAttrs fork total count p = shortAttrs fork total count p := by
  intro count
  induction count with
  | zero =>
    intro p
    rfl
  | succ count ih =>
    intro p
    rw [checkedShortAttrs, shortAttrs]
    dsimp only
    by_cases h3 : total < p + 3
    · rw [except_throwIf_bind_of h3, except_throwIf_bind_of h3]
    rw [except_throwIf_bind_of_not h3, except_throwIf_bind_of_not h3, readBe_ok (by omega),
      except_ok_bind, readBe_ok (by omega), except_ok_bind, readBe_ok (by omega), except_ok_bind]
    by_cases hstop : total < p + 3 + getBe 1 fork p + getBe 1 fork (p + 1)
    · rw [except_throwIf_bind_of hstop, except_throwIf_bind_of hstop]
    · rw [except_throwIf_bind_of_not hstop, except_throwIf_bind_of_not hstop,
        readUpTo_ok (by omega) (by omega), except_ok_bind, readUpTo_ok (by omega) (by omega),
        except_ok_bind, ih, Nat.add_sub_cancel_left, Nat.add_sub_cancel_left]

theorem ensures_shortAttrs :
    ∀ {count p : Nat}, Ensures Stopped (shortAttrs fork total count p) fun _ => True := by
  intro count
  induction count with
  | zero =>
    intro p
    exact ensures_pure trivial
  | succ count ih =>
    intro p
    rw [shortAttrs]
    refine (ensures_throwIf (not_stopped_corrupt _)).bind fun _ _ => ?_
    refine (ensures_throwIf (not_stopped_corrupt _)).bind fun _ _ => ?_
    exact ih.bind fun _ _ => ensures_pure trivial

theorem ensures_shortform (fork : Bytes) :
    Ensures Stopped (parseShortform fork) fun _ => True :=
  (ensures_throwIf (not_stopped_corrupt _)).bind fun _ _ => ensures_shortAttrs

theorem shortform_in_bounds (fork : Bytes) :
    InBounds (checkedShortform fork) (parseShortform fork) := by
  refine inBounds_of_eq ?_ (ensures_shortform fork)
  unfold checkedShortform parseShortform
  by_cases h4 : fork.length < 4
  · rw [except_throwIf_bind_of h4, except_throwIf_bind_of h4]
  · rw [except_throwIf_bind_of_not h4, except_throwIf_bind_of_not h4, readBe_ok (by omega),
      except_ok_bind, readBe_ok (by omega), except_ok_bind, checkedShortAttrs_eq (Nat.min_le_right _ _)]

theorem checkedLeafAttr_eq {bad : Error} {e : Nat} (he : e + 8 ≤ buf.length) :
    checkedLeafAttr buf bad e = leafAttr buf bad e := by
  unfold checkedLeafAttr leafAttr be16 be32
  rw [readBe_ok (by omega), except_ok_bind, readBe_ok (by omega), except_ok_bind]
  dsimp only
  generalize getBe 2 buf (e + 4) = nameidx
  by_cases hlocal : hasBit (getBe 1 buf (e + 6)) LOCAL = true
  · rw [if_pos hlocal, if_pos hlocal]
    by_cases h3 : buf.length < nameidx + 3
    · rw [except_throwIf_bind_of h3, except_throwIf_bind_of h3]
    rw [except_throwIf_bind_of_not h3, except_throwIf_bind_of_not h3, readBe_ok (by omega),
      except_ok_bind, readBe_ok (by omega), except_ok_bind]
    by_cases hstop : buf.length <
        nameidx + 3 + getBe 1 buf (nameidx + 2) + getBe 2 buf nameidx
    · rw [except_throwIf_bind_of hstop, except_throwIf_bind_of hstop]
    · rw [except_throwIf_bind_of_not hstop, except_throwIf_bind_of_not hstop,
        readUpTo_ok (by omega) (by omega), except_ok_bind, readUpTo_ok (by omega) (by omega),
        except_ok_bind, Nat.add_sub_cancel_left, Nat.add_sub_cancel_left]
  · rw [if_neg hlocal, if_neg hlocal]
    by_cases h9 : buf.length < nameidx + 9
    · rw [except_throwIf_bind_of h9, except_throwIf_bind_of h9]
    rw [except_throwIf_bind_of_not h9, except_throwIf_bind_of_not h9, readBe_ok (by omega),
      except_ok_bind, readBe_ok (by omega), except_ok_bind, readBe_ok (by omega), except_ok_bind]
    by_cases hstop : buf.length < nameidx + 9 + getBe 1 buf (nameidx + 8)
    · rw [except_throwIf_bind_of hstop, except_throwIf_bind_of hstop]
    · rw [except_throwIf_bind_of_not hstop, except_throwIf_bind_of_not hstop,
        readUpTo_ok (by omega) (by omega), except_ok_bind, Nat.add_sub_cancel_left]

theorem ensures_leafAttr {bad : Error} (hbad : ¬Stopped bad) (e : Nat) :
    Ensures Stopped (leafAttr buf bad e) fun _ => True := by
  unfold leafAttr
  refine ensures_ite (fun _ => ?_) fun _ => ?_
  all_goals
    refine (ensures_throwIf hbad).bind fun _ _ => ?_
    exact (ensures_throwIf hbad).bind fun _ _ => ensures_pure trivial

theorem ensures_checkBlock : Ensures Stopped (checkBlock sb buf ino fsb) fun _ => True := by
  unfold checkBlock
  refine ensures_ite (fun _ => ?_) fun _ => ensures_ok trivial
  refine (ensures_throwIf (not_stopped_corrupt _)).bind fun _ _ => ?_
  exact (ensures_throwIf (not_stopped_corrupt _)).mono fun _ _ => trivial

theorem ensures_parseBlock : Ensures Stopped (parseBlock sb buf ino fsb) fun _ => True := by
  unfold parseBlock
  refine (ensures_throwIf (not_stopped_corrupt _)).bind fun _ _ => ?_
  refine ensures_checkBlock.bind fun _ _ => ensures_ite (fun _ => ?_) fun _ => ?_
  · exact (ensures_throwIf (not_stopped_corrupt _)).bind fun _ _ => ensures_pure trivial
  · refine (ensures_throwIf (not_stopped_corrupt _)).bind fun _ _ => ?_
    exact (ensures_mapM fun i _ => ensures_leafAttr (not_stopped_corrupt _) _).bind
      fun _ _ => ensures_pure trivial

theorem block_in_bounds (h512 : 512 ≤ buf.length) :
    InBounds (checkedParseBlock sb buf ino fsb) (parseBlock sb buf ino fsb) := by
  refine inBounds_of_eq ?_ ensures_parseBlock
  have hhead : checkedHeader sb buf ino fsb = checkBlock sb buf ino fsb := by
    unfold checkedHeader checkBlock
    rw [readBe_ok (by omega)]
    rfl
  have hentries : (if sb.isV5 then 80 else 32) ≤ 80 := by split <;> omega
  have hcount : (if sb.isV5 then 56 else 12) ≤ 56 := by split <;> omega
  have hnode : (if sb.isV5 then 64 else 16) ≤ 64 := by split <;> omega
  unfold checkedParseBlock parseBlock be16 be32
  rw [readBe_ok (by omega), except_ok_bind, hhead]
  dsimp only
  refine bind_congr fun _ => bind_congr fun _ => ?_
  rw [readBe_ok (by omega), except_ok_bind, readBe_ok (by omega), except_ok_bind,
    readBe_ok (by omega)]
  by_cases hmagic : getBe 2 buf 8 = if sb.isV5 then NODE_MAGIC_V5 else NODE_MAGIC_V4
  · rw [if_pos hmagic, if_pos hmagic]
  · rw [if_neg hmagic, if_neg hmagic, except_ok_bind]
    refine (ensures_throwIf (not_stopped_corrupt _)).bind_congr fun _ hfit => ?_
    have hleaf : ∀ i ∈ List.range (getBe 2 buf (if sb.isV5 then 56 else 12)),
        checkedLeafAttr buf (.corrupt s!"inode {ino}: attribute leaf {fsb} entry {i}")
            ((if sb.isV5 then 80 else 32) + i * 8) =
          leafAttr buf (.corrupt s!"inode {ino}: attribute leaf {fsb} entry {i}")
            ((if sb.isV5 then 80 else 32) + i * 8) := by
      intro i hi
      have := List.mem_range.mp hi
      exact checkedLeafAttr_eq (by omega)
    rw [mapM_congr hleaf]
    rfl

theorem ensures_payload : Ensures Stopped (remotePayload sb buf ino want) fun bytes =>
    bytes.length ≤ if sb.isV5 then buf.length - RMT_HDR else buf.length := by
  unfold remotePayload
  refine ensures_ite (fun h5 => ?_) fun h5 => ensures_ok ?_
  · rw [if_pos h5]
    refine (ensures_throwIf (not_stopped_corrupt _)).bind fun _ _ => ?_
    refine (ensures_throwIf (not_stopped_corrupt _)).bind fun _ hfit => ensures_pure ?_
    rw [length_slice (by omega)]
    omega
  · rw [if_neg h5, List.length_take]
    exact Nat.min_le_right _ _

theorem payload_in_bounds (h512 : 512 ≤ buf.length) :
    InBounds (checkedPayload sb buf ino want) (remotePayload sb buf ino want) := by
  refine inBounds_of_eq ?_ ensures_payload
  unfold checkedPayload remotePayload be32 be64
  cases sb.isV5 with
  | true =>
    rw [if_pos rfl, if_pos rfl, readBe_ok (by omega), except_ok_bind, readBe_ok (by omega),
      except_ok_bind, readBe_ok (by omega)]
    refine bind_congr fun _ => ?_
    rw [except_ok_bind]
    refine (ensures_throwIf (not_stopped_corrupt _)).bind_congr fun _ hfit => ?_
    rw [readUpTo_ok (by omega) (by omega), Nat.add_sub_cancel_left]
    rfl
  | false =>
    rw [if_neg Bool.false_ne_true, if_neg Bool.false_ne_true,
      readUpTo_ok (Nat.zero_le _) (Nat.min_le_right _ _), slice, List.drop_zero, Nat.sub_zero,
      ← List.take_eq_take_min]

end

end FioXfs.Attr

namespace FioXfs.Volume

open FioXfs.Lib FioXfs.Attr FioXfs.Bmap

/-! ## The blocks of an attribute fork -/

/-- The loop over an attribute fork's blocks from block `blk` on, with the blocks it reads. -/
def tracedLeaves (v : Volume) (i : Inode) (extents : List Extent) :
    Nat → List Nat → Nat → List Nat × Result (List Found)
  | 0, _, _ => ([], .error (.corrupt s!"inode {i.ino}: attribute blocks loop"))
  | left + 1, seen, blk =>
      if blk ∈ seen then ([], .error (.corrupt s!"inode {i.ino}: attribute blocks loop"))
      else
        let block := do
          let buf ← v.readMapped extents blk 1
          parseBlock v.sb buf i.ino blk
        match block with
        | .error e => ([blk], .error e)
        | .ok (.node firstChild) =>
            let rest := tracedLeaves v i extents left (blk :: seen) firstChild
            (blk :: rest.1, rest.2)
        | .ok (.leaf names forw) =>
            if forw = 0 then ([blk], .ok names)
            else
              let rest := tracedLeaves v i extents left (blk :: seen) forw
              (blk :: rest.1, (names ++ ·) <$> rest.2)

section
variable {v : Volume} {i : Inode} {extents : List Extent}

theorem tracedLeaves_snd :
    ∀ {left : Nat} {seen : List Nat} {blk : Nat},
      (v.tracedLeaves i extents left seen blk).2 = v.attrLeaves i extents left seen blk := by
  intro left
  induction left with
  | zero =>
    intro seen blk
    rfl
  | succ left ih =>
    intro seen blk
    rw [tracedLeaves, attrLeaves]
    by_cases hseen : blk ∈ seen
    · rw [if_pos hseen, except_throwIf_bind_of hseen]
    rw [if_neg hseen, except_throwIf_bind_of_not hseen, ← bind_assoc]
    dsimp only
    cases (v.readMapped extents blk 1 >>= fun buf => parseBlock v.sb buf i.ino blk) with
    | error e => rfl
    | ok block =>
      cases block with
      | node firstChild => exact ih
      | leaf names forw =>
        change (if forw = 0 then _ else _ : List Nat × Result (List Found)).2 =
          if forw = 0 then _ else _
        split
        · rfl
        · change (names ++ ·) <$> (v.tracedLeaves i extents left (blk :: seen) forw).2 = _
          rw [ih]
          rfl

/-- No block is read that was read before, none twice, and no more than are allowed. -/
theorem tracedLeaves_fst :
    ∀ {left : Nat} {seen : List Nat} {blk : Nat},
      (v.tracedLeaves i extents left seen blk).1.Nodup ∧
        (∀ b ∈ (v.tracedLeaves i extents left seen blk).1, b ∉ seen) ∧
        (v.tracedLeaves i extents left seen blk).1.length ≤ left := by
  intro left
  induction left with
  | zero =>
    intro seen blk
    exact ⟨List.nodup_nil, fun b hb => absurd hb List.not_mem_nil, le_refl _⟩
  | succ left ih =>
    intro seen blk
    rw [tracedLeaves]
    by_cases hseen : blk ∈ seen
    · rw [if_pos hseen]
      exact ⟨List.nodup_nil, fun b hb => absurd hb List.not_mem_nil, Nat.zero_le _⟩
    rw [if_neg hseen]
    have hone : [blk].Nodup ∧ (∀ b ∈ [blk], b ∉ seen) ∧ [blk].length ≤ left + 1 := by
      refine ⟨List.nodup_singleton _, fun b hb => ?_, by simp⟩
      rwa [List.mem_singleton.mp hb]
    have hmore : ∀ next, (blk :: (v.tracedLeaves i extents left (blk :: seen) next).1).Nodup ∧
        (∀ b ∈ blk :: (v.tracedLeaves i extents left (blk :: seen) next).1, b ∉ seen) ∧
        (blk :: (v.tracedLeaves i extents left (blk :: seen) next).1).length ≤ left + 1 := by
      intro next
      obtain ⟨hnodup, hnew, hlen⟩ := @ih (blk :: seen) next
      refine ⟨List.nodup_cons.mpr ⟨fun hb => hnew blk hb List.mem_cons_self, hnodup⟩,
        fun b hb => ?_, Nat.succ_le_succ hlen⟩
      rcases List.mem_cons.mp hb with rfl | hb
      · exact hseen
      · exact fun hin => hnew b hb (List.mem_cons_of_mem _ hin)
    dsimp only
    cases (v.readMapped extents blk 1 >>= fun buf => parseBlock v.sb buf i.ino blk) with
    | error e => exact hone
    | ok block =>
      cases block with
      | node firstChild => exact hmore firstChild
      | leaf names forw =>
        change (if forw = 0 then _ else _ : List Nat × Result (List Found)).1.Nodup ∧
          (∀ b ∈ (if forw = 0 then _ else _ : List Nat × Result (List Found)).1, b ∉ seen) ∧
          (if forw = 0 then _ else _ : List Nat × Result (List Found)).1.length ≤ left + 1
        split
        · exact hone
        · exact hmore forw

/-! ## Values in blocks of their own -/

theorem ensures_readBlocks (hs : v.sb.Sound) (fsb count : Nat) :
    Ensures Stopped (readBlocks v.dev v.sb fsb count)
      fun buf => buf.length = count * v.sb.blockSize := by
  by_cases h : Taken v.dev v.sb fsb count
  · rw [readBlocks_of_taken hs h]
    exact ensures_ok (length_slice h.2.2)
  · obtain ⟨e, he, hne⟩ := readBlocks_of_not_taken hs h
    rw [he]
    exact ensures_error fun ⟨why, hwhy⟩ => hne why hwhy

/-- Whatever is mapped, as many bytes are read as the blocks asked for have. -/
theorem ensures_readMapped (hs : v.sb.Sound) (extents : List Extent) (lblk count : Nat) :
    Ensures Stopped (v.readMapped extents lblk count)
      fun buf => buf.length = count * v.sb.blockSize := by
  have hfill : ∀ {es : List Extent} {out : Bytes}, (∀ e ∈ es, e.offset < lblk + count) →
      out.length = count * v.sb.blockSize →
      Ensures Stopped (es.foldlM (v.fillMapped lblk (lblk + count)) out)
        fun buf => buf.length = count * v.sb.blockSize := by
    intro es
    induction es with
    | nil => exact fun _ hout => ensures_pure hout
    | cons e es ih =>
      intro out hoff hout
      rw [List.foldlM_cons]
      refine Ensures.bind (Q := fun buf => buf.length = count * v.sb.blockSize) ?_ fun out' hout' =>
        ih (fun e' he' => hoff e' (List.mem_cons_of_mem _ he')) hout'
      unfold fillMapped
      refine ensures_ite (fun _ => ensures_ok hout) fun _ => ?_
      refine (ensures_readBlocks hs _ _).bind fun data hdata => ensures_pure ?_
      have hlt := hoff e List.mem_cons_self
      rw [length_splice, hout]
      -- What is filled in ends no later than the blocks asked for.
      rw [hdata, hout, ← Nat.add_mul]
      exact Nat.mul_le_mul_right _ (by omega)
  refine hfill (fun e he => ?_) List.length_replicate
  have hlt := @List.mem_takeWhile_imp _ (fun e : Extent => decide (e.offset < lblk + count)) _ _ he
  simpa using hlt

/-- Before each block less than the value is there, so what is left of it can be told. -/
theorem ensures_remoteBlocks (hs : v.sb.Sound) (blk len : Nat) :
    Ensures Stopped ((List.range (remoteBlocks v.sb len)).foldlM
      (v.remoteBlock i extents blk len) []) fun _ => True := by
  have hbs := hs.blockSize_ge
  obtain ⟨per, hper⟩ : ∃ per, per = if v.sb.isV5 then v.sb.blockSize - RMT_HDR else v.sb.blockSize :=
    ⟨_, rfl⟩
  have hpos : 0 < per := by
    have hhdr : RMT_HDR = 56 := rfl
    rw [hper]
    split <;> omega
  refine (ensures_foldlM_range (I := fun k out => out.length ≤ k * per)
    (fun k hk out hout => ?_) (by simp)).mono fun _ _ => trivial
  have hlt : k * per < len := by
    have hn := @divCeil_le_iff len per k hpos
    unfold remoteBlocks at hk
    rw [← hper] at hk
    omega
  unfold remoteBlock
  refine (ensures_readMapped hs _ _ _).bind fun buf hbuf => ?_
  rw [except_throwIf_bind_of_not (by omega)]
  refine ensures_payload.bind fun bytes hbytes => ensures_pure ?_
  rw [hbuf, Nat.one_mul, ← hper] at hbytes
  rw [List.length_append, Nat.succ_mul]
  omega

/-- A value put together from blocks of its own is as long as recorded. -/
theorem length_attrValue {name value : Bytes} {blk len : Nat}
    (h : v.attrValue i ⟨name, .remote blk len⟩ = .ok value) : value.length = len := by
  unfold attrValue at h
  simp only [except_bind_eq_ok, except_throwIf_eq_ok, not_not, exists_const] at h
  obtain ⟨_, -, out, -, hlen, hout⟩ := h
  rw [← Except.ok.inj hout]
  exact hlen

end

/-- Whatever an attribute fork and its blocks hold: the parsers take no index past the end, the
loop over the fork's blocks reads none twice and ends, and a remote value is put together without
its length going below zero, as long as recorded. -/
theorem attrs_in_bounds {v : Volume} {sector buf : Bytes} (hsb : Superblock.parse sector = .ok v.sb)
    (h512 : 512 ≤ buf.length) (fork xfs : Bytes) (ino fsb want : Nat) (i : Inode)
    (extents : List Extent) :
    (InBounds (checkedShortform fork) (parseShortform fork) ∧
      InBounds (checkedParseBlock v.sb buf ino fsb) (parseBlock v.sb buf ino fsb) ∧
      InBounds (checkedPayload v.sb buf ino want) (remotePayload v.sb buf ino want) ∧
      InBounds (checkedAcl xfs) (posixAcl xfs)) ∧
    ((v.tracedLeaves i extents MAX_ATTR_BLOCKS [] 0).2 =
        v.attrLeaves i extents MAX_ATTR_BLOCKS [] 0 ∧
      (v.tracedLeaves i extents MAX_ATTR_BLOCKS [] 0).1.Nodup ∧
      (v.tracedLeaves i extents MAX_ATTR_BLOCKS [] 0).1.length ≤ MAX_ATTR_BLOCKS) ∧
    ∀ name blk len,
      (∀ why, (List.range (remoteBlocks v.sb len)).foldlM (v.remoteBlock i extents blk len) [] ≠
        .error (.panic why)) ∧
      ∀ value, v.attrValue i ⟨name, .remote blk len⟩ = .ok value → value.length = len := by
  have hs := Superblock.sound_of_parse hsb
  obtain ⟨hnodup, -, hlen⟩ := @tracedLeaves_fst v i extents MAX_ATTR_BLOCKS [] 0
  refine ⟨⟨shortform_in_bounds fork, block_in_bounds h512, payload_in_bounds h512,
    acl_in_bounds xfs⟩, ⟨tracedLeaves_snd, hnodup, hlen⟩, fun name blk len => ⟨fun why h => ?_,
    fun value => length_attrValue⟩⟩
  exact (ensures_remoteBlocks hs blk len).1 _ h ⟨why, rfl⟩

/-- A block with every byte 255. -/
def garbled : Bytes := List.replicate 512 255

theorem attrs_in_bounds_garbled :
    (Superblock.parse (freshSector 16 true) = .ok holeyVolume.sb ∧
      512 ≤ garbled.length) ∧
    (InBounds (checkedShortform [0, 4, 1, 0]) (parseShortform [0, 4, 1, 0]) ∧
      InBounds (checkedParseBlock holeyVolume.sb garbled 200 9)
        (parseBlock holeyVolume.sb garbled 200 9) ∧
      InBounds (checkedPayload holeyVolume.sb garbled 200 1)
        (remotePayload holeyVolume.sb garbled 200 1) ∧
      InBounds (checkedAcl [0, 0, 0, 1]) (posixAcl [0, 0, 0, 1])) ∧
    ((holeyVolume.tracedLeaves holeyInode holeyExtents MAX_ATTR_BLOCKS [] 0).2 =
        holeyVolume.attrLeaves holeyInode holeyExtents MAX_ATTR_BLOCKS [] 0 ∧
      (holeyVolume.tracedLeaves holeyInode holeyExtents MAX_ATTR_BLOCKS [] 0).1.Nodup ∧
      (holeyVolume.tracedLeaves holeyInode holeyExtents MAX_ATTR_BLOCKS [] 0).1.length ≤
        MAX_ATTR_BLOCKS) ∧
    ∀ name blk len,
      (∀ why, (List.range (remoteBlocks holeyVolume.sb len)).foldlM
        (holeyVolume.remoteBlock holeyInode holeyExtents blk len) [] ≠ .error (.panic why)) ∧
      ∀ value, holeyVolume.attrValue holeyInode ⟨name, .remote blk len⟩ = .ok value →
        value.length = len := by
  have h512 : 512 ≤ garbled.length := List.length_replicate.ge
  exact ⟨⟨parse_fresh, h512⟩, attrs_in_bounds parse_fresh h512 _ _ _ _ _ _ _⟩

end FioXfs.Volume
