import FioXfs.Bmap
set_option autoImplicit false

/-!
# Extent maps read back as written

An extent survives packing, a bmap B+tree's blocks decode to what they were made of,
and so a fork laid out in either form, inline or under a tree of any height, reads
back as the extents it was laid out from and the blocks it was given.
-/

namespace FioXfs.Bmap

open FioXfs.Lib FioXfs.Btree

/-! ## Extents -/

/-- An extent whose fields fit its packed record. -/
structure Extent.Packable (e : Extent) : Prop where
  offset_lt : e.offset < 2 ^ 54
  block_lt : e.block < 2 ^ 52
  count_pos : 0 < e.count
  count_lt : e.count < 2 ^ 21

@[simp] theorem Extent.length_encode (e : Extent) : e.encode.length = 16 := by
  simp [Extent.encode]

theorem Extent.decode_encode {e : Extent} (h : e.Packable) : Extent.decode e.encode = e := by
  have hu : e.unwritten.toNat < 2 := Bool.toNat_lt e.unwritten
  have ho := h.offset_lt
  have hb := h.block_lt
  have hc := h.count_lt
  -- Each word is the sum of its fields.
  have h0 : e.unwritten.toNat <<< 63 ||| (e.offset % 2 ^ 54) <<< 9 ||| e.block / 2 ^ 43 =
      e.unwritten.toNat * 2 ^ 63 + (e.offset * 2 ^ 9 + e.block / 2 ^ 43) := by
    have hlow : e.offset <<< 9 ||| e.block / 2 ^ 43 = e.offset * 2 ^ 9 + e.block / 2 ^ 43 :=
      shiftLeft_or (by omega)
    rw [Nat.mod_eq_of_lt ho, Nat.or_assoc, hlow, shiftLeft_or (by omega)]
  have h1 : (e.block % 2 ^ 43) <<< 21 ||| e.count % 2 ^ 21 =
      e.block % 2 ^ 43 * 2 ^ 21 + e.count := by
    rw [Nat.mod_eq_of_lt hc, shiftLeft_or hc]
  have hl0 : be64 e.encode 0 =
      e.unwritten.toNat * 2 ^ 63 + (e.offset * 2 ^ 9 + e.block / 2 ^ 43) := by
    rw [Extent.encode, h0]
    exact getBe_toBe_append _ (by omega)
  have hl1 : be64 e.encode 8 = e.block % 2 ^ 43 * 2 ^ 21 + e.count := by
    have hap := getBe_append (w := 8) (toBe 8 (e.unwritten.toNat <<< 63 |||
      (e.offset % 2 ^ 54) <<< 9 ||| e.block / 2 ^ 43))
      (toBe 8 ((e.block % 2 ^ 43) <<< 21 ||| e.count % 2 ^ 21)) 0
    rw [length_toBe] at hap
    rw [Extent.encode]
    refine hap.trans ?_
    rw [h1]
    exact getBe_toBe (by omega)
  have hblock : ((be64 e.encode 0) % 2 ^ 9) <<< 43 ||| be64 e.encode 8 / 2 ^ 21 = e.block := by
    rw [hl0, hl1, shiftLeft_or (by omega)]
    omega
  unfold Extent.decode
  simp only [hblock]
  rw [hl0, hl1]
  obtain ⟨offset, block, count, unwritten⟩ := e
  simp only at hu ho hb hc ⊢
  congr 1
  · omega
  · omega
  · cases unwritten
    · simp only [Bool.toNat_false]
      rw [bne_eq_false_iff_eq]
      omega
    · simp only [Bool.toNat_true]
      rw [bne_iff_ne]
      omega

theorem inline_packExtents {extents : List Extent} (h : ∀ e ∈ extents, e.Packable)
    (pad : Bytes) (i : Nat) (hi : i < extents.length) :
    Extent.decode (slice (packExtents extents ++ pad) (i * 16) 16) = extents[i] := by
  induction extents generalizing i with
  | nil => simp at hi
  | cons e extents ih =>
    have hcons : packExtents (e :: extents) ++ pad = e.encode ++ (packExtents extents ++ pad) := by
      rw [packExtents, List.flatMap_cons, List.append_assoc]
      rfl
    rw [hcons]
    cases i with
    | zero =>
      have hz := slice_zero_length e.encode
      rw [Extent.length_encode] at hz
      rw [Nat.zero_mul, slice_append_left (by simp), hz, List.getElem_cons_zero]
      exact Extent.decode_encode (h e List.mem_cons_self)
    | succ i =>
      have hat : (i + 1) * 16 = e.encode.length + i * 16 := by
        rw [Extent.length_encode]
        omega
      rw [hat, slice_append_right, List.getElem_cons_succ]
      exact ih (fun x hx => h x (List.mem_cons_of_mem _ hx)) i (by simpa using hi)

@[simp] theorem length_packExtents (extents : List Extent) :
    (packExtents extents).length = extents.length * 16 := by
  induction extents with
  | nil => rfl
  | cons e extents ih =>
    have hcons : packExtents (e :: extents) = e.encode ++ packExtents extents := rfl
    rw [hcons, List.length_append, ih, Extent.length_encode, List.length_cons]
    omega

/-- Extents in order, none of them empty, come through the final check as they are. -/
theorem finish_of_sorted {extents : List Extent} (hpos : ∀ e ∈ extents, 0 < e.count)
    (hsorted : extents.Pairwise fun a b => a.stop ≤ b.offset) :
    finish extents = .ok extents := by
  have hfilter : (extents.filter fun e => decide (0 < e.count)) = extents :=
    List.filter_eq_self.mpr fun e he => decide_eq_true (hpos e he)
  have hle : extents.Pairwise fun a b => a.offset ≤ b.offset :=
    hsorted.imp fun {a b} hab => le_trans (Nat.le_add_right a.offset a.count) hab
  have hcheck : ∀ {es : List Extent}, (es.Pairwise fun a b => a.stop ≤ b.offset) →
      checkOverlap es = .ok () := by
    intro es hes
    induction es with
    | nil => rfl
    | cons a es ih =>
      cases es with
      | nil => rfl
      | cons b es =>
        have hab := (List.pairwise_cons.mp hes).1 b List.mem_cons_self
        rw [checkOverlap, except_throwIf_bind_of_not (by omega)]
        exact ih hes.of_cons
  unfold finish
  simp only [hfilter, hle.insertionSort_eq]
  rw [hcheck hsorted]
  rfl

/-! ## One block -/

section
variable {sb : Superblock} {ino level take left right at_ addr : Nat}

theorem bmapBlockMax_mul_le (bs : Nat) : bmapBlockMax bs * 16 ≤ bs - LONG_HDR :=
  Nat.div_mul_le_self _ _

theorem bmapBlockMax_lt (h : sb.Sound) : bmapBlockMax sb.blockSize < 256 ^ 2 := by
  have h1 := bmapBlockMax_mul_le sb.blockSize
  have h2 := h.blockSize_le
  omega

theorem bmapBlockMax_ge (h : sb.Sound) : 27 ≤ bmapBlockMax sb.blockSize := by
  have hbs := h.blockSize_ge
  unfold bmapBlockMax LONG_HDR
  omega

theorem bmapHeader_eq : bmapHeader sb ino level take left right at_ =
    patch (List.replicate sb.blockSize 0)
      [(0, toBe 4 BMA3_MAGIC), (4, toBe 2 level), (6, toBe 2 take), (8, toBe 8 left),
        (16, toBe 8 right), (24, toBe 8 (at_ / 512)), (40, sb.metaUuid), (56, toBe 8 ino)] := rfl

theorem fits_bmapHeader (h : sb.Sound) : Fits (List.replicate sb.blockSize (0 : UInt8)).length
    [(0, toBe 4 BMA3_MAGIC), (4, toBe 2 level), (6, toBe 2 take), (8, toBe 8 left),
      (16, toBe 8 right), (24, toBe 8 (at_ / 512)), (40, sb.metaUuid), (56, toBe 8 ino)] := by
  have hbs := h.blockSize_ge
  simp [Fits, h.metaUuid_len]
  omega

theorem length_bmapHeader (h : sb.Sound) :
    (bmapHeader sb ino level take left right at_).length = sb.blockSize := by
  rw [bmapHeader_eq, length_patch (fits_bmapHeader h), List.length_replicate]

/-- A block's body, written over its header and stamped, passes the checks of a read:
what they give, and the slots past the header. -/
theorem check_stamped {body : Bytes} (h : sb.Sound) (hv5 : sb.isV5 = true) (hl : level < 256 ^ 2)
    (ht : take ≤ bmapBlockMax sb.blockSize) (hino : ino < 256 ^ 8)
    (hlen : body.length = sb.blockSize)
    (hhead : ∀ o n, o + n ≤ LONG_HDR →
      slice body o n = slice (bmapHeader sb ino level take left right at_) o n) :
    checkBtreeBlock sb (Crc.stamp body 64) addr ino = .ok (level, take) ∧
      (Crc.stamp body 64).length = sb.blockSize ∧
      ∀ o n, LONG_HDR ≤ o → slice (Crc.stamp body 64) o n = slice body o n := by
  have hbs := h.blockSize_ge
  have h64 : 64 + 4 ≤ body.length := by omega
  have hfits := @fits_bmapHeader sb ino level take left right at_ h
  have hfield : ∀ w o, o + w ≤ 64 → getBe w (Crc.stamp body 64) o =
      getBe w (bmapHeader sb ino level take left right at_) o := by
    intro w o how
    rw [Crc.getBe_stamp_disjoint h64 (Or.inl how), getBe, hhead o w (by unfold LONG_HDR; omega),
      getBe]
  have hmagic : be32 (Crc.stamp body 64) 0 = BMA3_MAGIC := by
    rw [be32, hfield 4 0 (by omega), bmapHeader_eq]
    exact getBe_patch [] hfits (by decide) (by simp [Clear])
  have howner : be64 (Crc.stamp body 64) 56 = ino := by
    rw [be64, hfield 8 56 (by omega), bmapHeader_eq]
    exact getBe_patch [_, _, _, _, _, _, _] hfits hino (by simp [Clear])
  have hlevel : be16 (Crc.stamp body 64) 4 = level := by
    rw [be16, hfield 2 4 (by omega), bmapHeader_eq]
    exact getBe_patch [_] hfits hl (by simp [Clear])
  have htake : be16 (Crc.stamp body 64) 6 = take := by
    rw [be16, hfield 2 6 (by omega), bmapHeader_eq]
    exact getBe_patch [_, _] hfits (lt_of_le_of_lt ht (bmapBlockMax_lt h)) (by simp [Clear])
  have hslen : (Crc.stamp body 64).length = sb.blockSize := by rw [Crc.length_stamp h64, hlen]
  refine ⟨?_, hslen, fun o n ho =>
    Crc.slice_stamp_disjoint h64 (Or.inr (by unfold LONG_HDR at ho; omega))⟩
  unfold checkBtreeBlock checkMagic
  rw [if_pos hv5, except_throwIf_bind_of_not (by simp [hmagic]),
    except_throwIf_bind_of_not (by simp [Crc.verify_stamp h64]),
    except_throwIf_bind_of_not (by simp [howner])]
  simp only [hlevel, htake, hslen, longBlockHeader, hv5, if_true]
  have ht' : ¬(sb.blockSize - 72) / 16 < take := not_lt.mpr ht
  rw [except_throwIf_bind_of_not ht']
  rfl

/-- A block of inode `ino`'s tree on a device: at the place its number stands for. -/
def BlockAt (dev : Device) (sb : Superblock) (fsb : Nat) (buf : Bytes) : Prop :=
  ∃ at_, sb.fsbToByte fsb = .ok at_ ∧ dev.readAt at_ sb.blockSize = .ok buf

theorem readBlocks_of_blockAt {dev : Device} {fsb : Nat} {buf : Bytes} (h : sb.Sound)
    (hb : BlockAt dev sb fsb buf) : readBlocks dev sb fsb 1 = .ok buf := by
  obtain ⟨at_, hat, hread⟩ := hb
  unfold readBlocks
  rw [hat, except_ok_bind, Nat.add_sub_cancel, hat, except_ok_bind, Nat.one_shiftLeft,
    ← h.blockSize_eq, hread]

theorem readBmapBlock_leaf {dev : Device} {part : List (Bytes × Nat)} (h : sb.Sound)
    (hv5 : sb.isV5 = true) (hino : ino < 256 ^ 8) (hrec : ∀ r ∈ part, r.1.length = 16)
    (hmax : part.length ≤ bmapBlockMax sb.blockSize)
    (hread : BlockAt dev sb addr (bmapLeaf sb ino left right addr part).2) :
    readBmapBlock dev sb ino addr 0 = .ok (.leaf (part.map fun r => Extent.decode r.1)) := by
  have hbs := h.blockSize_ge
  have hcap := bmapBlockMax_mul_le sb.blockSize
  have hw : ∀ d ∈ part.map (·.1), d.length = 16 := by
    intro d hd
    obtain ⟨r, hr, rfl⟩ := List.mem_map.mp hd
    exact hrec r hr
  have hin : LONG_HDR + 16 * (part.map (·.1)).length ≤
      (bmapHeader sb ino 0 part.length left right (placeOf sb addr)).length := by
    rw [length_bmapHeader h, List.length_map]
    unfold LONG_HDR at hcap ⊢
    omega
  obtain ⟨hcheck, -, hbody⟩ := @check_stamped sb ino 0 part.length left right (placeOf sb addr) addr
    (fillSlots 16 (bmapHeader sb ino 0 part.length left right (placeOf sb addr)) LONG_HDR
      (part.map (·.1))) h hv5 (by norm_num) hmax hino
    (by rw [length_fillSlots _ hw hin, length_bmapHeader h])
    (fun o n hon => slice_fillSlots_disjoint _ hw hin (Or.inl hon))
  unfold readBmapBlock
  rw [readBlocks_of_blockAt h hread, except_ok_bind]
  simp only [bmapLeaf, hcheck, except_ok_bind]
  rw [except_throwIf_bind_of_not (by simp), if_pos trivial]
  change Except.ok _ = _
  congr 2
  refine List.ext_getElem (by simp [leafExtents]) fun i h1 h2 => ?_
  rw [List.length_map] at h2
  simp only [leafExtents, longBlockHeader, hv5, if_true, List.getElem_map, List.getElem_range]
  change Extent.decode (slice _ (LONG_HDR + i * 16) 16) = _
  rw [hbody _ _ (Nat.le_add_right _ _), slice_fillSlots _ hw hin (by simpa using h2),
    List.getElem_map]

theorem readBmapBlock_node {dev : Device} {part : List (Nat × Nat)} (h : sb.Sound)
    (hv5 : sb.isV5 = true) (hino : ino < 256 ^ 8) (hlevel : 0 < level) (hl : level < 256 ^ 2)
    (haddr : ∀ e ∈ part, e.2 < 256 ^ 8) (hmax : part.length ≤ bmapBlockMax sb.blockSize)
    (hread : BlockAt dev sb addr (bmapNode sb ino level left right addr part).2) :
    readBmapBlock dev sb ino addr level = .ok (.node (part.map (·.2))) := by
  have hbs := h.blockSize_ge
  have hcap := bmapBlockMax_mul_le sb.blockSize
  have hw : ∀ d ∈ part.map fun e => toBe 8 e.1, d.length = 8 := by
    intro d hd
    obtain ⟨e, _, rfl⟩ := List.mem_map.mp hd
    exact length_toBe _ _
  have hw' : ∀ d ∈ part.map fun e => toBe 8 e.2, d.length = 8 := by
    intro d hd
    obtain ⟨e, _, rfl⟩ := List.mem_map.mp hd
    exact length_toBe _ _
  have hin : LONG_HDR + 8 * (part.map fun e => toBe 8 e.1).length ≤
      (bmapHeader sb ino level part.length left right (placeOf sb addr)).length := by
    rw [length_bmapHeader h, List.length_map]
    unfold LONG_HDR at hcap ⊢
    omega
  have hlen1 := length_fillSlots _ hw hin
  have hin' : LONG_HDR + bmapBlockMax sb.blockSize * 8 +
      8 * (part.map fun e => toBe 8 e.2).length ≤
      (fillSlots 8 (bmapHeader sb ino level part.length left right (placeOf sb addr)) LONG_HDR
        (part.map fun e => toBe 8 e.1)).length := by
    rw [hlen1, length_bmapHeader h, List.length_map]
    unfold LONG_HDR at hcap ⊢
    omega
  obtain ⟨hcheck, hslen, hbody⟩ := @check_stamped sb ino level part.length left right
    (placeOf sb addr) addr
    (fillSlots 8 (fillSlots 8 (bmapHeader sb ino level part.length left right (placeOf sb addr))
      LONG_HDR (part.map fun e => toBe 8 e.1)) (LONG_HDR + bmapBlockMax sb.blockSize * 8)
      (part.map fun e => toBe 8 e.2)) h hv5 hl hmax hino
    (by rw [length_fillSlots _ hw' hin', hlen1, length_bmapHeader h])
    (fun o n hon => by
      rw [slice_fillSlots_disjoint _ hw' hin' (Or.inl (by omega)),
        slice_fillSlots_disjoint _ hw hin (Or.inl hon)])
  unfold readBmapBlock
  rw [readBlocks_of_blockAt h hread, except_ok_bind]
  simp only [bmapNode, hcheck, except_ok_bind]
  rw [except_throwIf_bind_of_not (by simp), if_neg (by omega)]
  change Except.ok _ = _
  congr 2
  refine List.ext_getElem (by simp [nodePtrs]) fun i h1 h2 => ?_
  rw [List.length_map] at h2
  simp only [nodePtrs, longBlockHeader, hv5, if_true, List.getElem_map, List.getElem_range, hslen]
  change getBe 8 _ (LONG_HDR + bmapBlockMax sb.blockSize * 8 + i * 8) = _
  rw [getBe, hbody _ _ (by omega), slice_fillSlots _ hw' hin' (by simpa using h2),
    List.getElem_map]
  exact beNat_toBe (haddr _ (List.getElem_mem h2))

end

/-! ## The root -/

section
variable {forkSize level : Nat} {entries : List (Nat × Nat)}

theorem bmapRootMax_mul_le (hsize : 20 ≤ forkSize) :
    4 + bmapRootMax forkSize * 16 ≤ forkSize := by
  have := Nat.div_mul_le_self (forkSize - 4) 16
  unfold bmapRootMax
  omega

/-- What stands in a fork that holds a root: its level and its count of entries, as
much of them as 16 bits hold, and the pointers. -/
theorem bmapRootFork_fields (hsize : 20 ≤ forkSize)
    (hmax : entries.length ≤ bmapRootMax forkSize) :
    (bmapRootFork forkSize level entries).length = forkSize ∧
      be16 (bmapRootFork forkSize level entries) 0 = level % 256 ^ 2 ∧
      be16 (bmapRootFork forkSize level entries) 2 = entries.length % 256 ^ 2 ∧
      ∀ i (hi : i < entries.length), be64 (bmapRootFork forkSize level entries)
        (4 + bmapRootMax forkSize * 8 + i * 8) = entries[i].2 % 256 ^ 8 := by
  have hroot := bmapRootMax_mul_le hsize
  have hw : ∀ d ∈ entries.map fun e => toBe 8 e.1, d.length = 8 := by
    intro d hd
    obtain ⟨e, _, rfl⟩ := List.mem_map.mp hd
    exact length_toBe _ _
  have hw' : ∀ d ∈ entries.map fun e => toBe 8 e.2, d.length = 8 := by
    intro d hd
    obtain ⟨e, _, rfl⟩ := List.mem_map.mp hd
    exact length_toBe _ _
  have hbase : bmapRootFork forkSize level entries =
      fillSlots 8 (fillSlots 8 (patch (List.replicate forkSize 0)
        [(0, toBe 2 level), (2, toBe 2 entries.length)]) 4 (entries.map fun e => toBe 8 e.1))
        (4 + bmapRootMax forkSize * 8) (entries.map fun e => toBe 8 e.2) := rfl
  have hfits : Fits (List.replicate forkSize (0 : UInt8)).length
      [(0, toBe 2 level), (2, toBe 2 entries.length)] := by
    simp [Fits]
    omega
  have hlen0 := length_patch hfits
  have hlv := slice_patch [] hfits (length_toBe 2 level) (by simp [Clear])
  have hn := slice_patch [_] hfits (length_toBe 2 entries.length) (by simp [Clear])
  rw [List.length_replicate] at hlen0
  rw [List.nil_append] at hlv
  rw [List.singleton_append] at hn
  generalize patch (List.replicate forkSize (0 : UInt8))
    [(0, toBe 2 level), (2, toBe 2 entries.length)] = base at hbase hlen0 hlv hn
  have hin : 4 + 8 * (entries.map fun e => toBe 8 e.1).length ≤ base.length := by
    rw [hlen0, List.length_map]
    omega
  have hlen1 := length_fillSlots _ hw hin
  have hin' : 4 + bmapRootMax forkSize * 8 + 8 * (entries.map fun e => toBe 8 e.2).length ≤
      (fillSlots 8 base 4 (entries.map fun e => toBe 8 e.1)).length := by
    rw [hlen1, hlen0, List.length_map]
    omega
  have hhead : ∀ o n, o + n ≤ 4 → slice (bmapRootFork forkSize level entries) o n =
      slice base o n := by
    intro o n hon
    rw [hbase, slice_fillSlots_disjoint _ hw' hin' (Or.inl (by omega)),
      slice_fillSlots_disjoint _ hw hin (Or.inl hon)]
  refine ⟨by rw [hbase, length_fillSlots _ hw' hin', hlen1, hlen0], ?_, ?_, fun i hi => ?_⟩
  · rw [be16, getBe, hhead 0 2 (by omega), hlv, beNat_toBe_mod]
  · rw [be16, getBe, hhead 2 2 (by omega), hn, beNat_toBe_mod]
  · rw [be64, getBe, hbase, slice_fillSlots _ hw' hin' (by simpa using hi), List.getElem_map,
      beNat_toBe_mod]

/-- A root in a fork gives back its level and its pointers. -/
theorem btreeRoot_bmapRootFork (hsize : 20 ≤ forkSize) (hlevel : 0 < level)
    (hl : level < 256 ^ 2) (hpos : 0 < entries.length)
    (hmax : entries.length ≤ bmapRootMax forkSize) (hmax' : entries.length < 256 ^ 2)
    (haddr : ∀ e ∈ entries, e.2 < 256 ^ 8) :
    btreeRoot (bmapRootFork forkSize level entries) = .ok (level, entries.map (·.2)) := by
  obtain ⟨hlen, hlv, hcount, hptr⟩ := @bmapRootFork_fields forkSize level entries hsize hmax
  rw [Nat.mod_eq_of_lt hl] at hlv
  rw [Nat.mod_eq_of_lt hmax'] at hcount
  have hroot := bmapRootMax_mul_le hsize
  have hbounds : ¬(level = 0 ∨ entries.length = 0 ∨ (forkSize - 4) / 16 < entries.length) := by
    unfold bmapRootMax at hmax
    omega
  unfold btreeRoot
  rw [except_throwIf_bind_of_not (by omega)]
  simp only [hlv, hcount, hlen]
  rw [except_throwIf_bind_of_not hbounds]
  change Except.ok _ = _
  congr 2
  refine List.ext_getElem (by simp) fun i h1 h2 => ?_
  rw [List.length_map] at h2
  rw [List.getElem_map, List.getElem_range, List.getElem_map]
  exact (hptr i h2).trans (Nat.mod_eq_of_lt (haddr _ (List.getElem_mem h2)))

end

/-! ## The whole fork -/

/-- The extents of a fork are fewer than its offsets. -/
theorem length_le_of_sorted {extents : List Extent} (hpack : ∀ e ∈ extents, e.Packable)
    (hsorted : extents.Pairwise fun a b => a.stop ≤ b.offset) : extents.length ≤ 2 ^ 54 := by
  have hlt : (extents.map (·.offset)).Pairwise (· < ·) := by
    rw [List.pairwise_map]
    refine hsorted.imp_of_mem fun {a b} ha _ hab => ?_
    have := (hpack a ha).count_pos
    unfold Extent.stop at hab
    omega
  have hsub : extents.map (·.offset) ⊆ List.range (2 ^ 54) := by
    intro o ho
    obtain ⟨e, he, rfl⟩ := List.mem_map.mp ho
    exact List.mem_range.mpr (hpack e he).offset_lt
  have hle := (List.subperm_of_subset (hlt.imp fun h => ne_of_lt h) hsub).length_le
  rwa [List.length_map, List.length_range] at hle

/-- The levels of a tree whose root has room for an entry. -/
theorem bmapLevelSizes_eq {n bs rootMax : Nat} (hmax : 2 ≤ bmapBlockMax bs) (hroot : 1 ≤ rootMax) :
    ∃ leaves ls, leaves = max (divCeil n (bmapBlockMax bs)) 1 ∧
      levelsAbove rootMax (bmapBlockMax bs) leaves leaves = some ls ∧
      bmapLevelSizes n bs rootMax = some (leaves :: ls) := by
  obtain ⟨ls, hls⟩ := Option.isSome_iff_exists.mp
    (levelsAbove_isSome hmax hroot (le_refl (max (divCeil n (bmapBlockMax bs)) 1)))
  exact ⟨_, ls, rfl, hls, by simp only [bmapLevelSizes, hls, Option.map_some]⟩

theorem mapM_fsbToByte {sb : Superblock} {fsbs : List Nat}
    (h : ∀ a ∈ fsbs, ∃ at_, sb.fsbToByte a = .ok at_) : ∃ ats, fsbs.mapM sb.fsbToByte = .ok ats := by
  induction fsbs with
  | nil => exact ⟨[], rfl⟩
  | cons a fsbs ih =>
    obtain ⟨at_, ha⟩ := h a List.mem_cons_self
    obtain ⟨ats, hats⟩ := ih fun x hx => h x (List.mem_cons_of_mem _ hx)
    refine ⟨at_ :: ats, ?_⟩
    rw [List.mapM_cons, ha, hats]
    rfl

/-- A build in valid blocks, as many as the levels take, goes through. -/
theorem buildBmap_eq {sb : Superblock} {ino rootMax leaves : Nat} {ls fsbs : List Nat}
    {recs : List (Bytes × Nat)} (hne : recs ≠ [])
    (hsizes : bmapLevelSizes recs.length sb.blockSize rootMax = some (leaves :: ls))
    (hpos : 0 < leaves) (hsum : fsbs.length = leaves + ls.sum)
    (hvalid : ∀ a ∈ fsbs, ∃ at_, sb.fsbToByte a = .ok at_) :
    buildBmap sb ino recs fsbs rootMax = .ok
      { blocks := (buildTree NULL_FSBLOCK (bmapLeaf sb ino) (bmapNode sb ino) Prod.snd leaves ls
          fsbs recs).2
        root := 0
        levels := ls.length + 2
        rootEntries := (buildTree NULL_FSBLOCK (bmapLeaf sb ino) (bmapNode sb ino) Prod.snd leaves
          ls fsbs recs).1 } := by
  obtain ⟨ats, hats⟩ := mapM_fsbToByte hvalid
  have hhead : ∃ at_, sb.fsbToByte (fsbs.headD 0) = .ok at_ := by
    cases fsbs with
    | nil => simp at hsum; omega
    | cons a fsbs => exact hvalid a List.mem_cons_self
  obtain ⟨at_, hat⟩ := hhead
  unfold buildBmap
  rw [hsizes]
  simp only
  rw [except_throwIf_bind_of_not (by simp [hsum]), hat, except_ok_bind,
    except_throwIf_bind_of_not hne, hats, except_ok_bind]
  rfl

/-- A bmap B+tree over some extents is built in the blocks it is given, under a root that
is neither empty nor too full, and once on the device it is walked from that root back
to the extents, through exactly those blocks. -/
theorem walkBmap_buildBmap {sb : Superblock} {ino rootMax : Nat} {extents : List Extent}
    {fsbs : List Nat} (h : sb.Sound) (hv5 : sb.isV5 = true) (hino : ino < 256 ^ 8)
    (hpack : ∀ e ∈ extents, e.Packable)
    (hsorted : extents.Pairwise fun a b => a.stop ≤ b.offset) (hne : extents ≠ [])
    (hroot : 1 ≤ rootMax) (hfsbs : bmapBlocks extents.length sb.blockSize rootMax = some fsbs.length)
    (hvalid : ∀ a ∈ fsbs, a < 256 ^ 8 ∧ ∃ at_, sb.fsbToByte a = .ok at_) :
    ∃ built, buildBmap sb ino (extents.map fun e => (e.encode, e.offset)) fsbs rootMax = .ok built ∧
      0 < built.rootEntries.length ∧ built.rootEntries.length ≤ rootMax ∧
      (∀ e ∈ built.rootEntries, e.2 ∈ fsbs) ∧ 2 ≤ built.levels ∧ built.levels ≤ 56 ∧
      built.blocks.map (·.1) = fsbs ∧
      ∀ dev : Device, (∀ b ∈ built.blocks, BlockAt dev sb b.1 b.2) →
        ∃ bs, collectStack (readBmapBlock dev sb ino)
            ((built.rootEntries.map (·.2)).map (·, built.levels - 2)) = some (extents, bs) ∧
          bs.Perm fsbs := by
  have hcap := bmapBlockMax_ge h
  have hn := length_le_of_sorted hpack hsorted
  obtain ⟨leaves, ls, hleaves, hls, hsizes⟩ :=
    @bmapLevelSizes_eq extents.length sb.blockSize rootMax (by omega) hroot
  have hsum : fsbs.length = leaves + ls.sum := by
    simpa [bmapBlocks, hsizes, eq_comm] using hfsbs
  have hlevels : ls.length ≤ 54 := by
    refine length_levelsAbove_le (by omega) hroot ?_ hls
    have : divCeil extents.length (bmapBlockMax sb.blockSize) ≤ 2 ^ 54 := by
      rw [divCeil_le_iff (by omega)]
      exact hn.trans (Nat.le_mul_of_pos_right _ (by omega))
    omega
  have hpos : 0 < leaves := by omega
  have henough : (extents.map fun e => (e.encode, e.offset)).length ≤
      leaves * bmapBlockMax sb.blockSize := by
    rw [List.length_map]
    exact (divCeil_le_iff (by omega)).mp (by omega)
  have htop := @good_buildTree Nat (Nat × Nat) Bytes (Bytes × Nat) NULL_FSBLOCK (bmapLeaf sb ino)
    (bmapNode sb ino) Prod.snd leaves ls fsbs (extents.map fun e => (e.encode, e.offset))
    (fun e => e.2 ∈ fsbs) (fun _ _ _ ha _ _ => ha) (fun _ _ _ _ ha _ _ => ha)
  obtain ⟨hle, hpos'⟩ := @length_buildTree Nat (Nat × Nat) Bytes (Bytes × Nat) NULL_FSBLOCK
    (bmapLeaf sb ino) (bmapNode sb ino) Prod.snd leaves ls fsbs
    (extents.map fun e => (e.encode, e.offset)) rootMax (bmapBlockMax sb.blockSize) leaves
    (by omega) hpos hls hsum
  have hblocks := @addrs_buildTree Nat (Nat × Nat) Bytes (Bytes × Nat) NULL_FSBLOCK
    (bmapLeaf sb ino) (bmapNode sb ino) Prod.snd leaves ls fsbs
    (extents.map fun e => (e.encode, e.offset)) (fun _ _ _ _ => rfl) (fun _ _ _ _ _ => rfl) hsum
  have hitems : (extents.map fun e => (e.encode, e.offset)).map (fun r => Extent.decode r.1) =
      extents := by
    rw [List.map_map]
    exact (List.map_congr_left fun e he => Extent.decode_encode (hpack e he)).trans (List.map_id _)
  have hcollect := fun dev (hon : ∀ b ∈ (buildTree NULL_FSBLOCK (bmapLeaf sb ino) (bmapNode sb ino)
      Prod.snd leaves ls fsbs (extents.map fun e => (e.encode, e.offset))).2,
      BlockAt dev sb b.1 b.2) => @collect_buildTree Nat (Nat × Nat) Bytes Extent (Bytes × Nat)
    NULL_FSBLOCK (bmapLeaf sb ino) (bmapNode sb ino) Prod.snd leaves ls fsbs
    (extents.map fun e => (e.encode, e.offset)) (nodeOf (readBmapBlock dev sb ino))
    (fun e => e.2 < 256 ^ 8) (fun r => Extent.decode r.1) rootMax (bmapBlockMax sb.blockSize)
    (bmapBlockMax sb.blockSize) leaves (by omega) (by omega) hpos henough (fun _ _ _ _ => rfl)
    (fun _ _ _ _ _ => rfl) hls hsum (fun l r a ha p _ => (hvalid a ha).1)
    (fun lvl l r a ha p _ => (hvalid a ha).1)
    (fun l r a p hp hcap hm => nodeOf_eq_some.mpr <|
      readBmapBlock_leaf h hv5 hino (fun x hx => by
        obtain ⟨e, _, rfl⟩ := List.mem_map.mp (hp x hx)
        exact e.length_encode) hcap (hon _ hm))
    (fun lvl l r a p hp hcap h0 hlvl hm => nodeOf_eq_some.mpr <|
      readBmapBlock_node h hv5 hino h0 (by omega) hp hcap (hon _ hm))
  rw [hitems] at hcollect
  refine ⟨_, buildBmap_eq (by simpa using hne) (by rw [List.length_map]; exact hsizes) hpos hsum
    fun a ha => (hvalid a ha).2, hpos', hle, htop, ?_, ?_, hblocks, fun dev hon => ?_⟩
  · exact Nat.le_add_left _ _
  · dsimp only
    omega
  · obtain ⟨bs, hcol, hperm⟩ := hcollect dev hon
    refine ⟨bs, ?_, hperm⟩
    rw [collectStack, collectList_map]
    exact hcol

/-- The bytes of a fork in an inode: the rest of the fork is zeroed. -/
def fillFork (forkSize : Nat) (fork : Bytes) : Bytes :=
  fork ++ List.replicate (forkSize - fork.length) 0

/-- Blocks each new, and no more of them than the inode has, pass the walk's checks. -/
theorem checkSeen_ok {ino nblocks : Nat} {bs pre post : List Nat} {a : Nat} (hnodup : bs.Nodup)
    (hlen : bs.length ≤ nblocks) (hmax : nblocks + 1 < 2 ^ 64) (hbs : bs = pre ++ a :: post) :
    checkSeen ino nblocks a pre = .ok () := by
  subst hbs
  have hnew : a ∉ pre := fun ha =>
    (List.nodup_append.mp hnodup).2.2 a ha a List.mem_cons_self rfl
  have hpre : pre.length + 1 ≤ nblocks := by
    rw [List.length_append, List.length_cons] at hlen
    omega
  unfold checkSeen
  rw [except_throwIf_bind_of_not hnew, except_throwIf_bind_of_not (by omega)]
  exact except_throwIf_of_not (by omega)

/-- Extents packed in a fork, whatever stands after them, are read. -/
theorem forkMap_inline {dev : Device} {sb : Superblock} {i : Inode} {extents : List Extent} {pad : Bytes}
    (hpack : ∀ e ∈ extents, e.Packable) (hsorted : extents.Pairwise fun a b => a.stop ≤ b.offset)
    (hlen : extents.length * 16 < 2 ^ 64) (hformat : i.format = .extents)
    (hnext : i.nextents = extents.length) (hfork : i.dataFork = packExtents extents ++ pad) :
    forkMap dev sb i false = .ok (extents, []) := by
  have hinline : inlineExtents (packExtents extents ++ pad) extents.length = .ok extents := by
    unfold inlineExtents
    rw [except_throwIf_bind_of_not (by rw [List.length_append, length_packExtents]; omega)]
    refine congrArg _ (List.ext_getElem (by simp) fun j h1 h2 => ?_)
    rw [List.getElem_map, List.getElem_range]
    exact inline_packExtents hpack _ j h2
  simp only [forkMap, forkOf, Bool.false_eq_true, if_false, hformat, hfork, hnext]
  rw [hinline, except_ok_bind, finish_of_sorted (fun e he => (hpack e he).count_pos) hsorted]
  rfl

/-- A fork in either form reads back: extents in the inode as they were packed, or those
under a B+tree of any height, whose root is neither empty nor too full, with the tree's
blocks. -/
theorem extents_read_back {sector : Bytes} {sb : Superblock} {ino forkSize : Nat}
    {extents : List Extent} {fsbs : List Nat} (hparse : Superblock.parse sector = .ok sb)
    (hv5 : sb.isV5 = true) (hino : ino < 2 ^ 64) (hsize : 20 ≤ forkSize)
    (hsize' : bmapRootMax forkSize < 2 ^ 16) (hpack : ∀ e ∈ extents, e.Packable)
    (hsorted : extents.Pairwise fun a b => a.stop ≤ b.offset)
    (hfsbs : bmapBlocks extents.length sb.blockSize (bmapRootMax forkSize) = some fsbs.length)
    (hnodup : fsbs.Nodup) (hvalid : ∀ a ∈ fsbs, a < 2 ^ 64 ∧ ∃ at_, sb.fsbToByte a = .ok at_) :
    ∃ format fork blocks, layFork sb ino extents forkSize fsbs = .ok (format, fork, blocks) ∧
      blocks.map (·.1) = (if format = .btree then fsbs else []) ∧
      (format = .btree → ∃ level ptrs, btreeRoot fork = .ok (level, ptrs) ∧
        0 < ptrs.length ∧ ptrs.length ≤ bmapRootMax forkSize) ∧
      ∀ (dev : Device) (inode : Inode), (∀ b ∈ blocks, BlockAt dev sb b.1 b.2) →
        inode.ino = ino → inode.format = format → inode.dataFork = fillFork forkSize fork →
        inode.nextents = extents.length → blocks.length ≤ inode.nblocks →
        inode.nblocks + 1 < 2 ^ 64 →
        ∃ bs, forkMap dev sb inode false = .ok (extents, bs) ∧ bs.Perm (blocks.map (·.1)) := by
  have hpos : ∀ e ∈ extents, 0 < e.count := fun e he => (hpack e he).count_pos
  have hfinish := finish_of_sorted hpos hsorted
  unfold layFork
  split
  · -- The extents fit in the inode.
    rename_i hfit
    refine ⟨.extents, packExtents extents, [], rfl, rfl, nofun, fun dev inode _ _ hformat hfork
      hnext _ _ => ⟨[], ?_, .refl _⟩⟩
    have hin : extents.length * 16 ≤ forkSize :=
      (Nat.mul_le_mul_right 16 hfit).trans (Nat.div_mul_le_self forkSize 16)
    have hsmall : extents.length * 16 < 2 ^ 64 := by
      unfold bmapRootMax at hsize'
      omega
    exact forkMap_inline hpack hsorted hsmall hformat hnext hfork
  · rename_i hfit
    have hne : extents ≠ [] := by
      rintro rfl
      simp at hfit
    have hroot : 1 ≤ bmapRootMax forkSize := by
      unfold bmapRootMax
      omega
    obtain ⟨built, hbuilt, hpos', hle, htop, hlv2, hlv, hblocks, hwalk⟩ :=
      @walkBmap_buildBmap sb ino _ extents fsbs (Superblock.sound_of_parse hparse) hv5 (by simpa using hino)
        hpack hsorted hne hroot hfsbs fun a ha => (by simpa using hvalid a ha)
    have hrootread := @btreeRoot_bmapRootFork forkSize (built.levels - 1) built.rootEntries hsize (by omega)
      (by omega) hpos' hle (by omega) fun e he => by simpa using (hvalid _ (htop e he)).1
    refine ⟨.btree, _, built.blocks, by dsimp only; rw [hbuilt]; rfl, hblocks,
      fun _ => ⟨_, _, hrootread, by simpa using hpos', by simpa using hle⟩,
      fun dev inode hon hino' hformat hfork hnext hnb hnb' => ?_⟩
    obtain ⟨bs, hcol, hperm⟩ := hwalk dev hon
    refine ⟨bs, ?_, hblocks ▸ hperm⟩
    have hlen : (bmapRootFork forkSize (built.levels - 1) built.rootEntries).length = forkSize :=
      (bmapRootFork_fields hsize hle).1
    have hfull : fillFork forkSize (bmapRootFork forkSize (built.levels - 1) built.rootEntries) =
        bmapRootFork forkSize (built.levels - 1) built.rootEntries := by
      rw [fillFork, hlen, Nat.sub_self, List.replicate_zero, List.append_nil]
    have hbslen : bs.length ≤ inode.nblocks := by
      rw [hperm.length_eq, ← hblocks, List.length_map]
      exact hnb
    have hw : walkBmap dev sb inode (bmapRootFork forkSize (built.levels - 1) built.rootEntries) =
        .ok (extents, bs) := by
      unfold walkBmap
      rw [hrootread, except_ok_bind, hino']
      refine (@walkStack_eq_ok _ _ _ _ _ _ _ _ [] _ [] _ hcol (by omega)
        fun pre a post he => ?_).trans ?_
      · exact checkSeen_ok (hperm.nodup_iff.mpr hnodup) hbslen hnb' he
      · rw [List.nil_append, List.nil_append]
    simp only [forkMap, forkOf, Bool.false_eq_true, if_false, hformat, hfork, hfull]
    rw [hw, except_ok_bind]
    simp only
    rw [except_throwIf_bind_of_not (by simp [hnext]), hfinish]
    rfl

/-! ### Two extents under a root with room for one -/

/-- The extents of a fork of 20 bytes, which holds one of them. -/
def twoExtents : List Extent := [⟨0, 10, 1, false⟩, ⟨5, 12, 2, true⟩]

/-- Their leaf, in block 9 of a filesystem of 16 blocks. -/
def twoLeaf : Bytes :=
  (bmapLeaf (freshSb 16 true) 200 NULL_FSBLOCK NULL_FSBLOCK 9
    (twoExtents.map fun e => (e.encode, e.offset))).2

def twoDevice : Device := { data := List.replicate (9 * 512) 0 ++ twoLeaf, faults := [] }

/-- The inode, with as many blocks recorded as given. -/
def twoInode (nblocks : Nat) : Inode :=
  { ino := 200, mode := Mode.IFREG, version := 3, format := .btree, uid := 0, gid := 0, nlink := 1
    projid := 0, atime := ⟨0, 0⟩, mtime := ⟨0, 0⟩, ctime := ⟨0, 0⟩, crtime := none, size := 0
    nblocks := nblocks, nextents := 2, anextents := 0, aformat := none, flags := 0, flags2 := 0
    generation := 0, dataFork := bmapRootFork 20 1 [(0, 9)], attrFork := [] }

set_option maxRecDepth 100000 in
theorem layFork_two : layFork (freshSb 16 true) 200 twoExtents 20 [9] =
    .ok (.btree, bmapRootFork 20 1 [(0, 9)], [(9, twoLeaf)]) := by
  decide +kernel

set_option maxRecDepth 100000 in
theorem readAt_two : twoDevice.readAt (9 * 512) 512 = .ok twoLeaf := by
  decide +kernel

theorem extents_read_back_two :
    ∃ bs, forkMap twoDevice (freshSb 16 true) (twoInode 4) false = .ok (twoExtents, bs) ∧
      bs.Perm [9] := by
  obtain ⟨format, fork, blocks, hlay, -, -, hread⟩ :=
    @extents_read_back (freshSector 16 true) (freshSb 16 true) 200 20 twoExtents [9] parse_fresh
      rfl (by decide) (by decide) (by decide)
      (by
        intro e he
        rcases List.mem_cons.mp he with rfl | he
        · exact ⟨by decide, by decide, by decide, by decide⟩
        · obtain rfl := List.mem_singleton.mp he
          exact ⟨by decide, by decide, by decide, by decide⟩)
      (by decide) (by decide) (by decide) (by
        intro a ha
        obtain rfl := List.mem_singleton.mp ha
        exact ⟨by decide, 9 * 512, rfl⟩)
  obtain ⟨rfl, rfl, rfl⟩ : format = .btree ∧ fork = bmapRootFork 20 1 [(0, 9)] ∧
      blocks = [(9, twoLeaf)] := by
    rw [layFork_two] at hlay
    simpa [eq_comm] using hlay
  refine hread twoDevice (twoInode 4) ?_ rfl rfl (by decide +kernel) rfl (by decide) (by decide)
  intro b hb
  obtain rfl := List.mem_singleton.mp hb
  exact ⟨9 * 512, rfl, readAt_two⟩

/-! ### Forks that do not read back -/

/-- A root of 65536 entries: extents enough to fill as many leaves. -/
def wideExtents : List Extent := (List.range (27 * 65536)).map fun i => ⟨i, i, 1, false⟩

set_option maxRecDepth 100000 in
theorem parse_wide : Superblock.parse (freshSector 65536 true) = .ok (freshSb 65536 true) := by
  decide +kernel

theorem packable_wide : ∀ e ∈ wideExtents, e.Packable := by
  intro e he
  obtain ⟨i, hi, rfl⟩ := List.mem_map.mp he
  have hi := List.mem_range.mp hi
  exact ⟨show i < 2 ^ 54 by omega, show i < 2 ^ 52 by omega, show 0 < 1 by omega,
    show 1 < 2 ^ 21 by omega⟩

theorem sorted_wide : wideExtents.Pairwise fun a b => a.stop ≤ b.offset := by
  rw [wideExtents, List.pairwise_map]
  exact List.pairwise_lt_range.imp fun h => h

theorem length_wide : wideExtents.length = 27 * 65536 := by
  rw [wideExtents, List.length_map, List.length_range]

theorem levels_wide : bmapLevelSizes (27 * 65536) 512 65536 = some [65536] := by
  have hleaves : max (divCeil (27 * 65536) (bmapBlockMax 512)) 1 = 65536 := by decide
  rw [bmapLevelSizes, hleaves, levelsAbove]
  rfl

/-- An inode that records as many blocks as its counter holds, and a root of more
entries than its own counter holds, do not read back. -/
theorem extents_not_read_back :
    (layFork (freshSb 16 true) 200 twoExtents 20 [9] =
        .ok (.btree, bmapRootFork 20 1 [(0, 9)], [(9, twoLeaf)]) ∧
      (twoInode (2 ^ 64 - 1)).dataFork = bmapRootFork 20 1 [(0, 9)] ∧
      BlockAt twoDevice (freshSb 16 true) 9 twoLeaf ∧
      ∃ e, forkMap twoDevice (freshSb 16 true) (twoInode (2 ^ 64 - 1)) false = .error e) ∧
    (Superblock.parse (freshSector 65536 true) = .ok (freshSb 65536 true) ∧
      (∀ e ∈ wideExtents, e.Packable) ∧
      (wideExtents.Pairwise fun a b => a.stop ≤ b.offset) ∧
      bmapBlocks wideExtents.length 512 (bmapRootMax (2 ^ 20 + 4)) = some 65536 ∧
      (∀ a ∈ List.range 65536, ∃ at_, (freshSb 65536 true).fsbToByte a = .ok at_) ∧
      ∃ fork blocks, layFork (freshSb 65536 true) 200 wideExtents (2 ^ 20 + 4) (List.range 65536) =
          .ok (.btree, fork, blocks) ∧
        ∀ (dev : Device) (inode : Inode), inode.format = .btree → inode.dataFork = fork →
          ∃ e, forkMap dev (freshSb 65536 true) inode false = .error e) := by
  have hroot : bmapRootMax (2 ^ 20 + 4) = 65536 := by decide
  have hvalid : ∀ a ∈ List.range 65536, ∃ at_, (freshSb 65536 true).fsbToByte a = .ok at_ := by
    intro a ha
    have ha := List.mem_range.mp ha
    have hlog : (freshSb 65536 true).agblkLog = 16 := by decide
    have hin : ¬((freshSb 65536 true).agCount ≤ a / 2 ^ (freshSb 65536 true).agblkLog ∨
        (freshSb 65536 true).agBlocks ≤ a % 2 ^ (freshSb 65536 true).agblkLog) := by
      rw [hlog]
      change ¬(1 ≤ a / 2 ^ 16 ∨ 65536 ≤ a % 2 ^ 16)
      omega
    exact ⟨_, if_neg hin⟩
  refine ⟨⟨layFork_two, rfl, ⟨9 * 512, rfl, readAt_two⟩, ?_⟩, parse_wide, packable_wide, sorted_wide, ?_,
    hvalid, ?_⟩
  · refine ⟨.panic "attempt to add with overflow", ?_⟩
    decide +kernel
  · rw [bmapBlocks, length_wide, hroot, levels_wide]
    rfl
  · have hbuilt := @buildBmap_eq (freshSb 65536 true) 200 65536 65536 [] (List.range 65536)
      (wideExtents.map fun e => (e.encode, e.offset))
      (by rw [← List.length_pos_iff, List.length_map, length_wide]; omega)
      (by rw [List.length_map, length_wide]; exact levels_wide) (by omega) (by simp) hvalid
    have htop := @length_buildTree_nil Nat (Nat × Nat) Bytes (Bytes × Nat) NULL_FSBLOCK
      (bmapLeaf (freshSb 65536 true) 200) (bmapNode (freshSb 65536 true) 200) Prod.snd 65536
      (List.range 65536) (wideExtents.map fun e => (e.encode, e.offset)) (by simp)
    generalize buildTree NULL_FSBLOCK (bmapLeaf (freshSb 65536 true) 200)
      (bmapNode (freshSb 65536 true) 200) Prod.snd 65536 [] (List.range 65536)
      (wideExtents.map fun e => (e.encode, e.offset)) = tree at hbuilt htop
    refine ⟨bmapRootFork (2 ^ 20 + 4) 1 tree.1, tree.2, ?_, fun dev inode hformat hfork => ?_⟩
    · unfold layFork
      rw [if_neg (by rw [length_wide]; norm_num), hroot]
      dsimp only
      rw [hbuilt]
      rfl
    · -- The count of entries is 65536, of which 16 bits hold nothing.
      obtain ⟨hlen, -, hcount, -⟩ := @bmapRootFork_fields (2 ^ 20 + 4) 1 tree.1 (by norm_num)
        (by rw [hroot, htop])
      rw [htop] at hcount
      have hzero : be16 (bmapRootFork (2 ^ 20 + 4) 1 tree.1) 2 = 0 := hcount
      have hread : ∃ e, btreeRoot (bmapRootFork (2 ^ 20 + 4) 1 tree.1) = .error e := by
        unfold btreeRoot
        rw [except_throwIf_bind_of_not (by rw [hlen]; norm_num)]
        exact ⟨_, except_bind_eq_error.mpr (Or.inl
          (except_throwIf_eq_error.mpr ⟨Or.inr (Or.inl hzero), rfl⟩))⟩
      obtain ⟨e, he⟩ := hread
      refine ⟨e, ?_⟩
      simp only [forkMap, forkOf, Bool.false_eq_true, if_false, hformat, hfork]
      exact except_bind_eq_error.mpr (Or.inl (except_bind_eq_error.mpr (Or.inl he)))

end FioXfs.Bmap
