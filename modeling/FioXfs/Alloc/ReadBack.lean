import FioXfs.Alloc
set_option autoImplicit false

/-!
# AG B+trees read back as built

The blocks `build_ag` lays out, on a device, are what `walk_tree` walks: each block
decodes to the records or the children it was made of, so the whole tree traverses
to the records it was built from, and the walk follows that traversal.
-/

namespace FioXfs.Alloc

open FioXfs.Lib FioXfs.Btree

/-! ## One block -/

/-- What a tree's blocks rely on: the geometry, and a kind of tree whose records and
entries fit a block. -/
structure Layout (sb : Superblock) (spec : AgSpec) : Prop where
  sound : sb.Sound
  magic : spec.magic < 256 ^ 4
  recLen : 8 ≤ spec.recLen
  keyLen : 4 ≤ spec.keyLen

section
variable {sb : Superblock} {agno : Nat} {spec : AgSpec} {level take left right addr : Nat}

theorem leafMax_mul_le (bs : Nat) : spec.recLen * spec.leafMax bs ≤ bs - SHORT_HDR :=
  Nat.mul_div_le _ _

theorem nodeMax_mul_le (bs : Nat) :
    spec.nodeMax bs * (spec.keyLen * spec.slots) + spec.nodeMax bs * 4 ≤ bs - SHORT_HDR := by
  rw [← Nat.mul_add]
  exact Nat.div_mul_le_self _ _

theorem Layout.blockSize_ge (h : Layout sb spec) : 512 ≤ sb.blockSize := h.sound.blockSize_ge

theorem Layout.leafMax_lt (h : Layout sb spec) : spec.leafMax sb.blockSize < 256 ^ 2 := by
  have h1 := @leafMax_mul_le spec sb.blockSize
  have h2 := h.sound.blockSize_le
  have h3 := Nat.mul_le_mul_right (spec.leafMax sb.blockSize) h.recLen
  omega

theorem Layout.nodeMax_lt (h : Layout sb spec) : spec.nodeMax sb.blockSize < 256 ^ 2 := by
  have h1 := @nodeMax_mul_le spec sb.blockSize
  have h2 := h.sound.blockSize_le
  omega

/-- The five kinds of tree fit any block. -/
theorem layout_of_sound (hs : sb.Sound) (h : spec ∈ [BNO, CNT, RMAP, INOBT, FINOBT]) :
    Layout sb spec ∧ 0 < spec.leafMax sb.blockSize ∧ 2 ≤ spec.nodeMax sb.blockSize := by
  have hbs := hs.blockSize_ge
  have hleaf : ∀ {n}, 0 < n → n ≤ 24 → 0 < (sb.blockSize - SHORT_HDR) / n := fun hn hle =>
    Nat.div_pos (by unfold SHORT_HDR; omega) hn
  have hnode : ∀ {n}, 0 < n → n ≤ 44 → 2 ≤ (sb.blockSize - SHORT_HDR) / n := fun hn hle =>
    (Nat.le_div_iff_mul_le hn).mpr (by unfold SHORT_HDR; omega)
  simp only [List.mem_cons, List.not_mem_nil, or_false] at h
  rcases h with rfl | rfl | rfl | rfl | rfl <;>
    exact ⟨⟨hs, by decide, by decide, by decide⟩, hleaf (by decide) (by decide),
      hnode (by decide) (by decide)⟩

theorem agHeader_eq : agHeader sb agno spec level take left right addr =
    patch (List.replicate sb.blockSize 0)
      [(0, toBe 4 spec.magic), (4, toBe 2 level), (6, toBe 2 take), (8, toBe 4 left),
        (12, toBe 4 right), (16, toBe 8 (sb.agbToByte agno addr / 512)), (32, sb.metaUuid),
        (48, toBe 4 agno)] := rfl

theorem fits_agHeader (h : Layout sb spec) : Fits (List.replicate sb.blockSize (0 : UInt8)).length
    [(0, toBe 4 spec.magic), (4, toBe 2 level), (6, toBe 2 take), (8, toBe 4 left),
      (12, toBe 4 right), (16, toBe 8 (sb.agbToByte agno addr / 512)), (32, sb.metaUuid),
      (48, toBe 4 agno)] := by
  have hbs := h.blockSize_ge
  simp [Fits, h.sound.metaUuid_len]
  omega

theorem length_agHeader (h : Layout sb spec) :
    (agHeader sb agno spec level take left right addr).length = sb.blockSize := by
  rw [agHeader_eq, length_patch (fits_agHeader h), List.length_replicate]

theorem magic_agHeader (h : Layout sb spec) :
    be32 (agHeader sb agno spec level take left right addr) 0 = spec.magic := by
  rw [agHeader_eq]
  exact getBe_patch [] (fits_agHeader h) h.magic (by simp [Clear])

theorem level_agHeader (h : Layout sb spec) (hl : level < 256 ^ 2) :
    be16 (agHeader sb agno spec level take left right addr) 4 = level := by
  rw [agHeader_eq]
  exact getBe_patch [_] (fits_agHeader h) hl (by simp [Clear])

theorem take_agHeader (h : Layout sb spec) (ht : take < 256 ^ 2) :
    be16 (agHeader sb agno spec level take left right addr) 6 = take := by
  rw [agHeader_eq]
  exact getBe_patch [_, _] (fits_agHeader h) ht (by simp [Clear])

theorem left_agHeader (h : Layout sb spec) (hl : left < 256 ^ 4) :
    be32 (agHeader sb agno spec level take left right addr) 8 = left := by
  rw [agHeader_eq]
  exact getBe_patch [_, _, _] (fits_agHeader h) hl (by simp [Clear])

theorem right_agHeader (h : Layout sb spec) (hr : right < 256 ^ 4) :
    be32 (agHeader sb agno spec level take left right addr) 12 = right := by
  rw [agHeader_eq]
  exact getBe_patch [_, _, _, _] (fits_agHeader h) hr (by simp [Clear])

/-- A block's body, written over its header and stamped: the header is as it was, and so is what is
past it. -/
theorem stamped_body {body : Bytes} (h : Layout sb spec) (hlen : body.length = sb.blockSize)
    (hhead : ∀ o n, o + n ≤ SHORT_HDR →
      slice body o n = slice (agHeader sb agno spec level take left right addr) o n) :
    Crc.verify (Crc.stamp body 52) 52 = true ∧
      (∀ w o, o + w ≤ 52 → getBe w (Crc.stamp body 52) o =
        getBe w (agHeader sb agno spec level take left right addr) o) ∧
      ∀ o n, SHORT_HDR ≤ o → slice (Crc.stamp body 52) o n = slice body o n := by
  have hbs := h.blockSize_ge
  have h52 : 52 + 4 ≤ body.length := by omega
  refine ⟨Crc.verify_stamp h52, fun w o how => ?_, fun o n ho => ?_⟩
  · rw [Crc.getBe_stamp_disjoint h52 (Or.inl how), getBe, hhead o w (by unfold SHORT_HDR; omega),
      getBe]
  · exact Crc.slice_stamp_disjoint h52 (Or.inr (by unfold SHORT_HDR at ho; omega))

/-- What a leaf's block holds. -/
theorem agLeaf_block {part : List Rec} (h : Layout sb spec)
    (hrec : ∀ r ∈ part, r.data.length = spec.recLen)
    (hmax : part.length ≤ spec.leafMax sb.blockSize) :
    (agLeaf sb agno spec left right addr part).2.length = sb.blockSize ∧
      Crc.verify (agLeaf sb agno spec left right addr part).2 52 = true ∧
      (∀ w o, o + w ≤ 52 → getBe w (agLeaf sb agno spec left right addr part).2 o =
        getBe w (agHeader sb agno spec 0 part.length left right addr) o) ∧
      ∀ i (hi : i < part.length), slice (agLeaf sb agno spec left right addr part).2
        (SHORT_HDR + i * spec.recLen) spec.recLen = part[i].data := by
  have hbs := h.blockSize_ge
  have hfit := Nat.mul_le_mul_left spec.recLen hmax
  have hcap := @leafMax_mul_le spec sb.blockSize
  have hw : ∀ d ∈ part.map (·.data), d.length = spec.recLen := by
    intro d hd
    obtain ⟨r, hr, rfl⟩ := List.mem_map.mp hd
    exact hrec r hr
  have hin : SHORT_HDR + spec.recLen * (part.map (·.data)).length ≤
      (agHeader sb agno spec 0 part.length left right addr).length := by
    rw [length_agHeader h, List.length_map]
    unfold SHORT_HDR at hcap ⊢
    omega
  have hlen := length_fillSlots _ hw hin
  rw [length_agHeader h] at hlen
  obtain ⟨hv, hhead, hbody⟩ := @stamped_body sb agno spec 0 part.length left right addr
    (fillSlots spec.recLen (agHeader sb agno spec 0 part.length left right addr) SHORT_HDR
      (part.map (·.data))) h hlen
    (fun o n hon => slice_fillSlots_disjoint _ hw hin (Or.inl hon))
  refine ⟨(Crc.length_stamp (by rw [hlen]; omega)).trans hlen, hv, hhead, fun i hi => ?_⟩
  rw [agLeaf]
  dsimp only
  rw [hbody _ _ (Nat.le_add_right _ _), slice_fillSlots _ hw hin (by simpa using hi)]
  simp

theorem readTreeBlock_leaf {dev : Device} {name : String} {part : List Rec} (h : Layout sb spec)
    (hrec : ∀ r ∈ part, r.data.length = spec.recLen)
    (hmax : part.length ≤ spec.leafMax sb.blockSize)
    (hread : dev.readAt (sb.agbToByte agno addr) sb.blockSize =
      .ok (agLeaf sb agno spec left right addr part).2) :
    readTreeBlock dev sb agno spec name addr 0 = .ok (.leaf (part.map (·.data))) := by
  obtain ⟨-, hv, hhead, hslot⟩ := @agLeaf_block sb agno spec left right addr part h hrec hmax
  have hm : be32 _ 0 = _ := (hhead 4 0 (by omega)).trans (magic_agHeader h)
  have hlv : be16 _ 4 = _ := (hhead 2 4 (by omega)).trans (level_agHeader h (by norm_num))
  have htk : be16 _ 6 = _ :=
    (hhead 2 6 (by omega)).trans (take_agHeader h (lt_of_le_of_lt hmax h.leafMax_lt))
  unfold readTreeBlock
  simp only [hread, except_ok_bind]
  rw [except_throwIf_bind_of_not (by simp [hm, hv]), except_throwIf_bind_of_not (by simp [hlv]),
    if_pos hlv, htk, except_throwIf_bind_of_not (not_lt.mpr hmax)]
  change Except.ok _ = _
  congr 2
  refine List.ext_getElem (by simp) fun i h1 h2 => ?_
  rw [List.length_map] at h2
  rw [List.getElem_map, List.getElem_range, hslot i h2, List.getElem_map]

/-- The keys of a node fit before its pointers. -/
theorem fits_keys {part : List Below} (h : Layout sb spec)
    (hmax : part.length ≤ spec.nodeMax sb.blockSize) :
    SHORT_HDR + spec.keyLen * spec.slots * (part.map (keySlot spec)).length ≤
      (agHeader sb agno spec level part.length left right addr).length := by
  have hbs := h.blockSize_ge
  have hcap := @nodeMax_mul_le spec sb.blockSize
  have hkeys : spec.keyLen * spec.slots * part.length ≤
      spec.nodeMax sb.blockSize * (spec.keyLen * spec.slots) := by
    rw [Nat.mul_comm]
    exact Nat.mul_le_mul_right _ hmax
  rw [length_agHeader h, List.length_map]
  unfold SHORT_HDR at hcap ⊢
  omega

/-- The pointers of a node fit after its keys. -/
theorem fits_ptrs {part : List Below} (h : Layout sb spec)
    (hmax : part.length ≤ spec.nodeMax sb.blockSize) {buf : Bytes}
    (hbuf : buf.length = sb.blockSize) :
    spec.ptrsAt sb.blockSize + 4 * (part.map fun e => toBe 4 e.block).length ≤ buf.length := by
  have hbs := h.blockSize_ge
  have hcap := @nodeMax_mul_le spec sb.blockSize
  have hptrs : spec.ptrsAt sb.blockSize =
      SHORT_HDR + spec.nodeMax sb.blockSize * (spec.keyLen * spec.slots) := rfl
  rw [hbuf, List.length_map, hptrs]
  unfold SHORT_HDR at hcap ⊢
  omega

theorem length_ptrSlots {part : List Below} :
    ∀ d ∈ part.map fun e => toBe 4 e.block, d.length = 4 := by
  intro d hd
  obtain ⟨e, he, rfl⟩ := List.mem_map.mp hd
  exact length_toBe _ _

/-- What a node's block holds. -/
theorem agNode_block {part : List Below} (h : Layout sb spec)
    (hkey : ∀ e ∈ part, (keySlot spec e).length = spec.keyLen * spec.slots)
    (hmax : part.length ≤ spec.nodeMax sb.blockSize) :
    (agNode sb agno spec level left right addr part).2.length = sb.blockSize ∧
      Crc.verify (agNode sb agno spec level left right addr part).2 52 = true ∧
      (∀ w o, o + w ≤ 52 → getBe w (agNode sb agno spec level left right addr part).2 o =
        getBe w (agHeader sb agno spec level part.length left right addr) o) ∧
      (∀ i (hi : i < part.length), slice (agNode sb agno spec level left right addr part).2
        (SHORT_HDR + i * (spec.keyLen * spec.slots)) (spec.keyLen * spec.slots) =
          keySlot spec part[i]) ∧
      ∀ i (hi : i < part.length), slice (agNode sb agno spec level left right addr part).2
        (spec.ptrsAt sb.blockSize + i * 4) 4 = toBe 4 part[i].block := by
  have hbs := h.blockSize_ge
  have hw : ∀ d ∈ part.map (keySlot spec), d.length = spec.keyLen * spec.slots := by
    intro d hd
    obtain ⟨e, he, rfl⟩ := List.mem_map.mp hd
    exact hkey e he
  have hw' := @length_ptrSlots part
  have hin := @fits_keys sb agno spec level left right addr part h hmax
  have hlen1 := length_fillSlots _ hw hin
  have hin' := fits_ptrs h hmax (hlen1.trans (length_agHeader h))
  have hlen := length_fillSlots _ hw' hin'
  rw [hlen1, length_agHeader h] at hlen
  have hptrs : SHORT_HDR ≤ spec.ptrsAt sb.blockSize := Nat.le_add_right _ _
  have hbelow : SHORT_HDR + spec.keyLen * spec.slots * (part.map (keySlot spec)).length ≤
      spec.ptrsAt sb.blockSize := by
    rw [List.length_map, Nat.mul_comm]
    exact Nat.add_le_add_left (Nat.mul_le_mul_right _ hmax) _
  have hblock : (agNode sb agno spec level left right addr part).2 = Crc.stamp
      (fillSlots 4 (fillSlots (spec.keyLen * spec.slots)
        (agHeader sb agno spec level part.length left right addr) SHORT_HDR
        (part.map (keySlot spec))) (spec.ptrsAt sb.blockSize) (part.map fun e => toBe 4 e.block))
      52 := rfl
  obtain ⟨hv, hhead, hbody⟩ := @stamped_body sb agno spec level part.length left right addr _ h hlen
    (fun o n hon => by
      rw [slice_fillSlots_disjoint _ hw' hin' (Or.inl (by omega)),
        slice_fillSlots_disjoint _ hw hin (Or.inl hon)])
  rw [hblock]
  refine ⟨(Crc.length_stamp (by rw [hlen]; omega)).trans hlen, hv, hhead, fun i hi => ?_,
    fun i hi => ?_⟩
  · have hend : i * (spec.keyLen * spec.slots) + spec.keyLen * spec.slots ≤
        spec.keyLen * spec.slots * (part.map (keySlot spec)).length := by
      rw [List.length_map, ← Nat.succ_mul, Nat.mul_comm]
      exact Nat.mul_le_mul_left _ hi
    rw [hbody _ _ (Nat.le_add_right _ _), slice_fillSlots_disjoint _ hw' hin' (Or.inl (by omega)),
      slice_fillSlots _ hw hin (by simpa using hi)]
    simp
  · rw [hbody _ _ (by omega), slice_fillSlots _ hw' hin' (by simpa using hi)]
    simp

theorem readTreeBlock_node {dev : Device} {name : String} {part : List Below} (h : Layout sb spec)
    (hlevel : 0 < level) (hl : level < 256 ^ 2)
    (hkey : ∀ e ∈ part, (keySlot spec e).length = spec.keyLen * spec.slots)
    (haddr : ∀ e ∈ part, e.block < 256 ^ 4) (hmax : part.length ≤ spec.nodeMax sb.blockSize)
    (hread : dev.readAt (sb.agbToByte agno addr) sb.blockSize =
      .ok (agNode sb agno spec level left right addr part).2) :
    readTreeBlock dev sb agno spec name addr level = .ok (.node (part.map (·.block))) := by
  obtain ⟨-, hv, hhead, -, hptr⟩ :=
    @agNode_block sb agno spec level left right addr part h hkey hmax
  have hm : be32 _ 0 = _ := (hhead 4 0 (by omega)).trans (magic_agHeader h)
  have hlv : be16 _ 4 = _ := (hhead 2 4 (by omega)).trans (level_agHeader h hl)
  have htk : be16 _ 6 = _ :=
    (hhead 2 6 (by omega)).trans (take_agHeader h (lt_of_le_of_lt hmax h.nodeMax_lt))
  unfold readTreeBlock
  simp only [hread, except_ok_bind]
  rw [except_throwIf_bind_of_not (by simp [hm, hv]), except_throwIf_bind_of_not (by simp [hlv]),
    if_neg (by rw [hlv]; omega), htk, except_throwIf_bind_of_not (not_lt.mpr hmax)]
  change Except.ok _ = _
  congr 2
  refine List.ext_getElem (by simp) fun i h1 h2 => ?_
  rw [List.length_map] at h2
  have hslot := hptr i h2
  rw [Nat.mul_comm] at hslot
  rw [List.getElem_map, List.getElem_range, List.getElem_map, be32, getBe]
  rw [Nat.mul_comm i 4, hslot]
  exact beNat_toBe (haddr _ (List.getElem_mem h2))

end

/-! ## The whole tree -/

section
variable {dev : Device} {sb : Superblock} {agno : Nat} {spec : AgSpec} {name : String}

/-- The blocks stand on the device. -/
def OnDevice (dev : Device) (sb : Superblock) (agno : Nat) (blocks : List (Nat × Bytes)) : Prop :=
  ∀ b ∈ blocks, dev.readAt (sb.agbToByte agno b.1) sb.blockSize = .ok b.2

/-- A record as its tree expects it. -/
def RecOk (spec : AgSpec) (r : Rec) : Prop :=
  r.data.length = spec.recLen ∧ r.low.length = spec.keyLen ∧ r.high.length = spec.keyLen

/-- An entry whose keys and block number fit its slots. -/
def EntryOk (spec : AgSpec) (e : Below) : Prop :=
  e.low.length = spec.keyLen ∧ e.high.length = spec.keyLen ∧ e.block < 256 ^ 4

theorem length_keysOf {es : List (Bytes × Bytes)}
    (h : ∀ e ∈ es, e.1.length = spec.keyLen ∧ e.2.length = spec.keyLen) :
    (keysOf spec es).1.length = spec.keyLen ∧ (keysOf spec es).2.length = spec.keyLen := by
  cases es with
  | nil => simp [keysOf]
  | cons e es =>
    refine ⟨(h e List.mem_cons_self).1, ?_⟩
    change (es.foldl (fun best e => if spec.cmp e.2 best == .gt then e.2 else best) e.2).length = _
    have hbest := (h e List.mem_cons_self).2
    have hes : ∀ x ∈ es, x.2.length = spec.keyLen := fun x hx => (h x (List.mem_cons_of_mem _ hx)).2
    generalize e.2 = best at hbest ⊢
    clear h
    induction es generalizing best with
    | nil => exact hbest
    | cons x es ih =>
      rw [List.foldl_cons]
      refine ih (fun y hy => hes y (List.mem_cons_of_mem _ hy)) _ ?_
      split
      · exact hes x List.mem_cons_self
      · exact hbest

theorem length_keySlot {e : Below} (h : EntryOk spec e) :
    (keySlot spec e).length = spec.keyLen * spec.slots := by
  unfold keySlot AgSpec.slots
  split
  · rw [List.length_append, h.1, h.2.1]
    omega
  · rw [h.1, Nat.mul_one]

theorem entryOk_node {level left right addr : Nat} {part : List Below} (ha : addr < 256 ^ 4)
    (hp : ∀ e ∈ part, EntryOk spec e) :
    EntryOk spec (agNode sb agno spec level left right addr part).1 := by
  have hk : ∀ e ∈ part.map fun e => (e.low, e.high),
      e.1.length = spec.keyLen ∧ e.2.length = spec.keyLen := by
    intro e he
    obtain ⟨x, hx, rfl⟩ := List.mem_map.mp he
    exact ⟨(hp x hx).1, (hp x hx).2.1⟩
  exact ⟨(length_keysOf hk).1, (length_keysOf hk).2, ha⟩

theorem entryOk_leaf {left right addr : Nat} {part : List Rec} (ha : addr < 256 ^ 4)
    (hp : ∀ r ∈ part, RecOk spec r) : EntryOk spec (agLeaf sb agno spec left right addr part).1 := by
  have hk : ∀ e ∈ part.map fun r => (r.low, r.high),
      e.1.length = spec.keyLen ∧ e.2.length = spec.keyLen := by
    intro e he
    obtain ⟨x, hx, rfl⟩ := List.mem_map.mp he
    exact ⟨(hp x hx).2.1, (hp x hx).2.2⟩
  exact ⟨(length_keysOf hk).1, (length_keysOf hk).2, ha⟩

/-- The levels of a tree, with room for two entries in each node. -/
theorem levelSizes_eq {n leafMax nodeMax : Nat} (hnode : 2 ≤ nodeMax) :
    ∃ leaves ls, leaves = max (divCeil n leafMax) 1 ∧
      levelsAbove 1 nodeMax leaves leaves = some ls ∧
      levelSizes n leafMax nodeMax = leaves :: ls := by
  obtain ⟨ls, hls⟩ := Option.isSome_iff_exists.mp
    (levelsAbove_isSome hnode (le_refl 1) (le_refl (max (divCeil n leafMax) 1)))
  exact ⟨_, ls, rfl, hls, by simp only [levelSizes, hls, Option.getD_some]⟩

/-- A tree that was built and stands on the device traverses from its root, at its
height, to the records it was built of, through exactly the blocks it was given. -/
theorem collect_buildAg {recs : List Rec} {agbnos : List Nat} {t : Built} (h : Layout sb spec)
    (hmax : 0 < spec.leafMax sb.blockSize) (hnode : 2 ≤ spec.nodeMax sb.blockSize)
    (hrec : ∀ r ∈ recs, RecOk spec r) (haddr : ∀ a ∈ agbnos, a < 256 ^ 4)
    (hlv : t.levels ≤ 256 ^ 2) (hbuild : buildAg sb agno spec recs agbnos = .ok t)
    (hon : OnDevice dev sb agno t.blocks) :
    ∃ bs, collect (nodeOf (readTreeBlock dev sb agno spec name)) (t.levels - 1) t.root =
        some (recs.map (·.data), bs) ∧ bs.Perm agbnos ∧ t.blocks.map (·.1) = agbnos ∧
      0 < t.levels ∧ t.root ∈ agbnos := by
  obtain ⟨leaves, ls, hleaves, hls, hsizes⟩ :=
    @levelSizes_eq recs.length (spec.leafMax sb.blockSize) _ hnode
  unfold buildAg at hbuild
  rw [hsizes] at hbuild
  simp only [except_bind_eq_ok, List.headD_cons, List.tail_cons, List.sum_cons] at hbuild
  obtain ⟨_, hguard, hbuild⟩ := hbuild
  have hsum := not_not.mp (except_throwIf_eq_ok.mp hguard)
  obtain rfl := Except.ok.inj hbuild
  have henough : recs.length ≤ leaves * spec.leafMax sb.blockSize :=
    (divCeil_le_iff hmax).mp (by omega)
  obtain ⟨bs, hcol, hperm⟩ := @collect_buildTree Nat Below Bytes Bytes Rec NULL_AGBLOCK
    (agLeaf sb agno spec) (agNode sb agno spec) Below.block leaves ls agbnos recs
    (nodeOf (readTreeBlock dev sb agno spec name)) (EntryOk spec) (·.data) 1 (spec.nodeMax sb.blockSize)
    (spec.leafMax sb.blockSize) leaves (by omega) Nat.one_pos (by omega) henough
    (fun _ _ _ _ => rfl) (fun _ _ _ _ _ => rfl) hls hsum.symm
    (fun l r a ha p hp => entryOk_leaf (haddr a ha) fun x hx => hrec x (hp x hx))
    (fun lvl l r a ha p hp => entryOk_node (haddr a ha) hp)
    (fun l r a p hp hcap hm => by
      exact nodeOf_eq_some.mpr
        (readTreeBlock_leaf h (fun x hx => (hrec x (hp x hx)).1) hcap (hon _ hm)))
    (fun lvl l r a p hp hcap h0 hlvl hm => by
      have hlv' : ls.length + 1 ≤ 256 ^ 2 := hlv
      exact nodeOf_eq_some.mpr (readTreeBlock_node h h0 (by omega)
        (fun e he => length_keySlot (hp e he)) (fun e he => (hp e he).2.2) hcap (hon _ hm)))
  have hblocks := @addrs_buildTree Nat Below Bytes Rec NULL_AGBLOCK (agLeaf sb agno spec)
    (agNode sb agno spec) Below.block leaves ls agbnos recs (fun _ _ _ _ => rfl)
    (fun _ _ _ _ _ => rfl) hsum.symm
  obtain ⟨hle, hne⟩ := @length_buildTree Nat Below Bytes Rec NULL_AGBLOCK (agLeaf sb agno spec)
    (agNode sb agno spec) Below.block leaves ls agbnos recs 1 (spec.nodeMax sb.blockSize) leaves
    (by omega) (by omega) hls hsum.symm
  dsimp only
  generalize buildTree NULL_AGBLOCK (agLeaf sb agno spec) (agNode sb agno spec) Below.block leaves
    ls agbnos recs = tree at *
  -- The top level is a single block: the root.
  obtain ⟨e, he⟩ := List.length_eq_one_iff.mp (le_antisymm hle hne)
  rw [he] at hcol
  obtain ⟨r, b, _, _, hroot, hnil, hr, hb⟩ := collectList_cons.mp hcol
  simp only [List.map_nil, collectList, Option.some.injEq, Prod.mk.injEq] at hnil
  obtain ⟨rfl, rfl⟩ := hnil
  rw [List.append_nil] at hr hb
  subst hr hb
  refine ⟨bs, by simpa [he] using hroot, hperm, hblocks, by simp, ?_⟩
  exact hperm.subset (by simpa [he] using mem_of_collect hroot)

/-- A tree over few enough blocks is not high. -/
theorem levels_le_of_buildAg_pow {recs : List Rec} {agbnos : List Nat} {t : Built} {base k : Nat}
    (hbase : 2 ≤ base) (hnode : base ≤ spec.nodeMax sb.blockSize)
    (hbuild : buildAg sb agno spec recs agbnos = .ok t) (hk : agbnos.length ≤ base ^ k) :
    t.levels ≤ k + 1 := by
  obtain ⟨leaves, ls, hleaves, hls, hsizes⟩ :=
    @levelSizes_eq recs.length (spec.leafMax sb.blockSize) _ (hbase.trans hnode)
  unfold buildAg at hbuild
  rw [hsizes] at hbuild
  simp only [except_bind_eq_ok, List.headD_cons, List.tail_cons, List.sum_cons] at hbuild
  obtain ⟨_, hguard, hbuild⟩ := hbuild
  have hsum := not_not.mp (except_throwIf_eq_ok.mp hguard)
  obtain rfl := Except.ok.inj hbuild
  have := length_levelsAbove_le_pow (by omega) hnode (le_refl 1) (show leaves ≤ base ^ k by omega) hls
  simpa using this

theorem levels_le_of_buildAg {recs : List Rec} {agbnos : List Nat} {t : Built} {k : Nat}
    (hnode : 2 ≤ spec.nodeMax sb.blockSize) (hbuild : buildAg sb agno spec recs agbnos = .ok t)
    (hk : agbnos.length ≤ 2 ^ k) : t.levels ≤ k + 1 :=
  levels_le_of_buildAg_pow (le_refl 2) hnode hbuild hk

/-- A tree is built in as many blocks as it takes, each of the block size. -/
theorem length_of_buildAg {recs : List Rec} {agbnos : List Nat} {t : Built} (h : Layout sb spec)
    (hmax : 0 < spec.leafMax sb.blockSize) (hnode : 2 ≤ spec.nodeMax sb.blockSize)
    (hrec : ∀ r ∈ recs, RecOk spec r) (haddr : ∀ a ∈ agbnos, a < 256 ^ 4)
    (hbuild : buildAg sb agno spec recs agbnos = .ok t) :
    agbnos.length = spec.blocks recs.length sb.blockSize ∧
      t.blocks.map (·.1) = agbnos ∧ ∀ b ∈ t.blocks, b.2.length = sb.blockSize := by
  obtain ⟨leaves, ls, hleaves, hls, hsizes⟩ :=
    @levelSizes_eq recs.length (spec.leafMax sb.blockSize) _ hnode
  unfold buildAg at hbuild
  rw [hsizes] at hbuild
  simp only [except_bind_eq_ok, List.headD_cons, List.tail_cons, List.sum_cons] at hbuild
  obtain ⟨_, hguard, hbuild⟩ := hbuild
  have hsum := not_not.mp (except_throwIf_eq_ok.mp hguard)
  obtain rfl := Except.ok.inj hbuild
  have henough : recs.length ≤ leaves * spec.leafMax sb.blockSize :=
    (divCeil_le_iff hmax).mp (by omega)
  refine ⟨?_, ?_, ?_⟩
  · unfold AgSpec.blocks blocksFor
    rw [hsizes, List.sum_cons, hsum]
  · exact @addrs_buildTree Nat Below Bytes Rec NULL_AGBLOCK (agLeaf sb agno spec)
      (agNode sb agno spec) Below.block leaves ls agbnos recs (fun _ _ _ _ => rfl)
      (fun _ _ _ _ _ => rfl) hsum.symm
  · exact @blocks_buildTree Nat Below Bytes Rec NULL_AGBLOCK (agLeaf sb agno spec)
      (agNode sb agno spec) Below.block leaves ls agbnos recs (EntryOk spec)
      (fun b => b.length = sb.blockSize) 1 (spec.nodeMax sb.blockSize) (spec.leafMax sb.blockSize)
      leaves (by omega) henough hls hsum.symm
      (fun l r a ha p hp hcap => ⟨entryOk_leaf (haddr a ha) fun x hx => hrec x (hp x hx),
        (agLeaf_block h (fun x hx => (hrec x (hp x hx)).1) hcap).1⟩)
      (fun lvl l r a ha p hp hcap => ⟨entryOk_node (haddr a ha) hp,
        (agNode_block h (fun e he => length_keySlot (hp e he)) hcap).1⟩)

end

end FioXfs.Alloc
