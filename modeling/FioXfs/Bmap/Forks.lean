import FioXfs.Bmap.ReadBack
set_option autoImplicit false

/-!
# Forks, laid out and read

What the writer puts in an inode for a fork, and in the blocks of its B+tree, is read as the
extents it was made of; and what is read stays so as long as the B+tree's blocks do.
-/

namespace FioXfs.Bmap

open FioXfs.Lib FioXfs.Btree

section
variable {sb : Superblock} {dev dev' : Device} {ino level left right addr forkSize : Nat}
  {i : Inode} {attr : Bool} {es extents : List Extent} {bs fsbs : List Nat}

/-! ## What a fork's map depends on -/

/-- A fork is mapped the same where the blocks of its B+tree are the same. -/
theorem forkMap_congr (h : forkMap dev sb i attr = .ok (es, bs))
    (hsame : ∀ b ∈ bs, readBlocks dev' sb b 1 = readBlocks dev sb b 1) :
    forkMap dev' sb i attr = .ok (es, bs) := by
  unfold forkMap at h ⊢
  split at h
  · exact h
  · exact h
  · rename_i fork _ _
    obtain ⟨⟨out, blocks⟩, hwalk, h⟩ := except_bind_eq_ok.mp h
    simp only at h
    obtain ⟨_, hcount, h⟩ := except_bind_eq_ok.mp h
    obtain ⟨sorted, hfinish, h⟩ := except_bind_eq_ok.mp h
    obtain ⟨rfl, rfl⟩ := Prod.mk.inj (Except.ok.inj h)
    have hwalk' : walkBmap dev' sb i fork = .ok (out, blocks) := by
      unfold walkBmap at hwalk ⊢
      obtain ⟨root, hroot, hwalk⟩ := except_bind_eq_ok.mp hwalk
      rw [hroot, except_ok_bind]
      refine walkStack_congr hwalk fun b hb l => ?_
      unfold readBmapBlock
      rw [hsame b hb]
    rw [hwalk', except_ok_bind]
    simp only
    rw [hcount, except_ok_bind, hfinish, except_ok_bind]
    rfl
  · exact h

/-! ## Extents under a B+tree -/

theorem length_bmapLeaf {part : List (Bytes × Nat)} (h : sb.Sound)
    (hrec : ∀ r ∈ part, r.1.length = 16) (hmax : part.length ≤ bmapBlockMax sb.blockSize) :
    (bmapLeaf sb ino left right addr part).2.length = sb.blockSize := by
  have hbs := h.blockSize_ge
  have hcap := bmapBlockMax_mul_le sb.blockSize
  have hw : ∀ d ∈ part.map (·.1), d.length = 16 := List.forall_mem_map.mpr hrec
  have hhead := @length_bmapHeader sb ino 0 part.length left right (placeOf sb addr) h
  have hin : LONG_HDR + 16 * (part.map (·.1)).length ≤
      (bmapHeader sb ino 0 part.length left right (placeOf sb addr)).length := by
    rw [hhead, List.length_map]
    unfold LONG_HDR at hcap ⊢
    omega
  have hlen := length_fillSlots _ hw hin
  unfold bmapLeaf
  rw [Crc.length_stamp (by rw [hlen, hhead]; omega), hlen, hhead]

theorem length_bmapNode {part : List (Nat × Nat)} (h : sb.Sound)
    (hmax : part.length ≤ bmapBlockMax sb.blockSize) :
    (bmapNode sb ino level left right addr part).2.length = sb.blockSize := by
  have hbs := h.blockSize_ge
  have hcap := bmapBlockMax_mul_le sb.blockSize
  have hw : ∀ d ∈ part.map fun e => toBe 8 e.1, d.length = 8 :=
    List.forall_mem_map.mpr fun e _ => length_toBe _ _
  have hw' : ∀ d ∈ part.map fun e => toBe 8 e.2, d.length = 8 :=
    List.forall_mem_map.mpr fun e _ => length_toBe _ _
  have hhead := @length_bmapHeader sb ino level part.length left right (placeOf sb addr) h
  have hin : LONG_HDR + 8 * (part.map fun e => toBe 8 e.1).length ≤
      (bmapHeader sb ino level part.length left right (placeOf sb addr)).length := by
    rw [hhead, List.length_map]
    unfold LONG_HDR at hcap ⊢
    omega
  have hlen := length_fillSlots _ hw hin
  have hin' : LONG_HDR + bmapBlockMax sb.blockSize * 8 +
      8 * (part.map fun e => toBe 8 e.2).length ≤
      (fillSlots 8 (bmapHeader sb ino level part.length left right (placeOf sb addr)) LONG_HDR
        (part.map fun e => toBe 8 e.1)).length := by
    rw [hlen, hhead, List.length_map]
    unfold LONG_HDR at hcap ⊢
    omega
  have hlen' := length_fillSlots _ hw' hin'
  unfold bmapNode
  rw [Crc.length_stamp (by rw [hlen', hlen, hhead]; omega), hlen', hlen, hhead]

/-- The blocks that are built are at the given places, each a whole one. -/
theorem blocks_of_buildBmap {rootMax : Nat} {built : Built} (h : sb.Sound) (hroot : 1 ≤ rootMax)
    (hne : extents ≠ [])
    (hfsbs : bmapBlocks extents.length sb.blockSize rootMax = some fsbs.length)
    (hvalid : ∀ a ∈ fsbs, ∃ at_, sb.fsbToByte a = .ok at_)
    (hbuilt : buildBmap sb ino (extents.map fun e => (e.encode, e.offset)) fsbs rootMax = .ok built) :
    built.blocks.map (·.1) = fsbs ∧ ∀ b ∈ built.blocks, b.2.length = sb.blockSize := by
  have hcap := bmapBlockMax_ge h
  obtain ⟨leaves, ls, hleaves, hls, hsizes⟩ :=
    @bmapLevelSizes_eq extents.length sb.blockSize rootMax (by omega) hroot
  have hsum : fsbs.length = leaves + ls.sum := by
    simpa [bmapBlocks, hsizes, eq_comm] using hfsbs
  have hpos : 0 < leaves := by omega
  have henough : (extents.map fun e => (e.encode, e.offset)).length ≤
      leaves * bmapBlockMax sb.blockSize := by
    rw [List.length_map]
    exact (divCeil_le_iff (by omega)).mp (by omega)
  rw [buildBmap_eq (by simpa using hne) (by rw [List.length_map]; exact hsizes) hpos hsum hvalid] at hbuilt
  obtain rfl := Except.ok.inj hbuilt
  refine ⟨@addrs_buildTree Nat (Nat × Nat) Bytes (Bytes × Nat) NULL_FSBLOCK (bmapLeaf sb ino)
    (bmapNode sb ino) Prod.snd leaves ls fsbs (extents.map fun e => (e.encode, e.offset))
    (fun _ _ _ _ => rfl) (fun _ _ _ _ _ => rfl) hsum, ?_⟩
  refine @blocks_buildTree Nat (Nat × Nat) Bytes (Bytes × Nat) NULL_FSBLOCK (bmapLeaf sb ino)
    (bmapNode sb ino) Prod.snd leaves ls fsbs (extents.map fun e => (e.encode, e.offset))
    (fun _ => True) (fun buf => buf.length = sb.blockSize) rootMax (bmapBlockMax sb.blockSize)
    (bmapBlockMax sb.blockSize) leaves (by omega) henough hls hsum (fun l r a _ p hp hmax => ?_)
    fun lvl l r a _ p _ hmax => ?_
  · refine ⟨trivial, length_bmapLeaf h (fun x hx => ?_) hmax⟩
    obtain ⟨e, -, rfl⟩ := List.mem_map.mp (hp x hx)
    exact e.length_encode
  · exact ⟨trivial, length_bmapNode h hmax⟩

/-- A fork is laid out with whole blocks at the given places. -/
theorem blocks_of_layFork {forkSize : Nat} {format : Format} {fork : Bytes} {blocks : List (Nat × Bytes)}
    (h : sb.Sound) (hbig : ¬extents.length ≤ forkSize / 16)
    (hfsbs : bmapBlocks extents.length sb.blockSize (bmapRootMax forkSize) = some fsbs.length)
    (hvalid : ∀ a ∈ fsbs, ∃ at_, sb.fsbToByte a = .ok at_)
    (hlay : layFork sb ino extents forkSize fsbs = .ok (format, fork, blocks)) :
    blocks.map (·.1) = fsbs ∧ ∀ b ∈ blocks, b.2.length = sb.blockSize := by
  have hcap := bmapBlockMax_ge h
  -- there are blocks at all only where an entry has room in the root
  have hroot : 1 ≤ bmapRootMax forkSize := by
    obtain ⟨sizes, hsizes, -⟩ := Option.map_eq_some_iff.mp hfsbs
    have hsome : (levelsAbove (bmapRootMax forkSize) (bmapBlockMax sb.blockSize)
        (max (divCeil extents.length (bmapBlockMax sb.blockSize)) 1)
        (max (divCeil extents.length (bmapBlockMax sb.blockSize)) 1)).isSome := by
      rw [← Option.isSome_map]
      exact Option.isSome_iff_exists.mpr ⟨sizes, hsizes⟩
    exact (levelsEnd_iff (by omega) (Nat.le_max_right _ _)).mp
      ((levelsAbove_isSome_iff (by omega) (Nat.le_max_right _ _)).mp hsome)
  unfold layFork at hlay
  rw [if_neg hbig] at hlay
  obtain ⟨built, hbuilt, hlay⟩ := except_bind_eq_ok.mp hlay
  obtain ⟨-, rfl⟩ := Prod.mk.inj (Prod.mk.inj (Except.ok.inj hlay)).2
  refine blocks_of_buildBmap h hroot ?_ hfsbs hvalid hbuilt
  rintro rfl
  exact hbig (Nat.zero_le _)

/-- A fork with its extents under a B+tree: what is laid out for it, and that it is read back once
the B+tree's blocks are on a device. -/
structure TreeLaid (sb : Superblock) (ino forkSize : Nat) (extents : List Extent) (fsbs : List Nat)
    (format : Format) (fork : Bytes) (blocks : List (Nat × Bytes)) : Prop where
  format_eq : format = .btree
  length_eq : fork.length = forkSize
  placed : blocks.map (·.1) = fsbs
  whole : ∀ b ∈ blocks, b.2.length = sb.blockSize
  reads : ∀ (dev : Device) (i : Inode), (∀ b ∈ blocks, BlockAt dev sb b.1 b.2) → i.ino = ino →
    i.format = .btree → i.dataFork = fork → i.nextents = extents.length → fsbs.length ≤ i.nblocks →
    i.nblocks + 1 < 2 ^ 64 → ∃ bs, forkMap dev sb i false = .ok (extents, bs) ∧ bs.Perm fsbs

theorem treeLaid_of_layFork {format : Format} {fork : Bytes} {blocks : List (Nat × Bytes)}
    (h : sb.Sound) (hv5 : sb.isV5 = true) (hino : ino < 2 ^ 64) (hsize : 20 ≤ forkSize)
    (hsize' : bmapRootMax forkSize < 2 ^ 16) (hpack : ∀ e ∈ extents, e.Packable)
    (hsorted : extents.Pairwise fun a b => a.stop ≤ b.offset)
    (hbig : ¬extents.length ≤ forkSize / 16)
    (hfsbs : bmapBlocks extents.length sb.blockSize (bmapRootMax forkSize) = some fsbs.length)
    (hnodup : fsbs.Nodup) (hvalid : ∀ a ∈ fsbs, a < 2 ^ 64 ∧ ∃ at_, sb.fsbToByte a = .ok at_)
    (hlay : layFork sb ino extents forkSize fsbs = .ok (format, fork, blocks)) :
    TreeLaid sb ino forkSize extents fsbs format fork blocks := by
  have hne : extents ≠ [] := by
    rintro rfl
    exact hbig (Nat.zero_le _)
  have hroot : 1 ≤ bmapRootMax forkSize := by
    unfold bmapRootMax
    omega
  obtain ⟨built, hbuilt, hpos, hle, htop, hlv2, hlv, hblocks, hwalk⟩ :=
    @walkBmap_buildBmap sb ino _ extents fsbs h hv5 (by simpa using hino) hpack hsorted hne hroot hfsbs
      fun a ha => by simpa using hvalid a ha
  have hlens := (blocks_of_buildBmap h hroot hne hfsbs (fun a ha => (hvalid a ha).2) hbuilt).2
  have hrootread := @btreeRoot_bmapRootFork forkSize (built.levels - 1) built.rootEntries hsize
    (by omega) (by omega) hpos hle (by omega) fun e he => by simpa using (hvalid _ (htop e he)).1
  unfold layFork at hlay
  rw [if_neg hbig] at hlay
  simp only [hbuilt, except_ok_bind] at hlay
  obtain ⟨rfl, rfl, rfl⟩ : format = .btree ∧
      fork = bmapRootFork forkSize (built.levels - 1) built.rootEntries ∧ blocks = built.blocks := by
    have heq := Except.ok.inj hlay
    exact ⟨(Prod.mk.inj heq).1.symm, (Prod.mk.inj (Prod.mk.inj heq).2).1.symm,
      (Prod.mk.inj (Prod.mk.inj heq).2).2.symm⟩
  refine ⟨rfl, (bmapRootFork_fields hsize hle).1, hblocks, hlens,
    fun dev i hon hi hformat hfork hnext hnb hnb' => ?_⟩
  obtain ⟨bs, hcol, hperm⟩ := hwalk dev hon
  refine ⟨bs, ?_, hperm⟩
  have hw : walkBmap dev sb i (bmapRootFork forkSize (built.levels - 1) built.rootEntries) =
      .ok (extents, bs) := by
    have hcount : bs.length ≤ i.nblocks := hperm.length_eq.trans_le hnb
    unfold walkBmap
    rw [hrootread, except_ok_bind, hi]
    refine (@walkStack_eq_ok _ _ _ _ _ _ _ _ [] _ [] _ hcol (by omega)
      fun pre a post he => ?_).trans ?_
    · exact checkSeen_ok (hperm.nodup_iff.mpr hnodup) hcount hnb' he
    · rw [List.nil_append, List.nil_append]
  simp only [forkMap, forkOf, Bool.false_eq_true, if_false, hformat, hfork]
  rw [hw, except_ok_bind]
  simp only
  rw [except_throwIf_bind_of_not (fun hc => hc.2 hnext.symm),
    finish_of_sorted (fun e he => (hpack e he).count_pos) hsorted]
  rfl

end

end FioXfs.Bmap
