import FioXfs.DirWrite.Listed
set_option autoImplicit false

/-!
# The index of a layout

Whatever form holds a directory, its index has each name once, by its hash, with the place of its
entry in the data blocks; and beside the index stands the free room of each data block.
-/

namespace FioXfs.DirWrite

open FioXfs.Lib FioXfs.Dir

/-! ## Where the entries are -/

/-- The index of names over data blocks: in order, and for each name its hash and an eighth of the byte
of the data space that its entry begins at. -/
structure Indexes (dbs : Nat) (data : List Bytes) (all : List DirEnt) (index : List (Nat × Nat)) : Prop where
  sorted : index.Pairwise indexLe
  names : ∃ as : List Nat, List.Forall₂ (fun a e => ∃ d, data[8 * a / dbs]? = some d ∧
    EntryAt d (8 * a % dbs) e) as all ∧ index.Perm (List.zipWith (fun a e => (hashname e.name, a)) as all)

/-- The places of names laid out from byte `at_` of the data space on. -/
def addrsFrom : Nat → List DirEnt → List Nat
  | _, [] => []
  | at_, e :: es => (at_ >>> 3) % 2 ^ 32 :: addrsFrom (at_ + entsize e.name.length) es

/-- The places of the names of every data block, from the `db`th on. -/
def addrsOf (dbs : Nat) : Nat → List (List DirEnt) → List Nat
  | _, [] => []
  | db, es :: groups => addrsFrom (db * dbs + HDR) es ++ addrsOf dbs (db + 1) groups

section
variable {dbs db p at_ : Nat} {es : List DirEnt} {groups : List (List DirEnt)} {d : Bytes} {data : List Bytes}

theorem length_addrsFrom (at_ : Nat) (es : List DirEnt) : (addrsFrom at_ es).length = es.length := by
  induction es generalizing at_ with
  | nil => rfl
  | cons e es ih => rw [addrsFrom, List.length_cons, ih, List.length_cons]

theorem indexFrom_eq (at_ : Nat) (es : List DirEnt) :
    indexFrom at_ es = List.zipWith (fun a e => (hashname e.name, a)) (addrsFrom at_ es) es := by
  induction es generalizing at_ with
  | nil => rfl
  | cons e es ih => rw [indexFrom, addrsFrom, List.zipWith_cons_cons, ih]

theorem indexBlocks_eq (db : Nat) (groups : List (List DirEnt)) : indexBlocks dbs db groups =
    List.zipWith (fun a e => (hashname e.name, a)) (addrsOf dbs db groups) groups.flatten := by
  induction groups generalizing db with
  | nil => rfl
  | cons g groups ih =>
    rw [indexBlocks, addrsOf, List.flatten_cons, List.zipWith_append (length_addrsFrom _ g), ih,
      indexFrom_eq]

/-- A place below the index tells the block and the byte in it. -/
theorem eight_place (hmod : dbs % 8 = 0) (hp : p % 8 = 0) (hlt : p < dbs) (hend : (db + 1) * dbs ≤ 2 ^ 35) :
    8 * ((db * dbs + p) >>> 3 % 2 ^ 32) / dbs = db ∧ 8 * ((db * dbs + p) >>> 3 % 2 ^ 32) % dbs = p := by
  have hbase : db * dbs % 8 = 0 :=
    Nat.mod_eq_zero_of_dvd (Dvd.dvd.mul_left (Nat.dvd_of_mod_eq_zero hmod) db)
  rw [Nat.succ_mul] at hend
  have hplace : 8 * ((db * dbs + p) >>> 3 % 2 ^ 32) = p + dbs * db := by
    rw [Nat.shiftRight_eq_div_pow, Nat.mod_eq_of_lt (by omega), Nat.mul_comm dbs db]
    omega
  rw [hplace, Nat.add_mul_div_left _ _ (by omega), Nat.div_eq_of_lt hlt, Nat.zero_add,
    Nat.add_mul_mod_self_left, Nat.mod_eq_of_lt hlt]
  exact ⟨rfl, rfl⟩

/-- The entries of a block are at their places in the data space. -/
theorem entries_addrsFrom (hmod : dbs % 8 = 0) (hd : data[db]? = some d) (hp : p % 8 = 0)
    (hat : EntriesAt d p es) (hle : p + usedBytes es ≤ dbs) (hend : (db + 1) * dbs ≤ 2 ^ 35) :
    List.Forall₂ (fun a e => ∃ d, data[8 * a / dbs]? = some d ∧ EntryAt d (8 * a % dbs) e)
      (addrsFrom (db * dbs + p) es) es := by
  induction es generalizing p with
  | nil => exact .nil
  | cons e es ih =>
    obtain ⟨he, hrest⟩ := hat
    obtain ⟨hsize, hround⟩ := entsize_holds e.name.length
    rw [usedBytes_cons] at hle
    rw [addrsFrom]
    obtain ⟨hdiv, hrem⟩ := @eight_place dbs db p hmod hp (by omega) hend
    refine .cons ⟨d, by rw [hdiv]; exact hd, by rw [hrem]; exact he⟩ ?_
    rw [Nat.add_assoc]
    exact ih (by omega) hrest (by omega)

/-- The names of every data block are at their places. -/
theorem entries_addrsOf (hmod : dbs % 8 = 0) {pre : List Bytes}
    (hdata : List.Forall₂ (fun g d => EntriesAt d HDR g ∧ HDR + usedBytes g ≤ dbs) groups data)
    (hend : (pre.length + groups.length) * dbs ≤ 2 ^ 35) :
    List.Forall₂ (fun a e => ∃ d, (pre ++ data)[8 * a / dbs]? = some d ∧ EntryAt d (8 * a % dbs) e)
      (addrsOf dbs pre.length groups) groups.flatten := by
  induction hdata generalizing pre with
  | nil => exact .nil
  | @cons g d groups data hg hdata ih =>
    obtain ⟨hentries, hle⟩ := hg
    rw [addrsOf, List.flatten_cons]
    have hhere : (pre ++ d :: data)[pre.length]? = some d := by simp
    rw [List.length_cons] at hend
    have hone : (pre.length + 1) * dbs ≤ 2 ^ 35 := (Nat.mul_le_mul_right _ (by omega)).trans hend
    refine List.rel_append (entries_addrsFrom hmod hhere (by decide) hentries hle hone) ?_
    have hnext := @ih (pre ++ [d]) (by simpa [Nat.add_assoc, Nat.add_comm 1] using hend)
    simpa using hnext

end

/-! ## Where the index is -/

/-- Names packed in data blocks, and the length of the unused region at the end of each. -/
structure Packed (ino dbs : Nat) (all : List DirEnt) (data : List Bytes) (bests : List Nat) : Prop where
  groups : ∃ groups : List (List DirEnt), groups.flatten = all ∧
    bests = groups.map (fun g => dbs - (HDR + usedBytes g)) ∧
    List.Forall₂ (fun g d => DataReads ino dbs XDD3 dbs g d ∧ HDR + usedBytes g ≤ dbs) groups data

/-- The index at the end of a single block: its entries, and their number after them. -/
structure InTail (ino dbs : Nat) (all : List DirEnt) (index : List (Nat × Nat)) (b : DirBlock) : Prop where
  lblk : b.lblk = 0
  data : DataReads ino dbs XDB3 (dbs - 8 - index.length * 8) all b.data
  count : be32 b.data (dbs - 8) = index.length
  entries : IndexAt b.data (dbs - 8 - index.length * 8) index

/-- The index in the one leaf block, the room of the data blocks at its end. -/
structure InLeaf (dbs root : Nat) (index : List (Nat × Nat)) (bests : List Nat) (b : DirBlock) : Prop where
  lblk : b.lblk = root
  length_eq : b.data.length = dbs
  magic : be16 b.data 8 = LEAF1
  alone : be32 b.data 0 = 0 ∧ be32 b.data 4 = 0
  count : be16 b.data 56 = index.length
  entries : IndexAt b.data HDR index
  blocks : be32 b.data (dbs - 4) = bests.length
  room : ∀ k (hk : k < bests.length), be16 b.data (dbs - 4 - bests.length * 2 + k * 2) = bests[k]

/-- Data blocks that a free-index block tells the room of at most. -/
def perFree (dbs : Nat) : Nat := (dbs - HDR) / 2

/-- A free-index block: which data blocks it is of, and the room of each. -/
structure FreeIndex (dbs : Nat) (bests : List Nat) (i : Nat) (b : DirBlock) : Prop where
  length_eq : b.data.length = dbs
  magic : be32 b.data 0 = XDF3
  first : be32 b.data 48 = i * perFree dbs
  count : be32 b.data 52 = min (perFree dbs) (bests.length - i * perFree dbs)
  used : be32 b.data 56 = be32 b.data 52
  room : ∀ k (hk : k < bests.length), k / perFree dbs = i →
    be16 b.data (HDR + k % perFree dbs * 2) = bests[k]

/-- The index in a tree of blocks, the room of the data blocks in the free-index blocks after it. -/
def InTree (dbs per far : Nat) (index : List (Nat × Nat)) (bests : List Nat) (blocks : List DirBlock) : Prop :=
  ∃ tree free leaves his, blocks.Perm (tree ++ free) ∧
    IndexTree dbs index ((treeSlots far (treeSizes dbs index.length).sum).map (· * per)) (far * per) tree
      leaves his ∧
    free.map (·.lblk) = (List.range (divCeil bests.length (perFree dbs))).map (fun i => (2 * far + i) * per) ∧
    ∀ i b, free[i]? = some b → FreeIndex dbs bests i b

section
variable {sb : Superblock} {ino dbs per far root : Nat} {index : List (Nat × Nat)} {bests : List Nat}

theorem inLeaf_leafForm (hs : sb.Sound) (hdbs : DirBlockSize dbs)
    (hroom : HDR + index.length * 8 + bests.length * 2 + 4 ≤ dbs) (hindex : ∀ e ∈ index, EntryFits e)
    (hbests : ∀ b ∈ bests, b < 2 ^ 16) :
    InLeaf dbs root index bests (leafForm sb ino dbs root index bests) := by
  have hle := hdbs.le
  have hroom' := hroom
  unfold HDR at hroom'
  obtain ⟨hlen, hforw, hback, hmagic, hents, hword⟩ := @daBlock_reads sb ino dbs LEAF1 0 0
    [(56, toBe 2 index.length)] index hs (by omega) (by simp [HDR]) (by decide) hindex
  have hcount : be16 (daBlock sb ino dbs LEAF1 0 0 [(56, toBe 2 index.length)] index) 56 = index.length :=
    hword 0 _ _ rfl (by omega) (by simp [Clear])
  have hslots : ∀ d ∈ bests.map (toBe 2), d.length = 2 := fun d hd => by
    obtain ⟨b, -, rfl⟩ := List.mem_map.mp hd
    exact length_toBe 2 b
  change InLeaf dbs root index bests ⟨root, put32 (fillSlots 2 (daBlock sb ino dbs LEAF1 0 0
    [(56, toBe 2 index.length)] index) (dbs - 4 - bests.length * 2) (bests.map (toBe 2))) (dbs - 4)
    bests.length, 12, 16⟩
  generalize daBlock sb ino dbs LEAF1 0 0 [(56, toBe 2 index.length)] index = b at *
  have hfit : dbs - 4 - bests.length * 2 + 2 * (bests.map (toBe 2)).length ≤ b.length := by
    rw [List.length_map]
    omega
  have hlen1 := length_fillSlots _ hslots hfit
  have hrest1 := fun o n h => @slice_fillSlots_disjoint 2 (bests.map (toBe 2)) b _ o n hslots hfit (Or.inl h)
  have hslot := fun i hi => @slice_fillSlots 2 (bests.map (toBe 2)) b _ i hslots hfit hi
  generalize fillSlots 2 b (dbs - 4 - bests.length * 2) (bests.map (toBe 2)) = b1 at *
  have hrest : ∀ o n, o + n ≤ HDR + index.length * 8 →
      slice (put32 b1 (dbs - 4) bests.length) o n = slice b o n := fun o n h => by
    unfold HDR at h
    rw [put32, slice_putBe_disjoint (by omega) (Or.inl (by omega)), hrest1 o n (by omega)]
  have hnum : ∀ o w, o + w ≤ HDR → getBe w (put32 b1 (dbs - 4) bests.length) o = getBe w b o :=
    fun o w h => congrArg beNat (hrest o w (by omega))
  refine ⟨rfl, (length_putBe (by omega)).trans (hlen1.trans hlen), (hnum 8 2 (by decide)).trans hmagic,
    ⟨(hnum 0 4 (by decide)).trans (hforw (by norm_num)), (hnum 4 4 (by decide)).trans (hback (by norm_num))⟩,
    (hnum 56 2 (by decide)).trans hcount, hents.frame fun o n _ h => hrest o n h,
    getBe_putBe_same (by omega) (by omega), fun k hk => ?_⟩
  have hk' := hslot k (by rw [List.length_map]; exact hk)
  rw [List.getElem_map] at hk'
  rw [be16, put32, getBe_putBe_disjoint (by omega) (Or.inl (by omega)), getBe, hk',
    beNat_toBe (hbests _ (List.getElem_mem hk))]

theorem perFree_pos (hdbs : DirBlockSize dbs) : 0 < perFree dbs ∧ HDR + perFree dbs * 2 ≤ dbs := by
  have hge := hdbs.ge
  unfold perFree HDR
  omega

/-- What is written in the header of a free-index block. -/
def freeHeader (sb : Superblock) (ino first n : Nat) : List (Nat × Bytes) :=
  [(0, toBe 4 XDF3), (24, sb.metaUuid), (40, toBe 8 ino), (48, toBe 4 first), (52, toBe 4 n), (56, toBe 4 n)]

theorem freeBlock_data {lblk first : Nat} {chunk : List Nat} : (freeBlock sb ino dbs lblk first chunk).data =
    fillSlots 2 (patch (List.replicate dbs 0) (freeHeader sb ino first chunk.length)) HDR
      (chunk.map (toBe 2)) := rfl

theorem freeIndex_freeBlock (hs : sb.Sound) (hdbs : DirBlockSize dbs) (hbests : ∀ b ∈ bests, b < 2 ^ 16)
    {lblk i : Nat} (hi : i * perFree dbs < 2 ^ 32) :
    FreeIndex dbs bests i (freeBlock sb ino dbs lblk (i * perFree dbs)
      (slice bests (i * perFree dbs) (perFree dbs))) := by
  have hge := hdbs.ge
  have hle := hdbs.le
  have huuid := hs.metaUuid_len
  obtain ⟨hpos, hfull⟩ := perFree_pos hdbs
  have hchunk : (slice bests (i * perFree dbs) (perFree dbs)).length =
      min (perFree dbs) (bests.length - i * perFree dbs) := by
    rw [slice, List.length_take, List.length_drop]
  have hget : ∀ k (hk : k < bests.length), k / perFree dbs = i →
      (slice bests (i * perFree dbs) (perFree dbs))[k % perFree dbs]? = some bests[k] := fun k hk hki => by
    have hmod := Nat.mod_lt k hpos
    have hsum : i * perFree dbs + k % perFree dbs = k := by
      rw [← hki, Nat.mul_comm]
      exact Nat.div_add_mod k _
    rw [getElem?_slice, if_pos hmod, hsum]
    exact List.getElem?_eq_getElem hk
  generalize slice bests (i * perFree dbs) (perFree dbs) = chunk at *
  have hfew : chunk.length ≤ perFree dbs := hchunk.trans_le (Nat.min_le_left _ _)
  have hfits : Fits (List.replicate dbs (0 : UInt8)).length
      (freeHeader sb ino (i * perFree dbs) chunk.length) := by
    intro f hf
    rw [List.length_replicate]
    simp only [freeHeader, List.mem_cons, List.not_mem_nil, or_false] at hf
    rcases hf with rfl | rfl | rfl | rfl | rfl | rfl <;> simp only [length_toBe] <;> omega
  have hplen := length_patch hfits
  rw [List.length_replicate] at hplen
  have hslots : ∀ d ∈ chunk.map (toBe 2), d.length = 2 := fun d hd => by
    obtain ⟨b, -, rfl⟩ := List.mem_map.mp hd
    exact length_toBe 2 b
  have hfit : HDR + 2 * (chunk.map (toBe 2)).length ≤
      (patch (List.replicate dbs 0) (freeHeader sb ino (i * perFree dbs) chunk.length)).length := by
    rw [List.length_map]
    omega
  have hword : ∀ {j o v : Nat}, (freeHeader sb ino (i * perFree dbs) chunk.length)[j]? = some (o, toBe 4 v) →
      v < 256 ^ 4 → o + 4 ≤ HDR → Clear o 4 ((freeHeader sb ino (i * perFree dbs) chunk.length).drop (j + 1)) →
      be32 (fillSlots 2 (patch (List.replicate dbs 0) (freeHeader sb ino (i * perFree dbs) chunk.length)) HDR
        (chunk.map (toBe 2))) o = v := fun hj hv ho hc =>
    (congrArg beNat (slice_fillSlots_disjoint _ hslots hfit (Or.inl ho))).trans
      (getBe_patch_get hj hfits hv hc)
  have hcount : chunk.length < 256 ^ 4 := by norm_num; omega
  have h52 := @hword 4 52 chunk.length rfl hcount (by decide) (by simp [Clear, freeHeader])
  have h56 := @hword 5 56 chunk.length rfl hcount (by decide) (by simp [Clear, freeHeader])
  refine ⟨?_, @hword 0 0 XDF3 rfl (by decide) (by decide) ?_, @hword 3 48 _ rfl (by omega) (by decide) ?_,
    ?_, h56.trans h52.symm, fun k hk hki => ?_⟩
  · rw [freeBlock_data, length_fillSlots _ hslots hfit, hplen]
  · simp [Clear, freeHeader]
  · simp [Clear, freeHeader]
  · exact h52.trans hchunk
  · obtain ⟨hlt, heq⟩ := List.getElem?_eq_some_iff.mp (hget k hk hki)
    have hslot := slice_fillSlots (chunk.map (toBe 2)) hslots hfit (by rw [List.length_map]; exact hlt)
    rw [List.getElem_map, heq] at hslot
    rw [freeBlock_data, be16, getBe, hslot, beNat_toBe (hbests _ (List.getElem_mem hk))]

/-! ## The whole layout -/

theorem forall₂_dataBlocks {groups : List (List DirEnt)} (hs : sb.Sound) (hino : ino < 2 ^ 64)
    (hdbs : DirBlockSize dbs) (hes : ∀ e ∈ groups.flatten, e.Fits)
    (hfits : ∀ g ∈ groups, HDR + usedBytes g ≤ dbs) :
    List.Forall₂ (fun g d => DataReads ino dbs XDD3 dbs g d ∧ HDR + usedBytes g ≤ dbs) groups
      ((dataBlocks sb ino dbs per groups).map (·.data)) := by
  unfold dataBlocks
  generalize 0 = db
  induction groups generalizing db with
  | nil => exact .nil
  | cons g groups ih =>
    rw [List.flatten_cons] at hes
    rw [List.zipIdx_cons, List.map_cons, List.map_cons]
    exact .cons ⟨dataReads_dataBlock hs hino hdbs (fun e he => hes e (List.mem_append_left _ he))
      (hfits g List.mem_cons_self), hfits g List.mem_cons_self⟩
      (ih (fun e he => hes e (List.mem_append_right _ he))
        (fun x hx => hfits x (List.mem_cons_of_mem _ hx)) (db + 1))

/-- The index of a directory in blocks, in one of its three forms. -/
def IndexLaid (sb : Superblock) (ino parent : Nat) (names : List DirEnt) (blocks : List DirBlock) : Prop :=
  ∃ dbs far index, DirGeometry sb dbs (2 ^ sb.dirblkLog) far ∧
    Indexes dbs ((listedBlocks sb blocks).map (·.data)) (withDots ino parent names) index ∧
    ((∃ b, blocks = [b] ∧ InTail ino dbs (withDots ino parent names) index b) ∨
      ∃ bests, Packed ino dbs (withDots ino parent names) ((listedBlocks sb blocks).map (·.data)) bests ∧
        ((∃ b, unlistedBlocks sb blocks = [b] ∧ InLeaf dbs (far * 2 ^ sb.dirblkLog) index bests b) ∨
          InTree dbs (2 ^ sb.dirblkLog) far index bests (unlistedBlocks sb blocks)))

/-- What lies beyond the data blocks is the index, in one of its two forms. -/
theorem index_indexPart {groups : List (List DirEnt)} {rest : List DirBlock} (hs : sb.Sound)
    (hgeo : DirGeometry sb dbs per far) (hne : groups.flatten ≠ [])
    (hfits : ∀ g ∈ groups, HDR + usedBytes g ≤ dbs) (hfar : groups.length ≤ far)
    (hperm : rest.Perm (indexPart sb ino dbs per far groups)) :
    (∃ b, rest = [b] ∧
        InLeaf dbs (far * per) (sortedIndex dbs groups) (groups.map (bestFree dbs)) b) ∨
      InTree dbs per far (sortedIndex dbs groups) (groups.map (bestFree dbs)) rest := by
  have hge := hgeo.size.ge
  have hle := hgeo.size.le
  have hbests : ∀ b ∈ groups.map (bestFree dbs), b < 2 ^ 16 := fun b hb => by
    obtain ⟨g, -, rfl⟩ := List.mem_map.mp hb
    unfold bestFree HDR
    omega
  unfold indexPart at hperm
  split at hperm
  · rename_i hfew
    refine Or.inl ⟨_, List.perm_singleton.mp hperm, inLeaf_leafForm hs hgeo.size ?_
      (fun e he => entryFits_sortedIndex he) hbests⟩
    rw [List.length_map]
    exact hfew
  · obtain ⟨-, leaves, his, htree⟩ := @indexTree_packed sb ino dbs per far groups hs hgeo hne hfits hfar
    rw [← @length_sortedIndex dbs groups] at htree
    refine Or.inr ⟨_, _, leaves, his, hperm, htree, ?_, fun i b hb => ?_⟩
    · unfold freeBlocks
      simp only [List.map_map]
      refine List.map_congr_left fun i _ => ?_
      exact (Nat.add_mul (2 * far) i per).symm
    · obtain ⟨hpos, -⟩ := perFree_pos hgeo.size
      unfold freeBlocks at hb
      simp only [List.getElem?_map, Option.map_eq_some_iff] at hb
      obtain ⟨j, hj, rfl⟩ := hb
      obtain ⟨hlt, heq⟩ := List.getElem?_eq_some_iff.mp hj
      rw [List.getElem_range] at heq
      subst heq
      rw [List.length_range, List.length_map] at hlt
      refine freeIndex_freeBlock hs hgeo.size hbests ?_
      have hin : i * perFree dbs < groups.length :=
        not_le.mp fun hle => absurd ((divCeil_le_iff hpos).mpr hle) (not_le.mpr hlt)
      have hbelow := hgeo.below
      have hmany : far * 512 ≤ far * dbs := Nat.mul_le_mul_left _ hge
      unfold LEAF_OFFSET at hbelow
      omega

/-- The places of packed names. -/
theorem indexes_sortedIndex {groups : List (List DirEnt)} (hs : sb.Sound)
    (hgeo : DirGeometry sb dbs per far) (hino : ino < 2 ^ 64) (hes : ∀ e ∈ groups.flatten, e.Fits)
    (hfits : ∀ g ∈ groups, HDR + usedBytes g ≤ dbs) (hfar : groups.length ≤ far) :
    Indexes dbs ((dataBlocks sb ino dbs per groups).map (·.data)) groups.flatten
      (sortedIndex dbs groups) := by
  have hdata := @forall₂_dataBlocks sb ino dbs per groups hs hino hgeo.size hes hfits
  have hend : groups.length * dbs ≤ 2 ^ 35 := (Nat.mul_le_mul_right _ hfar).trans hgeo.below.le
  have hentries := @entries_addrsOf dbs groups _ hgeo.size.mod []
    (hdata.imp fun g d h => ⟨h.1.entries, h.2⟩) (by simpa using hend)
  refine ⟨sorted_insertionSort _, _, hentries, ?_⟩
  have hindex := @indexBlocks_eq dbs 0 groups
  exact hindex ▸ List.perm_insertionSort indexLe (indexBlocks dbs 0 groups)

/-- The places of names in a single block. -/
theorem indexes_blockForm {all : List DirEnt} (hs : sb.Sound) (hino : ino < 2 ^ 64)
    (hdbs : DirBlockSize dbs) (hall : ∀ e ∈ all, e.Fits)
    (hle : HDR + usedBytes all + all.length * 8 + 8 ≤ dbs) :
    Indexes dbs [(blockForm sb ino dbs all).data] all ((indexFrom HDR all).insertionSort indexLe) ∧
      InTail ino dbs all ((indexFrom HDR all).insertionSort indexLe) (blockForm sb ino dbs all) := by
  have hlen := hdbs.le
  obtain ⟨hreads, htail, hindex⟩ := @dataReads_blockForm sb all ino dbs hs hino hdbs hall hle
  have hcount : ((indexFrom HDR all).insertionSort indexLe).length = all.length := by
    rw [List.length_insertionSort, length_indexFrom]
  have hplaces := @entries_addrsFrom dbs 0 HDR all _ [(blockForm sb ino dbs all).data] hdbs.mod rfl
    (by decide) hreads.entries (by omega) (by omega)
  rw [Nat.zero_mul, Nat.zero_add] at hplaces
  refine ⟨⟨sorted_insertionSort _, _, hplaces, ?_⟩, rfl, ?_, ?_, ?_⟩
  · exact indexFrom_eq HDR all ▸ List.perm_insertionSort indexLe (indexFrom HDR all)
  · rw [hcount]
    exact hreads
  · rw [hcount]
    exact htail
  · rw [hcount]
    exact hindex fun e he => entryFits_indexFrom he

end

section
variable {sb : Superblock} {ino parent forkSize size : Nat} {names : List DirEnt} {blocks : List DirBlock}

/-- Whatever the names, a directory that was laid out in blocks has an index of them. -/
theorem laid_out_indexed {sector : Bytes} (hsb : Superblock.parse sector = .ok sb) (hino : ino < 2 ^ 56)
    (hparent : parent < 2 ^ 56) (hnames : ∀ e ∈ names, e.Fits)
    (h : layout sb ino parent names forkSize = .ok (.blocks size blocks)) (hsize : size ≤ LEAF_OFFSET) :
    IndexLaid sb ino parent names blocks := by
  have hs := Superblock.sound_of_parse hsb
  have hino64 : ino < 2 ^ 64 := hino.trans (by norm_num)
  have hall := fits_withDots hino hparent hnames
  obtain ⟨dbs, far, -, hgeo, ⟨hone, hsz, rfl, hlisted⟩ | ⟨groups, hin⟩⟩ := layout_blocks hsb h hsize
  · obtain ⟨hindexes, htail⟩ := indexes_blockForm hs hino64 hgeo.size hall hone
    refine ⟨dbs, far, _, hgeo, ?_, Or.inl ⟨_, rfl, htail⟩⟩
    rw [hlisted]
    exact hindexes
  · have hes : ∀ e ∈ groups.flatten, e.Fits := fun e he => hall e (hin.flatten ▸ he)
    have hne : groups.flatten ≠ [] := by
      rw [hin.flatten]
      exact List.cons_ne_nil _ _
    refine ⟨dbs, far, sortedIndex dbs groups, hgeo, ?_, Or.inr ⟨groups.map (bestFree dbs), ?_,
      index_indexPart hs hgeo hne hin.fits hin.few hin.unlisted⟩⟩
    · rw [hin.listed, ← hin.flatten]
      exact indexes_sortedIndex hs hgeo hino64 hes hin.fits hin.few
    · rw [hin.listed]
      exact ⟨groups, hin.flatten, rfl, forall₂_dataBlocks hs hino64 hgeo.size hes hin.fits⟩

end

set_option maxRecDepth 100000 in
/-- A hundred names in a filesystem of 512-byte blocks take a tree. -/
theorem laid_out_indexed_hundred : ∃ size blocks,
    layout (freshSb 16 true) 128 128 (letters 100) 80 = .ok (.blocks size blocks) ∧
    IndexLaid (freshSb 16 true) 128 128 (letters 100) blocks := by
  obtain ⟨size, blocks, h, hsize⟩ : ∃ size blocks,
      layout (freshSb 16 true) 128 128 (letters 100) 80 = .ok (.blocks size blocks) ∧ size ≤ LEAF_OFFSET := by
    have hok : (match layout (freshSb 16 true) 128 128 (letters 100) 80 with
      | .ok (.blocks size _) => decide (size ≤ LEAF_OFFSET)
      | _ => false) = true := by decide +kernel
    split at hok
    · rename_i size blocks h
      exact ⟨size, blocks, h, of_decide_eq_true hok⟩
    · cases hok
  refine ⟨size, blocks, h, laid_out_indexed parse_fresh (by norm_num) (by norm_num) (fun e he => ?_) h hsize⟩
  obtain ⟨i, hi, rfl⟩ := List.mem_map.mp he
  have := List.mem_range.mp hi
  exact ⟨by norm_num, by norm_num, by simp only; omega, by norm_num⟩

end FioXfs.DirWrite
