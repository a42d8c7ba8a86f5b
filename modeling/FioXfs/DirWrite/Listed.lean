import FioXfs.DirWrite.Index
set_option autoImplicit false

/-!
# A layout as a whole

Where the blocks of a directory lie, in whatever form: its data blocks from the start, its index
and the free-index blocks far beyond them, and no two in one place.  What listing reads of them are
the names as they were given.
-/

namespace FioXfs.DirWrite

open FioXfs.Lib FioXfs.Dir

/-! ## Packing -/

section
variable {dbs : Nat} {all : List DirEnt} {groups : List (List DirEnt)}

theorem fitting_spec {es : List DirEnt} {p : Nat} (hp : p ≤ dbs) :
    (fitting dbs p es).1 ++ (fitting dbs p es).2 = es ∧ p + usedBytes (fitting dbs p es).1 ≤ dbs := by
  induction es generalizing p with
  | nil => exact ⟨rfl, hp⟩
  | cons e es ih =>
    rw [fitting]
    by_cases hfull : dbs < p + entsize e.name.length
    · rw [if_pos hfull]
      exact ⟨rfl, hp⟩
    · rw [if_neg hfull]
      obtain ⟨hall, hle⟩ := ih (not_lt.mp hfull)
      refine ⟨congrArg (e :: ·) hall, ?_⟩
      rw [usedBytes_cons]
      omega

/-- Packing puts every entry in a block, in order, and no block is too full. -/
theorem pack_eq_ok (hdbs : HDR ≤ dbs) (h : pack dbs all = .ok groups) :
    groups.flatten = all ∧ ∀ g ∈ groups, HDR + usedBytes g ≤ dbs := by
  unfold pack at h
  generalize all.length + 1 = fuel at h
  induction fuel generalizing all groups with
  | zero =>
    cases all with
    | nil =>
      cases h
      exact ⟨rfl, fun g hg => absurd hg List.not_mem_nil⟩
    | cons e es => cases h
  | succ fuel ih =>
    cases all with
    | nil =>
      cases h
      exact ⟨rfl, fun g hg => absurd hg List.not_mem_nil⟩
    | cons e es =>
      rw [packLoop] at h
      obtain ⟨rest, hrest, h⟩ := except_bind_eq_ok.mp h
      cases h
      obtain ⟨hsplit, hle⟩ := @fitting_spec dbs (e :: es) HDR hdbs
      obtain ⟨hflat, hfits⟩ := ih hrest
      refine ⟨?_, fun g hg => ?_⟩
      · rw [List.flatten_cons, hflat, hsplit]
      · rcases List.mem_cons.mp hg with rfl | hg
        · exact hle
        · exact hfits g hg

/-- The blocks take all that the entries take. -/
theorem usedBytes_flatten (hfits : ∀ g ∈ groups, HDR + usedBytes g ≤ dbs) :
    usedBytes groups.flatten + HDR * groups.length ≤ groups.length * dbs := by
  induction groups with
  | nil => simp [usedBytes]
  | cons g groups ih =>
    have hg := hfits g List.mem_cons_self
    have hrest := ih fun x hx => hfits x (List.mem_cons_of_mem _ hx)
    have hadd : usedBytes (g ++ groups.flatten) = usedBytes g + usedBytes groups.flatten := by
      simp [usedBytes]
    rw [List.flatten_cons, hadd, List.length_cons, Nat.succ_mul, Nat.mul_succ]
    omega

theorem length_le_usedBytes (es : List DirEnt) : 16 * es.length ≤ usedBytes es := by
  induction es with
  | nil => simp [usedBytes]
  | cons e es ih =>
    have := entsize_ge e.name.length
    rw [usedBytes_cons, List.length_cons]
    omega

end

/-! ## Where blocks lie -/

/-- Directory blocks of `dbs` bytes are `per` blocks of the filesystem, and `far` of them lie below the
index. -/
structure DirGeometry (sb : Superblock) (dbs per far : Nat) : Prop where
  size : DirBlockSize dbs
  length_eq : dbs = per * sb.blockSize
  per_pos : 0 < per
  below : far * dbs = LEAF_OFFSET
  leafFirst : LEAF_OFFSET >>> sb.blockLog = far * per
  freeFirst : FREE_OFFSET >>> sb.blockLog = 2 * far * per

/-- A list in order, before a list none of which comes before it. -/
theorem insertionSort_append {α : Type} {r : α → α → Prop} [DecidableRel r] {xs ys : List α}
    (hxs : xs.Pairwise r) (h : ∀ x ∈ xs, ∀ y ∈ ys, r x y) :
    (xs ++ ys).insertionSort r = xs ++ ys.insertionSort r := by
  induction xs with
  | nil => rfl
  | cons x xs ih =>
    obtain ⟨hx, hxs⟩ := List.pairwise_cons.mp hxs
    have hrest := ih hxs fun z hz => h z (List.mem_cons_of_mem _ hz)
    rw [List.cons_append, List.insertionSort_cons_of_forall_rel, hrest, List.cons_append]
    intro y hy
    rcases List.mem_append.mp hy with hy | hy
    · exact hx y hy
    · exact h x List.mem_cons_self y hy

/-- One block ends before the other begins. -/
def Before (per : Nat) (a b : DirBlock) : Prop := a.lblk + per ≤ b.lblk

section
variable {sb : Superblock} {dbs per far : Nat} {blocks data rest : List DirBlock} {slots : List Nat}

theorem dirGeometry_of_parse {sector : Bytes} (hsb : Superblock.parse sector = .ok sb)
    (hdbs : sb.dirBlockSize = .ok dbs) : ∃ far, DirGeometry sb dbs (2 ^ sb.dirblkLog) far := by
  have hs := Superblock.sound_of_parse hsb
  obtain ⟨hlen, hge, hle⟩ := Superblock.dirBlockSize_of_parse hsb hdbs
  have hlog := hs.blockLog_ge
  have hpow : dbs = 2 ^ (sb.blockLog + sb.dirblkLog) := by rw [hlen, hs.blockSize_eq, pow_add]
  have hsum : sb.blockLog + sb.dirblkLog ≤ 16 := by
    by_contra hgt
    have : 2 ^ 17 ≤ 2 ^ (sb.blockLog + sb.dirblkLog) := Nat.pow_le_pow_right (by norm_num) (by omega)
    omega
  obtain ⟨k, hk⟩ : ∃ k, 35 = k + (sb.blockLog + sb.dirblkLog) := ⟨_, (Nat.sub_add_cancel (by omega)).symm⟩
  have hbelow : 2 ^ k * dbs = 2 ^ 35 := by rw [hpow, ← pow_add, ← hk]
  have hfirst : 2 ^ 35 / 2 ^ sb.blockLog = 2 ^ k * 2 ^ sb.dirblkLog := by
    refine Nat.div_eq_of_eq_mul_left (Nat.two_pow_pos _) ?_
    rw [← hbelow, hlen, hs.blockSize_eq, Nat.mul_comm (2 ^ sb.blockLog), Nat.mul_assoc]
  refine ⟨2 ^ k, ⟨hge, hle, ?_⟩, by rw [hlen, Nat.mul_comm], Nat.two_pow_pos _, hbelow, ?_, ?_⟩
  · obtain ⟨j, hj⟩ : ∃ j, sb.blockLog + sb.dirblkLog = j + 3 := ⟨_, (Nat.sub_add_cancel (by omega)).symm⟩
    rw [hpow, hj, pow_succ, pow_succ, pow_succ]
    omega
  · rw [Nat.shiftRight_eq_div_pow]
    exact hfirst
  · rw [Nat.shiftRight_eq_div_pow, FREE_OFFSET, LEAF_OFFSET, Nat.mul_div_assoc, hfirst, Nat.mul_assoc]
    exact pow_dvd_pow 2 (by omega)

/-- Blocks of different slots do not meet. -/
theorem apart_of_slots (hat : blocks.map (·.lblk) = slots.map (· * per)) (hnodup : slots.Nodup) :
    blocks.Pairwise fun a b => Before per a b ∨ Before per b a := by
  have hslots : (slots.map (· * per)).Pairwise fun x y => x + per ≤ y ∨ y + per ≤ x := by
    refine List.pairwise_map.mpr (hnodup.imp fun {i j} hne => ?_)
    rcases Nat.lt_or_gt_of_ne hne with h | h
    · left
      rw [← Nat.succ_mul]
      exact Nat.mul_le_mul_right _ h
    · right
      rw [← Nat.succ_mul]
      exact Nat.mul_le_mul_right _ h
  rw [← hat] at hslots
  exact List.pairwise_map.mp hslots

/-- In order, they come one after another. -/
theorem ordered_of_slots (hper : 0 < per) (hat : blocks.map (·.lblk) = slots.map (· * per))
    (hnodup : slots.Nodup) :
    (blocks.insertionSort fun a b => a.lblk ≤ b.lblk).Pairwise (Before per) := by
  have hperm := List.perm_insertionSort (fun a b : DirBlock => a.lblk ≤ b.lblk) blocks
  have hapart := (hperm.pairwise_iff fun {x y} h => Or.comm.mp h).mpr (apart_of_slots hat hnodup)
  have htrans : IsTrans DirBlock fun a b => a.lblk ≤ b.lblk := ⟨fun _ _ _ => Nat.le_trans⟩
  have htotal : Std.Total fun a b : DirBlock => a.lblk ≤ b.lblk := ⟨fun a b => Nat.le_total _ _⟩
  have hsorted := List.pairwise_insertionSort (fun a b : DirBlock => a.lblk ≤ b.lblk) blocks
  refine (hsorted.and hapart).imp fun {a b} h => ?_
  obtain ⟨hle, hab | hba⟩ := h
  · exact hab
  · unfold Before at hba
    omega

end

/-! ## The index of packed names -/

/-- The index over packed names. -/
def sortedIndex (dbs : Nat) (groups : List (List DirEnt)) : List (Nat × Nat) :=
  (indexBlocks dbs 0 groups).insertionSort indexLe

section
variable {dbs at_ db : Nat} {es : List DirEnt} {groups : List (List DirEnt)} {e : Nat × Nat}

theorem entryFits_indexFrom (he : e ∈ indexFrom at_ es) : EntryFits e := by
  induction es generalizing at_ with
  | nil => cases he
  | cons x es ih =>
    rw [indexFrom] at he
    rcases List.mem_cons.mp he with rfl | he
    · exact ⟨hashname_lt x.name, Nat.mod_lt _ (by norm_num)⟩
    · exact ih he

theorem entryFits_indexBlocks (he : e ∈ indexBlocks dbs db groups) : EntryFits e := by
  induction groups generalizing db with
  | nil => cases he
  | cons g groups ih =>
    rw [indexBlocks] at he
    rcases List.mem_append.mp he with he | he
    · exact entryFits_indexFrom he
    · exact ih he

theorem length_indexBlocks (db : Nat) (groups : List (List DirEnt)) :
    (indexBlocks dbs db groups).length = groups.flatten.length := by
  induction groups generalizing db with
  | nil => rfl
  | cons g groups ih =>
    rw [indexBlocks, List.length_append, length_indexFrom, ih, List.flatten_cons, List.length_append]

theorem indexLe_trans : IsTrans (Nat × Nat) indexLe := ⟨fun a b c => @le_trans _ _ (toLex a) (toLex b) (toLex c)⟩

theorem indexLe_total : Std.Total indexLe := ⟨fun a b => le_total (toLex a) (toLex b)⟩

theorem sorted_insertionSort (ents : List (Nat × Nat)) : (ents.insertionSort indexLe).Pairwise indexLe := by
  have htrans := indexLe_trans
  have htotal := indexLe_total
  exact List.pairwise_insertionSort indexLe ents

theorem byHash_of_sorted {ents : List (Nat × Nat)} (h : ents.Pairwise indexLe) : ByHash ents :=
  h.imp fun {a b} hab => by
    rcases Prod.Lex.toLex_le_toLex.mp hab with hlt | ⟨heq, -⟩
    · exact hlt.le
    · exact heq.le

theorem length_sortedIndex : (sortedIndex dbs groups).length = groups.flatten.length := by
  rw [sortedIndex, List.length_insertionSort, length_indexBlocks]

theorem entryFits_sortedIndex (he : e ∈ sortedIndex dbs groups) : EntryFits e :=
  entryFits_indexBlocks ((List.mem_insertionSort indexLe).mp he)

end

/-! ## Room for the tree -/

section
variable {sb : Superblock} {dbs per far n ino : Nat} {groups : List (List DirEnt)}

/-- The tree over as many entries as the data blocks below the index can hold ends before the
free-index blocks begin. -/
theorem treeSizes_sum_le (hgeo : DirGeometry sb dbs per far) (hn : 0 < n) (hfew : 16 * n ≤ LEAF_OFFSET) :
    0 < (treeSizes dbs n).sum ∧ (treeSizes dbs n).sum ≤ far := by
  have hge := hgeo.size.ge
  have hle := hgeo.size.le
  have hmod := hgeo.size.mod
  obtain ⟨ls, hsizes, hpos, hls⟩ := treeSizes_eq hgeo.size hn
  have hcap : 56 ≤ perBlock dbs := by unfold perBlock HDR; omega
  have hcap' : perBlock dbs ≤ 8192 := by unfold perBlock HDR; omega
  have hlen : dbs ≤ 10 * perBlock dbs := by unfold perBlock HDR; omega
  have hleaves : divCeil n (perBlock dbs) * perBlock dbs ≤ n + perBlock dbs - 1 := Nat.div_mul_le_self _ _
  have hfewer : divCeil n (perBlock dbs) ≤ n := by
    rw [divCeil_le_iff (by omega)]
    exact Nat.le_mul_of_pos_right _ (by omega)
  unfold LEAF_OFFSET at hfew
  have hnone : levelsAbove 1 (perBlock dbs) 0 1 = some [] := rfl
  have habove : 9 * ls.sum ≤ divCeil n (perBlock dbs) + 89 := by
    have hsplit : 1 + (divCeil n (perBlock dbs) - 1) = divCeil n (perBlock dbs) := by omega
    have := @sum_levelsAbove_le (perBlock dbs) (by omega) 10 0 _ 1 (divCeil n (perBlock dbs) - 1) [] ls
      hnone (by rw [hsplit]; exact hls) (by omega)
    simp only [List.sum_nil] at this
    omega
  rw [hsizes, List.sum_cons]
  refine ⟨by omega, ?_⟩
  have htotal : 9 * (divCeil n (perBlock dbs) + ls.sum) ≤ 10 * divCeil n (perBlock dbs) + 89 := by omega
  have hbytes : 9 * (divCeil n (perBlock dbs) + ls.sum) * dbs ≤ 9 * (far * dbs) := by
    have hbelow := hgeo.below
    unfold LEAF_OFFSET at hbelow
    calc 9 * (divCeil n (perBlock dbs) + ls.sum) * dbs
        ≤ (10 * divCeil n (perBlock dbs) + 89) * (10 * perBlock dbs) := Nat.mul_le_mul htotal hlen
      _ = 100 * (divCeil n (perBlock dbs) * perBlock dbs) + 890 * perBlock dbs := by ring
      _ ≤ 9 * (far * dbs) := by omega
  rw [← Nat.mul_assoc] at hbytes
  have := Nat.le_of_mul_le_mul_right hbytes (by omega)
  omega

/-- The slots of the tree's blocks. -/
def treeSlots (far total : Nat) : List Nat := ((List.range total).tail.map (far + ·)) ++ [far]

theorem positions_eq (far per total : Nat) :
    positions (far * per) per total = (treeSlots far total).map (· * per) := by
  unfold positions treeSlots
  rw [List.map_append, List.map_map, List.map_singleton]
  congr 1
  refine List.map_congr_left fun i _ => ?_
  exact (Nat.add_mul far i per).symm

theorem mem_treeSlots {total s : Nat} (hpos : 0 < total) (h : s ∈ treeSlots far total) :
    far ≤ s ∧ s < far + total := by
  unfold treeSlots at h
  rcases List.mem_append.mp h with h | h
  · obtain ⟨i, hi, rfl⟩ := List.mem_map.mp h
    have := List.mem_range.mp (List.mem_of_mem_tail hi)
    omega
  · rw [List.mem_singleton.mp h]
    omega

theorem nodup_treeSlots (far total : Nat) : (treeSlots far total).Nodup := by
  unfold treeSlots
  have hrange : (List.range total).Nodup := List.nodup_range
  refine List.nodup_append.mpr ⟨(hrange.tail).map fun a b h => Nat.add_left_cancel h, List.nodup_singleton _,
    fun a ha b hb => ?_⟩
  obtain ⟨i, hi, rfl⟩ := List.mem_map.mp ha
  rw [List.mem_singleton.mp hb]
  rintro heq
  obtain rfl : i = 0 := by omega
  cases total with
  | zero => simp at hi
  | succ n =>
    rw [List.range_succ_eq_map, List.tail_cons] at hi
    simp at hi

end

/-! ## Data blocks -/

/-- The data blocks of packed names. -/
def dataBlocks (sb : Superblock) (ino dbs per : Nat) (groups : List (List DirEnt)) : List DirBlock :=
  groups.zipIdx.map fun g => dataBlock sb ino dbs per g.2 g.1

theorem mapM_map_ok {α β γ : Type} {f : β → Result γ} {g : α → β} {r : α → γ} {l : List α}
    (h : ∀ a ∈ l, f (g a) = .ok (r a)) : (l.map g).mapM f = .ok (l.map r) := by
  induction l with
  | nil => rfl
  | cons a l ih =>
    rw [List.map_cons, List.mapM_cons, h a List.mem_cons_self, except_ok_bind,
      ih fun b hb => h b (List.mem_cons_of_mem _ hb)]
    rfl

section
variable {sb : Superblock} {ino dbs per : Nat} {groups : List (List DirEnt)}

theorem lblk_dataBlocks :
    (dataBlocks sb ino dbs per groups).map (·.lblk) = (List.range groups.length).map (· * per) := by
  have hsnd : groups.zipIdx.map Prod.snd = List.range groups.length := by
    rw [List.zipIdx_map_snd, List.range_eq_range']
  rw [← hsnd, dataBlocks, List.map_map, List.map_map]
  rfl

/-- The data blocks are listed, one after another, as what was packed. -/
theorem parse_dataBlocks (hs : sb.Sound) (hv5 : sb.isV5 = true) (hft : sb.hasFtype = true)
    (hino : ino < 2 ^ 64) (hdbs : DirBlockSize dbs) (hes : ∀ e ∈ groups.flatten, e.Fits)
    (hfits : ∀ g ∈ groups, HDR + usedBytes g ≤ dbs) (daddr : DirBlock → Nat) :
    ((dataBlocks sb ino dbs per groups).mapM fun b =>
      parseDataBlock sb (Volume.finishBlock b (daddr b)) ino) =
        .ok (groups.map (List.map DirEnt.raw)) := by
  have hfst : groups.zipIdx.map Prod.fst = groups := List.zipIdx_map_fst 0 groups
  have hmap := @mapM_map_ok _ _ _ (fun b => parseDataBlock sb (Volume.finishBlock b (daddr b)) ino)
    (fun g : List DirEnt × Nat => dataBlock sb ino dbs per g.2 g.1) (fun g => g.1.map DirEnt.raw)
    groups.zipIdx fun g hg => by
      have hmem : g.1 ∈ groups := List.fst_mem_of_mem_zipIdx hg
      exact parse_dataBlock hs hv5 hft hino hdbs
        (fun e he => hes e (List.mem_flatten.mpr ⟨g.1, hmem, he⟩)) (hfits g.1 hmem)
  have hraw : groups.zipIdx.map (fun g => g.1.map DirEnt.raw) = groups.map (List.map DirEnt.raw) := by
    conv_rhs => rw [← hfst, List.map_map]
    rfl
  unfold dataBlocks
  rw [hmap, hraw]

end

/-! ## Blocks in order -/

/-- The blocks beyond the data blocks: the one leaf block, or the tree and the free-index blocks. -/
def indexPart (sb : Superblock) (ino dbs per far : Nat) (groups : List (List DirEnt)) : List DirBlock :=
  if HDR + (sortedIndex dbs groups).length * 8 + groups.length * 2 + 4 ≤ dbs then
    [leafForm sb ino dbs (far * per) (sortedIndex dbs groups) (groups.map (bestFree dbs))]
  else
    treeBlocks sb ino dbs per (far * per) (sortedIndex dbs groups) ++
      freeBlocks sb ino dbs per (2 * far * per) (groups.map (bestFree dbs))

section
variable {sb : Superblock} {ino dbs per far : Nat} {all : List DirEnt} {groups : List (List DirEnt)}

/-- The tree over packed names that lie below the index. -/
theorem indexTree_packed (hs : sb.Sound) (hgeo : DirGeometry sb dbs per far)
    (hne : groups.flatten ≠ []) (hfits : ∀ g ∈ groups, HDR + usedBytes g ≤ dbs)
    (hfar : groups.length ≤ far) :
    (0 < (treeSizes dbs groups.flatten.length).sum ∧
      (treeSizes dbs groups.flatten.length).sum ≤ far) ∧
    ∃ leaves his, IndexTree dbs (sortedIndex dbs groups)
      ((treeSlots far (treeSizes dbs groups.flatten.length).sum).map (· * per)) (far * per)
      (treeBlocks sb ino dbs per (far * per) (sortedIndex dbs groups)) leaves his := by
  have hused := usedBytes_flatten hfits
  have hlen := length_le_usedBytes groups.flatten
  have hbytes : groups.length * dbs ≤ far * dbs := Nat.mul_le_mul_right _ hfar
  have hbelow := hgeo.below
  have hpos : 0 < groups.flatten.length := List.length_pos_iff.mpr hne
  have hfew : 16 * groups.flatten.length ≤ LEAF_OFFSET := by omega
  obtain ⟨htotal, hle⟩ := treeSizes_sum_le hgeo hpos hfew
  refine ⟨⟨htotal, hle⟩, ?_⟩
  have hindex : (sortedIndex dbs groups).length = groups.flatten.length := length_sortedIndex
  have hsmall : 2 * far * per < 2 ^ 32 := by
    have hge := hs.blockSize_ge
    have hlin : 2 * far * per * 512 ≤ 2 * (far * dbs) := by
      rw [hgeo.length_eq, Nat.mul_assoc, Nat.mul_assoc]
      exact Nat.mul_le_mul_left _ (Nat.mul_le_mul_left _ (Nat.mul_le_mul_left _ hge))
    unfold LEAF_OFFSET at hbelow
    omega
  rw [← positions_eq, ← hindex]
  refine indexTree_treeBlocks hs hgeo.size ?_ ?_ (byHash_of_sorted (sorted_insertionSort _))
    (fun e he => entryFits_sortedIndex he) fun a ha => ?_
  · exact List.length_pos_iff.mp (by omega)
  · unfold LEAF_OFFSET at hfew
    omega
  · rw [hindex, positions_eq] at ha
    obtain ⟨s, hs, rfl⟩ := List.mem_map.mp ha
    obtain ⟨-, hlt⟩ := mem_treeSlots htotal hs
    exact lt_of_le_of_lt (Nat.mul_le_mul_right _ (by omega)) hsmall

/-- The blocks beyond the data blocks lie each in its own slot, from the first of the index on. -/
theorem slots_indexPart (hs : sb.Sound) (hgeo : DirGeometry sb dbs per far)
    (hne : groups.flatten ≠ []) (hfits : ∀ g ∈ groups, HDR + usedBytes g ≤ dbs)
    (hfar : groups.length ≤ far) : ∃ slots : List Nat, slots.Nodup ∧ (∀ s ∈ slots, far ≤ s) ∧
      (indexPart sb ino dbs per far groups).map (·.lblk) = slots.map (· * per) := by
  unfold indexPart
  split
  · exact ⟨[far], List.nodup_singleton _, by simp, rfl⟩
  · obtain ⟨⟨htotal, hle⟩, leaves, his, htree⟩ := @indexTree_packed sb ino dbs per far groups hs hgeo hne hfits hfar
    refine ⟨treeSlots far (treeSizes dbs groups.flatten.length).sum ++
      (List.range (divCeil (groups.map (bestFree dbs)).length ((dbs - HDR) / 2))).map (2 * far + ·), ?_,
      fun s hs => ?_, ?_⟩
    · refine List.nodup_append.mpr ⟨nodup_treeSlots _ _,
        List.nodup_range.map fun a b h => Nat.add_left_cancel h, fun a ha b hb => ?_⟩
      obtain ⟨-, hlt⟩ := mem_treeSlots htotal ha
      obtain ⟨i, -, rfl⟩ := List.mem_map.mp hb
      omega
    · rcases List.mem_append.mp hs with hs | hs
      · exact (mem_treeSlots htotal hs).1
      · obtain ⟨i, -, rfl⟩ := List.mem_map.mp hs
        omega
    · rw [List.map_append, htree.placed, List.map_append, List.map_map]
      congr 1
      unfold freeBlocks
      simp only [List.map_map]
      refine List.map_congr_left fun i _ => ?_
      exact (Nat.add_mul (2 * far) i per).symm

/-- The forms with separate data blocks: the data blocks from the start, and what lies beyond them, one
after another. -/
theorem indexedForm_eq_ok (hs : sb.Sound) (hgeo : DirGeometry sb dbs per far) (hne : all ≠ [])
    {size : Nat} {blocks : List DirBlock} (h : indexedForm sb ino dbs per all = .ok (.blocks size blocks))
    (hsize : size ≤ LEAF_OFFSET) : ∃ groups, pack dbs all = .ok groups ∧ size = groups.length * dbs ∧
      groups.length ≤ far ∧ blocks.Pairwise (Before per) ∧
      ∃ rest, blocks = dataBlocks sb ino dbs per groups ++ rest ∧
        rest.Perm (indexPart sb ino dbs per far groups) ∧ ∀ b ∈ rest, far * per ≤ b.lblk := by
  have hge := hgeo.size.ge
  obtain ⟨groups, hpack, h⟩ := except_bind_eq_ok.mp h
  obtain ⟨hflat, hfits⟩ := pack_eq_ok (by unfold HDR; omega) hpack
  rw [hgeo.leafFirst, hgeo.freeFirst] at h
  -- the blocks in order, whatever the form
  have hblocks : size = groups.length * dbs ∧ (indexPart sb ino dbs per far groups = [leafForm sb ino dbs
      (far * per) (sortedIndex dbs groups) (groups.map (bestFree dbs))] ∧
      blocks = dataBlocks sb ino dbs per groups ++ indexPart sb ino dbs per far groups ∨
      blocks = (dataBlocks sb ino dbs per groups ++ indexPart sb ino dbs per far groups).insertionSort
        fun a b => a.lblk ≤ b.lblk) := by
    unfold indexPart
    simp only at h
    split at h
    · rename_i hfew
      have hfew' : HDR + (sortedIndex dbs groups).length * 8 + groups.length * 2 + 4 ≤ dbs := hfew
      cases h
      exact ⟨rfl, Or.inl (by rw [if_pos hfew']; exact ⟨rfl, rfl⟩)⟩
    · rename_i hmany
      have hmany' : ¬HDR + (sortedIndex dbs groups).length * 8 + groups.length * 2 + 4 ≤ dbs := hmany
      cases h
      rw [if_neg hmany', ← List.append_assoc]
      exact ⟨rfl, Or.inr rfl⟩
  obtain ⟨rfl, hblocks⟩ := hblocks
  have hfar : groups.length ≤ far := by
    rw [← hgeo.below] at hsize
    exact Nat.le_of_mul_le_mul_right hsize (by omega)
  obtain ⟨slots, hnodup, hbeyond, hat⟩ :=
    @slots_indexPart sb ino dbs per far groups hs hgeo (hflat.symm ▸ hne) hfits hfar
  have hdata := @lblk_dataBlocks sb ino dbs per groups
  have hplaces : (dataBlocks sb ino dbs per groups ++ indexPart sb ino dbs per far groups).map (·.lblk) =
      (List.range groups.length ++ slots).map (· * per) := by
    rw [List.map_append, List.map_append, hdata, hat]
  have hdistinct : (List.range groups.length ++ slots).Nodup := by
    refine List.nodup_append.mpr ⟨List.nodup_range, hnodup, fun a ha b hb => ?_⟩
    have h1 := List.mem_range.mp ha
    have h2 := hbeyond b hb
    omega
  have hrest : ∀ b ∈ indexPart sb ino dbs per far groups, far * per ≤ b.lblk := fun b hb => by
    obtain ⟨s, hs, heq⟩ := List.mem_map.mp (hat ▸ List.mem_map_of_mem hb)
    rw [← heq]
    exact Nat.mul_le_mul_right _ (hbeyond s hs)
  have hsplit := @insertionSort_append DirBlock (fun a b => a.lblk ≤ b.lblk) _
    (dataBlocks sb ino dbs per groups) (indexPart sb ino dbs per far groups) (by
      have hrange : ((List.range groups.length).map (· * per)).Pairwise (· ≤ ·) :=
        List.pairwise_map.mpr (List.pairwise_lt_range.imp fun hlt => Nat.mul_le_mul_right _ hlt.le)
      rw [← hdata] at hrange
      exact List.pairwise_map.mp hrange) fun x hx y hy => by
      obtain ⟨i, hi, heq⟩ := List.mem_map.mp (hdata ▸ List.mem_map_of_mem hx)
      have hle := hrest y hy
      rw [← heq]
      exact le_trans (Nat.mul_le_mul_right _ ((List.mem_range.mp hi).le.trans hfar)) hle
  have hordered := ordered_of_slots hgeo.per_pos hplaces hdistinct
  have hall : blocks = dataBlocks sb ino dbs per groups ++
      (indexPart sb ino dbs per far groups).insertionSort fun a b => a.lblk ≤ b.lblk := by
    rcases hblocks with ⟨hone, hblocks⟩ | hblocks
    · rw [hblocks, hone]
      rfl
    · rw [hblocks, hsplit]
  rw [hsplit, ← hall] at hordered
  exact ⟨groups, hpack, rfl, hfar, hordered, _, hall, List.perm_insertionSort _ _, fun b hb =>
    hrest b ((List.mem_insertionSort _).mp hb)⟩

end

/-! ## Listing a layout -/

/-- The size of a directory that was laid out. -/
def Layout.size : Layout → Nat
  | .short bytes => bytes.length
  | .blocks size _ => size

/-- The blocks that listing reads: those below the index. -/
def listedBlocks (sb : Superblock) (blocks : List DirBlock) : List DirBlock :=
  blocks.filter fun b => decide (b.lblk < LEAF_OFFSET >>> sb.blockLog)

/-- The blocks from the index on. -/
def unlistedBlocks (sb : Superblock) (blocks : List DirBlock) : List DirBlock :=
  blocks.filter fun b => decide (LEAF_OFFSET >>> sb.blockLog ≤ b.lblk)

/-- What listing makes of a directory's blocks, each with an address. -/
def listBlocks (sb : Superblock) (ino : Nat) (blocks : List DirBlock) (daddr : DirBlock → Nat) :
    Result (List RawEntry) := do
  let names ← (listedBlocks sb blocks).mapM fun b => parseDataBlock sb (Volume.finishBlock b (daddr b)) ino
  return names.flatten

/-- A layout lists as it was given: the short form as parent and names; blocks, wherever they are put, as
the names with `.` and `..` first.  Blocks do not meet, and the directory's size is where those that are
listed end. -/
def ListsAs (sb : Superblock) (ino parent : Nat) (names : List DirEnt) : Layout → Prop
  | .short bytes => parseShortform sb bytes bytes.length = .ok (parent, names.map DirEnt.raw)
  | .blocks size blocks =>
      (∀ daddr, listBlocks sb ino blocks daddr = .ok ((withDots ino parent names).map DirEnt.raw)) ∧
      blocks.Pairwise (Before (2 ^ sb.dirblkLog)) ∧
      ∃ dbs n, sb.dirBlockSize = .ok dbs ∧ size = n * dbs ∧
        (listedBlocks sb blocks).map (·.lblk) = (List.range n).map (· * 2 ^ sb.dirblkLog)

section
variable {sb : Superblock} {ino parent forkSize : Nat} {names : List DirEnt}

theorem fits_withDots (hino : ino < 2 ^ 56) (hparent : parent < 2 ^ 56) (hnames : ∀ e ∈ names, e.Fits) :
    ∀ e ∈ withDots ino parent names, e.Fits := by
  intro e he
  rcases List.mem_cons.mp he with rfl | he
  · exact ⟨Nat.one_pos, by simp, hino, by norm_num⟩
  · rcases List.mem_cons.mp he with rfl | he
    · exact ⟨Nat.two_pos, by simp, hparent, by norm_num⟩
    · exact hnames e he

/-- A directory in blocks is a single block, or its data blocks and the index beyond them. -/
structure InBlocks (sb : Superblock) (ino dbs far : Nat) (all : List DirEnt) (size : Nat)
    (blocks : List DirBlock) (groups : List (List DirEnt)) : Prop where
  flatten : groups.flatten = all
  fits : ∀ g ∈ groups, HDR + usedBytes g ≤ dbs
  size : size = groups.length * dbs
  few : groups.length ≤ far
  ordered : blocks.Pairwise (Before (2 ^ sb.dirblkLog))
  listed : listedBlocks sb blocks = dataBlocks sb ino dbs (2 ^ sb.dirblkLog) groups
  unlisted : (unlistedBlocks sb blocks).Perm (indexPart sb ino dbs (2 ^ sb.dirblkLog) far groups)

theorem layout_blocks {sector : Bytes} (hsb : Superblock.parse sector = .ok sb) {size : Nat}
    {blocks : List DirBlock} (h : layout sb ino parent names forkSize = .ok (.blocks size blocks))
    (hsize : size ≤ LEAF_OFFSET) : ∃ dbs far, sb.dirBlockSize = .ok dbs ∧
      DirGeometry sb dbs (2 ^ sb.dirblkLog) far ∧
      ((HDR + usedBytes (withDots ino parent names) + (withDots ino parent names).length * 8 + 8 ≤ dbs ∧
          size = dbs ∧ blocks = [blockForm sb ino dbs (withDots ino parent names)] ∧
          listedBlocks sb blocks = blocks) ∨
        ∃ groups, InBlocks sb ino dbs far (withDots ino parent names) size blocks groups) := by
  have hs := Superblock.sound_of_parse hsb
  unfold layout at h
  split at h
  · cases h
  obtain ⟨dbs, hdbs, h⟩ := except_bind_eq_ok.mp h
  obtain ⟨per, hper, h⟩ := except_bind_eq_ok.mp h
  obtain ⟨-, rfl⟩ := Superblock.shl64_one hper
  obtain ⟨far, hgeo⟩ := dirGeometry_of_parse hsb hdbs
  refine ⟨dbs, far, hdbs, hgeo, ?_⟩
  have hfar : 0 < far := by
    rcases Nat.eq_zero_or_pos far with rfl | hpos
    · have := hgeo.below
      simp [LEAF_OFFSET] at this
    · exact hpos
  simp only at h
  split at h
  · rename_i hone
    obtain ⟨rfl, rfl⟩ := Layout.blocks.inj (Except.ok.inj h)
    refine Or.inl ⟨hone, rfl, rfl, List.filter_eq_self.mpr fun b hb => ?_⟩
    rw [List.mem_singleton.mp hb, hgeo.leafFirst]
    exact decide_eq_true (Nat.mul_pos hfar hgeo.per_pos)
  · have hne : withDots ino parent names ≠ [] := List.cons_ne_nil _ _
    obtain ⟨groups, hpack, hsz, hle, hordered, rest, rfl, hperm, hbeyond⟩ :=
      indexedForm_eq_ok hs hgeo hne h hsize
    have hge := hgeo.size.ge
    obtain ⟨hflat, hfits⟩ := pack_eq_ok (by unfold HDR; omega) hpack
    have hdata := @lblk_dataBlocks sb ino dbs (2 ^ sb.dirblkLog) groups
    have hbelow : ∀ b ∈ dataBlocks sb ino dbs (2 ^ sb.dirblkLog) groups,
        b.lblk < LEAF_OFFSET >>> sb.blockLog := fun b hb => by
      obtain ⟨i, hi, heq⟩ := List.mem_map.mp (hdata ▸ List.mem_map_of_mem hb)
      rw [hgeo.leafFirst, ← heq]
      exact Nat.mul_lt_mul_of_pos_right (lt_of_lt_of_le (List.mem_range.mp hi) hle) hgeo.per_pos
    rw [← hgeo.leafFirst] at hbeyond
    refine Or.inr ⟨groups, hflat, hfits, hsz, hle, hordered, ?_, ?_⟩
    · unfold listedBlocks
      rw [List.filter_append, List.filter_eq_self.mpr fun b hb => decide_eq_true (hbelow b hb),
        List.filter_eq_nil_iff.mpr fun b hb => ?_, List.append_nil]
      rw [decide_eq_true_iff, not_lt]
      exact hbeyond b hb
    · unfold unlistedBlocks
      rw [List.filter_append, List.filter_eq_nil_iff.mpr fun b hb => ?_,
        List.filter_eq_self.mpr fun b hb => decide_eq_true (hbeyond b hb), List.nil_append]
      · exact hperm
      · rw [decide_eq_true_iff, not_le]
        exact hbelow b hb

/-- Whatever the names, and whatever form holds them, a directory that was laid out is listed as it was
given. -/
theorem laid_out_lists {sector : Bytes} (hsb : Superblock.parse sector = .ok sb)
    (hv5 : sb.isV5 = true) (hft : sb.hasFtype = true) (hino : ino < 2 ^ 56) (hparent : parent < 2 ^ 56)
    (hnames : ∀ e ∈ names, e.Fits) (hfork : forkSize ≤ sb.inodeSize) {laid : Layout}
    (h : layout sb ino parent names forkSize = .ok laid) (hsize : laid.size ≤ LEAF_OFFSET) :
    ListsAs sb ino parent names laid := by
  have hs := Superblock.sound_of_parse hsb
  have hino64 : ino < 2 ^ 64 := hino.trans (by norm_num)
  cases laid with
  | short bytes =>
    exact parseShortform_eq hft hparent hnames (hfork.trans hs.inodeSize_le) (layout_eq_short.mp h)
  | blocks size blocks =>
    have hall := fits_withDots hino hparent hnames
    obtain ⟨dbs, far, hdbs, hgeo, ⟨hone, hsz, rfl, hlisted⟩ | ⟨groups, hin⟩⟩ := layout_blocks hsb h hsize
    · refine ⟨fun daddr => ?_, List.pairwise_singleton _ _, dbs, 1, hdbs, by rw [hsz, Nat.one_mul], ?_⟩
      · unfold listBlocks
        rw [hlisted, List.mapM_cons, parse_blockForm hs hv5 hft hino64 hgeo.size hall hone, except_ok_bind]
        simp [List.mapM_nil]
        rfl
      · rw [hlisted]
        simp [blockForm]
    · refine ⟨fun daddr => ?_, hin.ordered, dbs, groups.length, hdbs, hin.size, ?_⟩
      · have hes : ∀ e ∈ groups.flatten, e.Fits := fun e he => hall e (hin.flatten ▸ he)
        unfold listBlocks
        rw [hin.listed, parse_dataBlocks hs hv5 hft hino64 hgeo.size hes hin.fits daddr, except_ok_bind,
          ← hin.flatten, List.map_flatten]
        rfl
      · rw [hin.listed, lblk_dataBlocks]

end

set_option maxRecDepth 100000 in
/-- Thirty names in a filesystem of 512-byte blocks take two data blocks and a leaf block. -/
theorem laid_out_lists_thirty : ∃ laid, layout (freshSb 16 true) 128 128 (letters 30) 80 = .ok laid ∧
    ListsAs (freshSb 16 true) 128 128 (letters 30) laid := by
  obtain ⟨laid, h, hsize⟩ : ∃ laid, layout (freshSb 16 true) 128 128 (letters 30) 80 = .ok laid ∧
      laid.size ≤ LEAF_OFFSET := by
    have hok : (match layout (freshSb 16 true) 128 128 (letters 30) 80 with
      | .ok laid => decide (laid.size ≤ LEAF_OFFSET)
      | .error _ => false) = true := by decide +kernel
    split at hok
    · rename_i laid h
      exact ⟨laid, h, of_decide_eq_true hok⟩
    · cases hok
  refine ⟨laid, h, laid_out_lists parse_fresh (by decide) (by decide) (by norm_num) (by norm_num)
    (fun e he => ?_) (by decide) h hsize⟩
  obtain ⟨i, hi, rfl⟩ := List.mem_map.mp he
  have := List.mem_range.mp hi
  exact ⟨by norm_num, by norm_num, by simp only; omega, by norm_num⟩

end FioXfs.DirWrite
