import FioXfs.Alloc.Chunks
import FioXfs.Alloc.Reserve
set_option autoImplicit false

/-!
# Free blocks are conserved

Whatever the free-space and reverse-mapping trees grow or shrink to, the blocks the AGF
counts as free change only by what is given to inodes, chunks and the inode trees.
-/

namespace FioXfs.Alloc

open FioXfs.Lib FioXfs.Btree Finset

/-! ## Who has the blocks -/

/-- Every block of the group is free, on the AGFL, in a tree or one of `own`: the blocks of
inodes and inode chunks, the headers, the log and the refcount tree. -/
structure Parted (ag : Ag) (own : Finset Nat) : Prop where
  space : SpaceOk ag
  once : ∀ b, freeAt ag.free b + (ag.agfl ++ ag.oldTreeBlocks).count b + (if b ∈ own then 1 else 0) =
    within 0 ag.len b
  agfl : be32 ag.agf 48 = ag.agfl.length
  agfLen : AGF_CRC + 4 ≤ ag.agf.length
  agiLen : AGI_CRC + 4 ≤ ag.agi.length
  short : ag.len ≤ 2 ^ 31

section
variable {sb : Superblock} {ag ag' : Ag} {own : Finset Nat} {s n : Nat}

/-- Counting a list's members over a range that holds them gives its length. -/
theorem sum_count {bs : List Nat} {N : Nat} (h : ∀ b ∈ bs, b < N) :
    ∑ b ∈ range N, bs.count b = bs.length := by
  induction bs with
  | nil => simp
  | cons c bs ih =>
      simp only [List.count_cons, Finset.sum_add_distrib, List.length_cons]
      rw [ih fun b hb => h b (List.mem_cons_of_mem _ hb)]
      have hc := h c List.mem_cons_self
      simp [hc]

/-- The parts add up to the group. -/
theorem Parted.sum (h : Parted ag own) :
    ag.freeTotal + (ag.agfl.length + ag.oldTreeBlocks.length) + own.card = ag.len := by
  have hin : ∀ b, 0 < within 0 ag.len b → b < ag.len := fun b hb => by
    have := within_pos.mp hb
    omega
  have hlist : ∀ b ∈ ag.agfl ++ ag.oldTreeBlocks, b < ag.len := fun b hb => by
    have := h.once b
    have := List.count_pos_iff.mpr hb
    exact hin b (by omega)
  have hown : own ⊆ range ag.len := fun b hb => by
    have := h.once b
    rw [if_pos hb] at this
    exact Finset.mem_range.mpr (hin b (by omega))
  have htotal : ∑ b ∈ range ag.len, (freeAt ag.free b + (ag.agfl ++ ag.oldTreeBlocks).count b +
      if b ∈ own then 1 else 0) = ∑ b ∈ range ag.len, within 0 ag.len b :=
    Finset.sum_congr rfl fun b _ => h.once b
  rw [Finset.sum_add_distrib, Finset.sum_add_distrib, sum_freeAt h.space.freeOk.pos h.space.inside,
    sum_count hlist, sum_within (by omega), ← h.space.total, List.length_append,
    ← Finset.card_filter] at htotal
  rw [← htotal]
  congr 2
  ext b
  simp only [Finset.mem_filter]
  exact ⟨fun hb => ⟨hown hb, hb⟩, fun hb => hb.2⟩

/-- A run taken from the free space joins the owned blocks. -/
theorem Parted.allocated (h : Parted ag own) (ha : Allocated ag ag' s n) :
    Parted ag' (own ∪ Ico s (s + n)) := by
  have hspace := h.space.allocated ha
  obtain ⟨free', htakes, rfl⟩ := ha.takes
  refine ⟨hspace, fun b => ?_, h.agfl, h.agfLen, h.agiLen, h.short⟩
  have h1 := htakes.at_ b
  have h2 := h.once b
  have h3 := within_le_one 0 ag.len b
  simp only [Finset.mem_union, Finset.mem_Ico]
  unfold within at h1
  split_ifs at h1 h2 ⊢ <;> simp_all <;> omega

/-- A run of owned blocks given back joins the free space. -/
theorem Parted.freed (h : Parted ag own) (hrun : freeExtent s n ag = .ok () ag')
    (hown : Ico s (s + n) ⊆ own) : Parted ag' (own \ Ico s (s + n)) := by
  have hspace := h.space.freed hrun
  obtain ⟨-, -, free', hputs, rfl⟩ := freeExtent_ok h.space.freeOk hrun
  refine ⟨hspace, fun b => ?_, h.agfl, h.agfLen, h.agiLen, h.short⟩
  have h1 := hputs.at_ b
  have h2 := h.once b
  simp only [Finset.mem_sdiff, Finset.mem_Ico]
  by_cases hb : s ≤ b ∧ b < s + n
  · have hin : b ∈ own := hown (Finset.mem_Ico.mpr hb)
    rw [within_eq_one.mpr hb] at h1
    simp only [hin, hb, if_true, and_self, not_true, and_false, if_false] at h2 ⊢
    omega
  · rw [within_eq_zero.mpr hb] at h1
    simp only [hb, not_false_eq_true, and_true] at h2 ⊢
    omega

theorem Parted.of_same (h : Parted ag own) (hfree : ag'.free = ag.free)
    (htotal : ag'.freeTotal = ag.freeTotal) (hlen : ag'.len = ag.len) (hagfl : ag'.agfl = ag.agfl)
    (hold : ag'.oldTreeBlocks = ag.oldTreeBlocks) (hagf : ag'.agf = ag.agf)
    (hagi : ag'.agi = ag.agi) : Parted ag' own where
  space := h.space.of_same hfree htotal hlen
  once b := by rw [hfree, hagfl, hold, hlen]; exact h.once b
  agfl := by rw [hagf, hagfl]; exact h.agfl
  agfLen := by rw [hagf]; exact h.agfLen
  agiLen := by rw [hagi]; exact h.agiLen
  short := by rw [hlen]; exact h.short

end

/-! ## What a rebuild counts -/

/-- The roots of the free-space trees and of the reverse-mapping tree. -/
def agRoots (sb : Superblock) : Nat := 2 + if sb.hasRmapbt then 1 else 0

/-- The headers of a group count what is in it. -/
structure Counted (sb : Superblock) (ag : Ag) (own : Finset Nat) : Prop where
  blocks : agfFreeBlocks ag.agf + (own.card + inoNeed sb ag.chunks) + agRoots sb = ag.len
  longest_ge : ∀ e ∈ ag.free.entries, e.2 ≤ be32 ag.agf 56
  longest_le : ∀ m, (∀ e ∈ ag.free.entries, e.2 ≤ m) → be32 ag.agf 56 ≤ m
  inodes : agiInodes ag.agi =
    ((ag.chunks.values.map (·.count)).sum, (ag.chunks.values.map (·.freeCount)).sum)

section
variable {sb : Superblock} {ag ag' : Ag} {own : Finset Nat} {writes : List (Nat × Bytes)}

theorem le_foldl_max {x : Nat} : ∀ {xs : List Nat} {m : Nat}, x ≤ xs.foldl max m ↔
    x ≤ m ∨ ∃ y ∈ xs, x ≤ y
  | [], m => by simp
  | y :: ys, m => by
      rw [List.foldl_cons, le_foldl_max]
      simp only [le_max_iff, List.mem_cons, exists_eq_or_imp, or_assoc]

theorem foldl_max_le {m : Nat} : ∀ {xs : List Nat} {k : Nat}, xs.foldl max k ≤ m ↔
    k ≤ m ∧ ∀ y ∈ xs, y ≤ m
  | [], k => by simp
  | y :: ys, k => by
      rw [List.foldl_cons, foldl_max_le]
      simp only [max_le_iff, List.mem_cons, forall_eq_or_imp, and_assoc]

theorem blocks_pos (spec : AgSpec) (n bs : Nat) : 0 < spec.blocks n bs := by
  unfold AgSpec.blocks blocksFor levelSizes
  rw [List.sum_cons]
  have : 1 ≤ max (divCeil n (spec.leafMax bs)) 1 := Nat.le_max_right _ _
  omega

/-- A tree built in blocks that were carved. -/
theorem RebuildRun.tree (run : RebuildRun sb ag ag' writes) (hs : sb.Sound) (h : SpaceOk ag)
    (hlen : ag.len ≤ 2 ^ 31) {spec : AgSpec} {recs : List Rec} {agbnos : List Nat} {t : Built}
    (hspec : spec ∈ [BNO, CNT, RMAP, INOBT, FINOBT]) (hrec : ∀ r ∈ recs, RecOk spec r)
    (hsub : ∀ a ∈ agbnos, a ∈ expand run.agRun ++ expand run.inoRun)
    (hbuild : buildAg sb run.settled.agno spec recs agbnos = .ok t) :
    t.blocks.length = spec.blocks recs.length sb.blockSize ∧
      ∀ b ∈ t.blocks, b.1 < ag.len ∧ b.2.length = sb.blockSize := by
  have haddr : ∀ a ∈ agbnos, a < ag.len := fun a ha => (run.carved h).1 a (hsub a ha)
  obtain ⟨hl, hmax, hnode⟩ := layout_of_sound hs hspec
  obtain ⟨h1, h2, h3⟩ := length_of_buildAg hl hmax hnode hrec
    (fun a ha => by have := haddr a ha; omega) hbuild
  refine ⟨by rw [← h1, ← h2, List.length_map], fun b hb => ⟨haddr b.1 ?_, h3 b hb⟩⟩
  rw [← h2]
  exact List.mem_map_of_mem hb

/-- Each of the trees a rebuild makes. -/
theorem RebuildRun.all_trees (run : RebuildRun sb ag ag' writes) (hs : sb.Sound) (h : SpaceOk ag)
    (hlen : ag.len ≤ 2 ^ 31) : ∀ b ∈ run.trees.blocks, b.1 < ag.len ∧ b.2.length = sb.blockSize := by
  have hb := buildTrees_ok run.built
  have hino : ∀ {spec}, ∀ r ∈ inobtRecs sb run.settled ++ finobtRecs sb run.settled,
      spec = INOBT ∨ spec = FINOBT → RecOk spec r := fun r hr hspec => by
    have : ∃ c start, r = Chunk.encode c sb start := by
      rcases List.mem_append.mp hr with hr | hr
      · obtain ⟨e, -, rfl⟩ := List.mem_map.mp hr
        exact ⟨_, _, rfl⟩
      · obtain ⟨e, -, rfl⟩ := List.mem_map.mp hr
        exact ⟨_, _, rfl⟩
    obtain ⟨c, start, rfl⟩ := this
    rcases hspec with rfl | rfl
    · exact (recOk_chunk c start).1
    · exact (recOk_chunk c start).2
  have hleft : ∀ {k n a}, a ∈ ((expand run.agRun).drop k).take n →
      a ∈ expand run.agRun ++ expand run.inoRun := fun ha =>
    List.mem_append_left _ (List.mem_of_mem_drop (List.mem_of_mem_take ha))
  have hright : ∀ {k n a}, a ∈ ((expand run.inoRun).drop k).take n →
      a ∈ expand run.agRun ++ expand run.inoRun := fun ha =>
    List.mem_append_right _ (List.mem_of_mem_drop (List.mem_of_mem_take ha))
  intro b hmem
  unfold Trees.blocks at hmem
  simp only [List.mem_append] at hmem
  rcases hmem with (((hm | hm) | hm) | hm) | hm
  · refine (run.tree hs h hlen (by simp) (fun r hr => ?_) (fun a ha => ?_) hb.bno).2 b hm
    · obtain ⟨e, -, rfl⟩ := List.mem_map.mp hr
      exact (recOk_freeRec e).1
    · exact hleft (k := 0) ha
  · refine (run.tree hs h hlen (by simp) (fun r hr => ?_) (fun a ha => hleft ha) hb.cnt).2 b hm
    obtain ⟨e, -, rfl⟩ := List.mem_map.mp ((List.mem_insertionSort _).mp hr)
    exact (recOk_freeRec e).2
  · rcases buildIf_eq_ok.mp hb.rmap with ⟨-, t, ht, hopt⟩ | ⟨-, hopt⟩
    · rw [hopt] at hm
      refine (run.tree hs h hlen (by simp) (fun r hr => ?_) (fun a ha => ?_) ht).2 b hm
      · obtain ⟨x, -, rfl⟩ := List.mem_map.mp hr
        exact recOk_rmap x
      · exact List.mem_append_left _ (List.mem_of_mem_drop ha)
    · rw [hopt] at hm
      cases hm
  · exact (run.tree hs h hlen (by simp) (fun r hr => hino r (List.mem_append_left _ hr) (Or.inl rfl))
      (fun a ha => hright (k := 0) ha) hb.inobt).2 b hm
  · rcases buildIf_eq_ok.mp hb.finobt with ⟨-, t, ht, hopt⟩ | ⟨-, hopt⟩
    · rw [hopt] at hm
      exact (run.tree hs h hlen (by simp)
        (fun r hr => hino r (List.mem_append_right _ hr) (Or.inr rfl))
        (fun a ha => List.mem_append_right _ (List.mem_of_mem_drop ha)) ht).2 b hm
    · rw [hopt] at hm
      cases hm

/-- Every block carved goes to a tree. -/
theorem RebuildRun.treeBlocks (run : RebuildRun sb ag ag' writes) (hs : sb.Sound) (h : SpaceOk ag)
    (hlen : ag.len ≤ 2 ^ 31) : btreeBlocks run.trees + agRoots sb =
      agNeed sb run.settled.free.entries.length (merged run.settled.rmap).length := by
  have hb := buildTrees_ok run.built
  have hlength : ∀ {spec recs agbnos t}, spec ∈ [BNO, CNT, RMAP, INOBT, FINOBT] →
      (∀ r ∈ recs, RecOk spec r) → (∀ a ∈ agbnos, a ∈ expand run.agRun) →
      buildAg sb run.settled.agno spec recs agbnos = .ok t →
      t.blocks.length = spec.blocks recs.length sb.blockSize := fun hspec hrec hsub hbuild =>
    (run.tree hs h hlen hspec hrec (fun a ha => List.mem_append_left _ (hsub a ha)) hbuild).1
  have hbno := hlength (by simp) (fun r hr => by
    obtain ⟨e, -, rfl⟩ := List.mem_map.mp hr
    exact (recOk_freeRec e).1) (fun a ha => List.mem_of_mem_take ha) hb.bno
  have hcnt := hlength (by simp) (fun r hr => by
    obtain ⟨e, -, rfl⟩ := List.mem_map.mp ((List.mem_insertionSort _).mp hr)
    exact (recOk_freeRec e).2)
    (fun a ha => List.mem_of_mem_drop (List.mem_of_mem_take ha)) hb.cnt
  have hnb : (bnoRecs run.settled).length = run.settled.free.entries.length := List.length_map _
  have hnc : (cntRecs run.settled).length = run.settled.free.entries.length :=
    (List.length_insertionSort _ _).trans hnb
  have hb0 := blocks_pos BNO run.settled.free.entries.length sb.blockSize
  have hc0 := blocks_pos CNT run.settled.free.entries.length sb.blockSize
  rw [hnb] at hbno
  rw [hnc] at hcnt
  unfold btreeBlocks agRoots agNeed
  rcases buildIf_eq_ok.mp hb.rmap with ⟨hrm, t, ht, hopt⟩ | ⟨hrm, hopt⟩
  · have hrmap := hlength (by simp) (fun r hr => by
      obtain ⟨x, -, rfl⟩ := List.mem_map.mp hr
      exact recOk_rmap x) (fun a ha => List.mem_of_mem_drop ha) ht
    have hnr : (rmapRecs run.settled).length = (merged run.settled.rmap).length :=
      List.length_map _
    have hr0 := blocks_pos RMAP (merged run.settled.rmap).length sb.blockSize
    rw [hnr] at hrmap
    simp only [hopt, hrm, Option.elim_some, if_true]
    omega
  · simp only [hopt, hrm, Option.elim_none, Bool.false_eq_true, if_false]
    omega

/-- A rebuild keeps the blocks parted, and its headers count them. -/
theorem Parted.rebuilt (hs : sb.Sound) (h : Parted ag own) (hrun : rebuild sb ag = .ok writes ag') :
    Parted ag' own ∧ Counted sb ag' own := by
  obtain ⟨run⟩ := rebuild_ok hrun
  have hg := run.gaveBack h.space
  have hp := run.placed h.space
  have hbase := hg.spaceOk h.space.inside
  have hkeep : run.settled.agfl = ag.agfl ∧ run.settled.agf = ag.agf ∧ run.settled.agi = ag.agi ∧
      run.settled.chunks = ag.chunks ∧ run.base.chunks = ag.chunks ∧ run.base.len = ag.len := by
    rw [hp.same, hg.same]
    exact ⟨rfl, rfl, rfl, rfl, rfl, rfl⟩
  obtain ⟨hagfl, hagf, hagi, hchunks, hbchunks, hblen⟩ := hkeep
  have hfree : ag'.free = run.settled.free := (congrArg Ag.free run.out).trans (finished_free ..)
  have htotal : ag'.freeTotal = run.settled.freeTotal :=
    (congrArg Ag.freeTotal run.out).trans (finished_freeTotal ..)
  have hlen : ag'.len = ag.len :=
    (congrArg Ag.len run.out).trans ((finished_len ..).trans (run.len_eq h.space))
  have hold : ag'.oldTreeBlocks = expand run.agRun ++ expand run.inoRun :=
    (congrArg Ag.oldTreeBlocks run.out).trans (finished_old ..)
  have hfl : ag'.agfl = ag.agfl :=
    (congrArg Ag.agfl run.out).trans ((finished_agfl ..).trans hagfl)
  have hch : ag'.chunks = run.settled.chunks :=
    (congrArg Ag.chunks run.out).trans (finished_chunks ..)
  have hnewf : ag'.agf = newAgf run.settled run.trees :=
    (congrArg Ag.agf run.out).trans (finished_agf ..)
  have hnewi : ag'.agi = newAgi sb run.settled run.trees :=
    (congrArg Ag.agi run.out).trans (finished_agi ..)
  have hflen : AGF_CRC + 4 ≤ run.settled.agf.length := by
    rw [hagf]
    exact h.agfLen
  have hlong : AgiHolds sb run.settled.agi := by
    have := run.agiLength
    rw [not_or, not_and, not_and] at this
    exact ⟨by rw [hagi]; exact h.agiLen, fun h => by have := this.1 h; omega,
      fun h => by have := this.2 h; omega⟩
  have hfino : run.trees.finobt.isSome → sb.hasFinobt = true := fun hsome => by
    rcases buildIf_eq_ok.mp (buildTrees_ok run.built).finobt with ⟨hf, -⟩ | ⟨-, hnone⟩
    · exact hf
    · simp [hnone] at hsome
  have hparted : Parted ag' own := by
    refine ⟨⟨?_, ?_, fun b hb => ?_⟩, fun b => ?_, ?_, ?_, ?_, ?_⟩
    · rw [hfree]
      exact hp.freeOk
    · rw [htotal, hfree]
      exact hp.total
    · rw [hlen, ← hblen]
      rw [hfree] at hb
      exact hbase.inside b (by have := hp.at_ b; omega)
    · -- What was carved is what the old trees' blocks and the free space were.
      have h1 := h.once b
      have h2 := hg.at_ b
      have h3 := hp.at_ b
      rw [hfree, hfl, hold, hlen]
      rw [List.count_append] at h1 ⊢
      rw [List.count_append]
      unfold expand
      rw [count_flatMap_range', count_flatMap_range']
      omega
    · rw [hnewf, hfl, be32_newAgf_agfl hflen, hagf]
      exact h.agfl
    · rw [hnewf, length_newAgf hflen]
      exact hflen
    · rw [hnewi, length_newAgi hlong hfino]
      exact hlong.1
    · rw [hlen]
      exact h.short
  refine ⟨hparted, ?_⟩
  have hsum := hparted.sum
  have hlt : ag'.len < 2 ^ 32 := by
    have := hparted.short
    omega
  have hcounts := run.counts
  rw [not_or, Nat.not_le, Nat.not_le] at hcounts
  have hfield : ∀ {o v}, (o, v) ∈ agfFields run.settled run.trees → v < 2 ^ 32 →
      be32 ag'.agf o = v := fun hm hv => by
    rw [hnewf]
    exact be32_newAgf hflen hm hv
  have hfield' : ∀ {o v}, (o, v) ∈ agiFields sb run.settled run.trees → v < 2 ^ 32 →
      be32 ag'.agi o = v := fun hm hv => by
    rw [hnewi]
    exact be32_newAgi hlong hfino hm hv
  have htrees := run.treeBlocks hs h.space h.short
  have hagl := hp.agLength
  have hinol := hp.inoLength
  rw [← length_expand] at hagl hinol
  have holdlen : ag'.oldTreeBlocks.length = (expand run.agRun).length + (expand run.inoRun).length := by
    rw [hold, List.length_append]
  have h52 : be32 ag'.agf 52 = ag'.freeTotal := by
    rw [hparted.space.total, hfree]
    refine hfield ?_ ?_
    · simp [agfFields]
    · rw [← hfree, ← hparted.space.total]
      omega
  have h60 : be32 ag'.agf 60 = btreeBlocks run.trees :=
    hfield (by simp [agfFields]) (by omega)
  have h56 : be32 ag'.agf 56 = ag'.free.values.foldl max 0 := by
    rw [hfree]
    refine hfield (by simp [agfFields]) ?_
    -- No extent is longer than all the free space.
    have hle : run.settled.free.values.foldl max 0 ≤ ag'.freeTotal := by
      rw [foldl_max_le, hparted.space.total, hfree, sum_values]
      refine ⟨Nat.zero_le _, fun y hy => ?_⟩
      obtain ⟨e, he, rfl⟩ := List.mem_map.mp hy
      exact OrdMap.le_weight (fun e => e.2) he
    omega
  refine ⟨?_, fun e he => ?_, fun m hm => ?_, ?_⟩
  · unfold agfFreeBlocks
    rw [h52, hparted.agfl, h60, hch, hchunks, ← hbchunks]
    omega
  · rw [h56, le_foldl_max]
    exact Or.inr ⟨e.2, List.mem_map_of_mem he, le_refl _⟩
  · rw [h56, foldl_max_le]
    refine ⟨Nat.zero_le _, fun y hy => ?_⟩
    obtain ⟨e, he, rfl⟩ := List.mem_map.mp hy
    exact hm e he
  · unfold agiInodes
    rw [hch]
    exact Prod.ext (hfield' (by simp [agiFields]) hcounts.1) (hfield' (by simp [agiFields]) hcounts.2)

end

/-! ## Runs -/

/-- One successful operation of the writer on a group, with the blocks owned: a free is of
blocks somebody owns. -/
inductive AccStep (sb : Superblock) : Ag × Finset Nat → Ag × Finset Nat → Prop where
  | alloc {ag ag' : Ag} {own : Finset Nat} {want near s n : Nat}
      (h : alloc want near ag = .ok (some (s, n)) ag') :
      AccStep sb (ag, own) (ag', own ∪ Ico s (s + n))
  | allocAligned {ag ag' : Ag} {own : Finset Nat} {len align s : Nat} (hlen : 0 < len)
      (h : allocAligned len align ag = .ok (some s) ag') :
      AccStep sb (ag, own) (ag', own ∪ Ico s (s + len))
  | allocBlockExcept {ag ag' : Ag} {own : Finset Nat} {not b : Nat}
      (h : allocBlockExcept not ag = .ok (some b) ag') :
      AccStep sb (ag, own) (ag', own ∪ Ico b (b + 1))
  | freeExtent {ag ag' : Ag} {own : Finset Nat} {s n : Nat} (h : freeExtent s n ag = .ok () ag')
      (hown : Ico s (s + n) ⊆ own) : AccStep sb (ag, own) (ag', own \ Ico s (s + n))
  | rmapAdd {ag ag' : Ag} {own : Finset Nat} {s n owner offset : Nat}
      (h : rmapAdd sb s n owner offset ag = .ok () ag') : AccStep sb (ag, own) (ag', own)
  | rmapRemove {ag ag' : Ag} {own : Finset Nat} {s n owner : Nat}
      (h : rmapRemove sb s n owner ag = .ok () ag') : AccStep sb (ag, own) (ag', own)
  | allocChunk {ag ag' : Ag} {own : Finset Nat} {s : Nat}
      (h : allocChunk sb ag = .ok (some s) ag') :
      AccStep sb (ag, own) (ag', own ∪ Ico s (s + chunkBlocks sb))
  | allocInode {ag ag' : Ag} {own : Finset Nat} {r : Option Nat}
      (h : allocInode ag = .ok r ag') : AccStep sb (ag, own) (ag', own)
  | freeInode {ag ag' : Ag} {own : Finset Nat} {agino : Nat}
      (h : freeInode agino ag = .ok () ag') : AccStep sb (ag, own) (ag', own)
  | rebuild {ag ag' : Ag} {own : Finset Nat} {writes : List (Nat × Bytes)}
      (h : rebuild sb ag = .ok writes ag') : AccStep sb (ag, own) (ag', own)

section
variable {sb : Superblock}

theorem AccStep.parted (hs : sb.Sound) (hpos : 0 < chunkBlocks sb) {p q : Ag × Finset Nat}
    (h : Parted p.1 p.2) (hstep : AccStep sb p q) : Parted q.1 q.2 := by
  cases hstep with
  | alloc h1 => exact h.allocated (alloc_ok h.space.freeOk h1).1
  | allocAligned hlen h1 => exact h.allocated (allocAligned_ok h.space.freeOk hlen h1)
  | allocBlockExcept h1 => exact h.allocated (allocBlockExcept_ok h.space.freeOk h1).1
  | freeExtent h1 hown => exact h.freed h1 hown
  | rmapAdd h1 =>
      rw [rmapAdd_same h1]
      exact h.of_same rfl rfl rfl rfl rfl rfl rfl
  | rmapRemove h1 =>
      rw [rmapRemove_same h1]
      exact h.of_same rfl rfl rfl rfl rfl rfl rfl
  | allocChunk h1 =>
      rcases allocChunk_eq h.space.freeOk hpos with ⟨hno, -⟩ | ⟨s, ag1, hrun, -, hal, -⟩
      · rw [hno] at h1
        cases h1
      · rw [hrun] at h1
        cases h1
        exact (h.allocated hal).of_same rfl rfl rfl rfl rfl rfl rfl
  | allocInode h1 =>
      rw [allocInode_ok h1]
      exact h.of_same rfl rfl rfl rfl rfl rfl rfl
  | freeInode h1 =>
      rw [freeInode_ok h1]
      exact h.of_same rfl rfl rfl rfl rfl rfl rfl
  | rebuild h1 => exact (h.rebuilt hs h1).1

/-- A group as the volume holds it, with the blocks owned and the blocks of its inode
trees: until something changes, its headers count what is in it. -/
structure Held (sb : Superblock) (agno : Nat) (ag : Ag) (own : Finset Nat) (trees : Nat) : Prop where
  parted : Parted ag own
  agno_eq : ag.agno = agno
  agLen : sb.agLen agno = .ok ag.len
  agfLength : ag.agf.length = sb.sect
  agiLength : ag.agi.length = sb.sect
  trees_eq : trees = inoNeed sb ag.chunks
  clean : ag.dirty = false →
    agfFreeBlocks ag.agf + (own.card + inoNeed sb ag.chunks) + agRoots sb = ag.len

theorem RebuildRun.kept {ag ag' : Ag} {writes : List (Nat × Bytes)}
    (run : RebuildRun sb ag ag' writes) (h : SpaceOk ag) : ag'.agno = ag.agno ∧
      ag'.len = ag.len ∧ ag'.chunks = ag.chunks ∧ ag'.dirty = false ∧
      run.settled.agno = ag.agno ∧ run.settled.agf = ag.agf ∧ run.settled.agi = ag.agi := by
  have hs : run.settled.agno = ag.agno ∧ run.settled.agf = ag.agf ∧ run.settled.agi = ag.agi ∧
      run.settled.chunks = ag.chunks := by
    rw [(run.placed h).same, (run.gaveBack h).same]
    exact ⟨rfl, rfl, rfl, rfl⟩
  exact ⟨((congrArg Ag.agno run.out).trans (finished_agno ..)).trans hs.1,
    (congrArg Ag.len run.out).trans ((finished_len ..).trans (run.len_eq h)),
    ((congrArg Ag.chunks run.out).trans (finished_chunks ..)).trans hs.2.2.2,
    (congrArg Ag.dirty run.out).trans (finished_dirty ..), hs.1, hs.2.1, hs.2.2.1⟩

/-- What a rebuild does to a group that is held: its headers count again, and it writes
whole blocks of the group and its two headers. -/
theorem Held.rebuilt {agno trees : Nat} {ag ag' : Ag} {own : Finset Nat}
    {writes : List (Nat × Bytes)} (hs : sb.Sound) (h : Held sb agno ag own trees)
    (hrun : rebuild sb ag = .ok writes ag') :
    Held sb agno ag' own trees ∧ ag'.dirty = false ∧ ∀ w ∈ writes,
      (∃ b < ag.len, w.1 = sb.agbToByte agno b ∧ w.2.length = sb.blockSize) ∨
      (∃ n, (n = 1 ∨ n = 2) ∧ w.1 = headerAt sb agno n ∧ w.2.length = sb.sect) := by
  obtain ⟨hparted, hcounted⟩ := h.parted.rebuilt hs hrun
  obtain ⟨run⟩ := rebuild_ok hrun
  obtain ⟨hagno, hlen, hchunks, hdirty, hsagno, hsagf, hsagi⟩ := run.kept h.parted.space
  have hlong : AgiHolds sb run.settled.agi := by
    have := run.agiLength
    rw [not_or, not_and, not_and] at this
    exact ⟨by rw [hsagi]; exact h.parted.agiLen, fun h => by have := this.1 h; omega,
      fun h => by have := this.2 h; omega⟩
  have hfino : run.trees.finobt.isSome → sb.hasFinobt = true := fun hsome => by
    rcases buildIf_eq_ok.mp (buildTrees_ok run.built).finobt with ⟨hf, -⟩ | ⟨-, hnone⟩
    · exact hf
    · simp [hnone] at hsome
  have hagf : (newAgf run.settled run.trees).length = sb.sect := by
    rw [length_newAgf (by rw [hsagf]; exact h.parted.agfLen), hsagf, h.agfLength]
  have hagi : (newAgi sb run.settled run.trees).length = sb.sect := by
    rw [length_newAgi hlong hfino, hsagi, h.agiLength]
  have hnewf : ag'.agf = newAgf run.settled run.trees :=
    (congrArg Ag.agf run.out).trans (finished_agf ..)
  have hnewi : ag'.agi = newAgi sb run.settled run.trees :=
    (congrArg Ag.agi run.out).trans (finished_agi ..)
  refine ⟨⟨hparted, hagno.trans h.agno_eq, by rw [hlen]; exact h.agLen, by rw [hnewf]; exact hagf,
    by rw [hnewi]; exact hagi, by rw [hchunks]; exact h.trees_eq, fun _ => hcounted.blocks⟩, hdirty,
    fun w hw => ?_⟩
  rw [run.writes_eq, rebuildWrites, hsagno, h.agno_eq] at hw
  rcases List.mem_append.mp hw with hw | hw
  · obtain ⟨b, hb, rfl⟩ := List.mem_map.mp hw
    obtain ⟨h1, h2⟩ := run.all_trees hs h.parted.space h.parted.short b hb
    exact Or.inl ⟨b.1, h1, rfl, h2⟩
  · simp only [List.mem_cons, List.not_mem_nil, or_false] at hw
    rcases hw with rfl | rfl
    · exact Or.inr ⟨1, Or.inl rfl, rfl, hagf⟩
    · exact Or.inr ⟨2, Or.inr rfl, rfl, hagi⟩

/-- An operation that changes anything marks the group as changed. -/
theorem AccStep.held (hs : sb.Sound) (hpos : 0 < chunkBlocks sb) {agno trees : Nat} {ag ag' : Ag}
    {own own' : Finset Nat} (h : Held sb agno ag own trees)
    (hstep : AccStep sb (ag, own) (ag', own')) :
    Held sb agno ag' own' (inoNeed sb ag'.chunks) := by
  have hparted : Parted ag' own' := AccStep.parted hs hpos h.parted hstep
  have hmarked : ∀ {free total rmap chunks}, ag' = { ag with
      free := free, freeTotal := total, rmap := rmap, chunks := chunks, dirty := true } →
      Held sb agno ag' own' (inoNeed sb ag'.chunks) := by
    rintro free total rmap chunks rfl
    exact ⟨hparted, h.agno_eq, h.agLen, h.agfLength, h.agiLength, rfl, fun hd => by cases hd⟩
  have hsame : own' = own → ag' = ag → Held sb agno ag' own' (inoNeed sb ag'.chunks) := by
    rintro rfl rfl
    exact ⟨h.parted, h.agno_eq, h.agLen, h.agfLength, h.agiLength, rfl, h.clean⟩
  cases hstep with
  | alloc h1 =>
      obtain ⟨free', -, rfl⟩ := (alloc_ok h.parted.space.freeOk h1).1.takes
      exact hmarked rfl
  | allocAligned hlen h1 =>
      obtain ⟨free', -, rfl⟩ := (allocAligned_ok h.parted.space.freeOk hlen h1).takes
      exact hmarked rfl
  | allocBlockExcept h1 =>
      obtain ⟨free', -, rfl⟩ := (allocBlockExcept_ok h.parted.space.freeOk h1).1.takes
      exact hmarked rfl
  | freeExtent h1 hown =>
      obtain ⟨-, -, free', -, rfl⟩ := freeExtent_ok h.parted.space.freeOk h1
      exact hmarked rfl
  | rmapAdd h1 =>
      unfold Alloc.rmapAdd at h1
      split at h1
      · obtain ⟨-, rfl⟩ := EStateM.Result.ok.inj h1
        exact hmarked rfl
      · obtain ⟨-, rfl⟩ := EStateM.Result.ok.inj h1
        exact hsame rfl rfl
  | rmapRemove h1 =>
      unfold Alloc.rmapRemove at h1
      split at h1
      · obtain ⟨-, rfl⟩ := EStateM.Result.ok.inj h1
        exact hsame rfl rfl
      · obtain ⟨_, h1⟩ := act_throwIf_bind_eq_ok.mp h1
        simp only [get_bind_apply] at h1
        obtain ⟨removed, ag1, hcut, h1⟩ := bind_eq_ok.mp h1
        obtain ⟨-, -, rfl⟩ := cutHits_eq_ok.mp hcut
        obtain ⟨_, h1⟩ := act_throwIf_bind_eq_ok.mp h1
        obtain ⟨-, rfl⟩ := EStateM.Result.ok.inj h1
        exact hmarked rfl
  | allocChunk h1 =>
      rcases allocChunk_eq h.parted.space.freeOk hpos with ⟨hno, -⟩ | ⟨s, ag1, hrun, -, hal, -⟩
      · rw [hno] at h1
        cases h1
      · rw [hrun] at h1
        obtain ⟨-, rfl⟩ := EStateM.Result.ok.inj h1
        obtain ⟨free', -, rfl⟩ := hal.takes
        exact hmarked rfl
  | allocInode h1 =>
      rcases allocInode_eq_ok h1 with ⟨-, rfl⟩ | ⟨e, -, i, -, -, -, rfl⟩
      · exact hsame rfl rfl
      · exact hmarked rfl
  | freeInode h1 =>
      obtain ⟨e, -, -, -, rfl⟩ := freeInode_eq_ok h1
      exact hmarked rfl
  | rebuild h1 =>
      have hr := (h.rebuilt hs h1).1
      rw [← hr.trees_eq]
      exact hr

/-- A loaded group whose free extents and owned blocks part it. -/
theorem parted_of_loaded {dev : Device} {agno : Nat} {ag : Ag} {own : Finset Nat} (hs : sb.Sound)
    (hload : load dev sb agno = .ok ag)
    (h : ∀ b, freeAt ag.free b + (ag.agfl ++ ag.oldTreeBlocks).count b +
      (if b ∈ own then 1 else 0) = within 0 ag.len b) : Parted ag own := by
  obtain ⟨run⟩ := load_ok hload
  refine ⟨run.spaceOk, h, ?_, length_of_verify run.verified.1, length_of_verify run.verified.2,
    (Superblock.agLen_le run.agLen).1.trans hs.agBlocks_lt⟩
  have hfl := run.agfl
  unfold loadAgfl at hfl
  simp only [except_bind_eq_ok] at hfl
  obtain ⟨buf, -, _, -, hfl⟩ := hfl
  split at hfl
  · rename_i h0
    obtain h := Except.ok.inj hfl
    rw [h0, ← h]
    rfl
  · simp only [except_bind_eq_ok, except_throwIf_eq_ok] at hfl
    obtain ⟨_, -, _, hlen, hfl⟩ := hfl
    obtain h := Except.ok.inj hfl
    rw [← h]
    exact (not_not.mp hlen).symm

/-- A group just loaded is held, when the headers it was loaded from count it. -/
theorem held_of_loaded {dev : Device} {agno : Nat} {ag : Ag} {own : Finset Nat} (hs : sb.Sound)
    (hload : load dev sb agno = .ok ag)
    (h : ∀ b, freeAt ag.free b + (ag.agfl ++ ag.oldTreeBlocks).count b +
      (if b ∈ own then 1 else 0) = within 0 ag.len b)
    (hcount : agfFreeBlocks ag.agf + (own.card + inoNeed sb ag.chunks) + agRoots sb = ag.len) :
    Held sb agno ag own (inoNeed sb ag.chunks) := by
  have hparted := parted_of_loaded hs hload h
  obtain ⟨run⟩ := load_ok hload
  have hheaders := run.headers
  unfold readHeaders at hheaders
  simp only [except_bind_eq_ok] at hheaders
  obtain ⟨agf, h1, agi, h2, _, -, _, -, heq⟩ := hheaders
  obtain ⟨rfl, rfl⟩ := Prod.mk.inj (Except.ok.inj heq)
  exact ⟨hparted, run.agno_eq, run.agLen, Device.length_of_readAt h1, Device.length_of_readAt h2, rfl,
    fun _ => hcount⟩

end

end FioXfs.Alloc
