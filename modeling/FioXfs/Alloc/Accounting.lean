import FioXfs.Alloc.Load
import FioXfs.Alloc.Rebuild
set_option autoImplicit false

/-!
# Every block is accounted for

On a filesystem that keeps reverse mappings, free extents and mappings divide a
group's blocks between them.  The invariant adds what a rebuild relies on: the AG
and the inode trees own exactly the AGFL and the blocks of the trees as they were
read.  Every step of the writer keeps it, so every run does.
-/

namespace FioXfs.Alloc

open FioXfs.Lib FioXfs.Btree

/-! ## The invariant -/

/-- Each block of the group is in one free extent or one mapping, and the AG and the
inode trees own the AGFL's blocks and the trees' blocks, each once. -/
structure Accounted (ag : Ag) : Prop where
  freePos : ∀ e ∈ ag.free.entries, 0 < e.2
  rmapPos : ∀ e ∈ ag.rmap.entries, 0 < e.1.len
  total : ag.freeTotal = ag.free.values.sum
  once : ∀ b, freeAt ag.free b + mappedAt anyone ag.rmap b = within 0 ag.len b
  owned : ∀ b, mappedAt treeOwner ag.rmap b = (ag.agfl ++ ag.oldTreeBlocks).count b

namespace Accounted

variable {ag ag' : Ag}

theorem freeOk (h : Accounted ag) : FreeOk ag.free :=
  ⟨h.freePos, fun b => by have := h.once b; have := within_le_one 0 ag.len b; omega⟩

theorem rmapOk (h : Accounted ag) : RmapOk ag.rmap :=
  ⟨h.rmapPos, fun b => by have := h.once b; have := within_le_one 0 ag.len b; omega⟩

theorem exclusive (h : Accounted ag) : Exclusive ag := fun b => by
  rw [h.once b]
  exact within_le_one 0 ag.len b

/-- Chunks and the dirty flag are not counted. -/
theorem of_same (h : Accounted ag) (hfree : ag'.free = ag.free)
    (htotal : ag'.freeTotal = ag.freeTotal) (hrmap : ag'.rmap = ag.rmap) (hlen : ag'.len = ag.len)
    (hagfl : ag'.agfl = ag.agfl) (hold : ag'.oldTreeBlocks = ag.oldTreeBlocks) : Accounted ag' where
  freePos := hfree ▸ h.freePos
  rmapPos := hrmap ▸ h.rmapPos
  total := by rw [htotal, hfree, h.total]
  once b := by rw [hfree, hrmap, hlen, h.once]
  owned b := by rw [hrmap, hagfl, hold, h.owned]

end Accounted

/-! ## Taking and giving back -/

/-- An allocation whose run is then recorded as `owner`'s. -/
theorem accounted_of_allocated {sb : Superblock} (hrm : sb.hasRmapbt = true)
    {ag ag1 ag2 : Ag} {s n owner offset : Nat} {u : Unit} (h : Accounted ag)
    (ha : Allocated ag ag1 s n) (hown : treeOwner owner = false)
    (hadd : rmapAdd sb s n owner offset ag1 = .ok u ag2) :
    Accounted ag2 ∧ (Separate ag.free → Separate ag2.free) := by
  obtain ⟨free', htk, rfl⟩ := ha.takes
  simp only [rmapAdd, hrm, if_true, modify_apply, EStateM.Result.ok.injEq] at hadd
  obtain ⟨_, rfl⟩ := hadd
  have hn := ha.pos
  have hsum := htk.sum
  have htotal := h.total
  obtain ⟨hr, hat⟩ := @rmapAdd_run _ h.rmapOk ⟨s, owner, offset, n⟩ hn fun b hb => by
    have h1 := htk.at_ b
    have h2 := h.exclusive b
    simp only at hb
    omega
  refine ⟨⟨htk.pos, hr.pos, by simp only; omega, fun b => ?_, fun b => ?_⟩, htk.separate⟩
  · have h1 := htk.at_ b
    have h2 := h.once b
    have h3 := hat anyone b
    simp only [anyone_apply, if_true] at h3 ⊢
    omega
  · have h3 := hat treeOwner b
    simp only [hown, Bool.false_eq_true, if_false, Nat.add_zero] at h3
    rw [h3]
    exact h.owned b

/-- A run given back and its owner's mapping of it removed. -/
theorem accounted_of_freed {sb : Superblock} (hrm : sb.hasRmapbt = true)
    {ag ag1 ag2 : Ag} {s n owner : Nat} {u v : Unit} (h : Accounted ag)
    (hfree : freeExtent s n ag = .ok u ag1) (hown : treeOwner owner = false)
    (hrem : rmapRemove sb s n owner ag1 = .ok v ag2) :
    Accounted ag2 ∧ (Separate ag.free → Separate ag2.free) := by
  obtain ⟨hn, _, free', hp, rfl⟩ := freeExtent_ok h.freeOk hfree
  obtain ⟨rmap', hc, rfl⟩ := rmapRemove_ok hrm (by exact h.rmapOk) hn hrem
  have hsum := hp.sum
  have htotal := h.total
  refine ⟨⟨hp.freeOk.pos, hc.pos, by simp only; omega, fun b => ?_, fun b => ?_⟩, hp.separate⟩
  · have h1 := hp.at_ b
    have h2 := h.once b
    have h3 := hc.at_ anyone b
    simp only [anyone_apply, if_true] at h3 ⊢
    omega
  · have h3 := hc.at_ treeOwner b
    simp only [hown, Bool.false_eq_true, if_false, Nat.add_zero] at h3
    simp only [h3]
    exact h.owned b

/-! ## Rebuilding -/

theorem accounted_of_gaveBack {sb : Superblock} (hrm : sb.hasRmapbt = true) {ag base : Ag}
    {u : Unit} (h : Accounted ag) (hg : giveBack sb ag = .ok u base) :
    Accounted base ∧ base.oldTreeBlocks = [] ∧ base.len = ag.len ∧ base.agfl = ag.agfl ∧
      (Separate ag.free → Separate base.free) := by
  unfold giveBack at hg
  simp only [get_bind_apply, set_bind_apply] at hg
  obtain ⟨_, ag1, h1, hg⟩ := bind_eq_ok.mp hg
  obtain ⟨_, ag2, h2, h3⟩ := bind_eq_ok.mp hg
  simp only [modify_apply, EStateM.Result.ok.injEq] at h2
  obtain ⟨_, rfl⟩ := h2
  obtain ⟨hf1, ht1, -, hat1, -, hsep1, hs1, hr1⟩ := freeAll_ok (by exact h.freeOk) (by exact h.total) h1
  simp only at hat1 hr1
  rw [filter_treeOwner, hr1] at h3
  -- What is dropped is the AGFL and the old trees; the AGFL is put back.
  have hdrop : ∀ b, mappedAt anyone ag.rmap b =
      mappedAt anyone (ag.rmap.filter fun e => !treeOwner e.1.owner) b +
        (ag.agfl ++ ag.oldTreeBlocks).count b := by
    intro b
    rw [mappedAt_filter anyone treeOwner, ← h.owned b]
    simp
  have hagfl : ∀ b, withinRuns (ag.agfl.map (·, 1)) b = ag.agfl.count b :=
    withinRuns_singletons ag.agfl
  have hfilt : RmapOk (ag.rmap.filter fun e => !treeOwner e.1.owner) :=
    ⟨fun e he => h.rmapPos e (OrdMap.mem_filter.mp he).1, fun b => by
      have h1 := hdrop b
      have h2 := h.rmapOk.once b
      omega⟩
  have hnone : ∀ b, mappedAt treeOwner (ag.rmap.filter fun e => !treeOwner e.1.owner) b = 0 := by
    intro b
    have h1 := @mappedAt_filter ag.rmap treeOwner treeOwner b
    simp only [Bool.and_self] at h1
    change _ = _ + mappedAt treeOwner ag.rmap b at h1
    omega
  have hagfl1 : ag1.agfl = ag.agfl := by rw [hs1]
  have hlen1 : ag1.len = ag.len := by rw [hs1]
  have hold1 : ag1.oldTreeBlocks = [] := by rw [hs1]
  obtain ⟨hr3, hat3, hs3, hfr3, hft3⟩ := rmapAddAll_ok hfilt
    (by simp) (fun b => by
      have h1 := hdrop b
      have h2 := h.rmapOk.once b
      rw [List.count_append] at h1
      simp only [hagfl]
      omega) h3
  simp only [hagfl, hrm, Bool.true_and] at hat3
  have hold : base.oldTreeBlocks = [] := by rw [hs3]; exact hold1
  have hlen : base.len = ag.len := by rw [hs3]; exact hlen1
  have hag : base.agfl = ag.agfl := by rw [hs3]; exact hagfl1
  refine ⟨⟨?_, hr3.pos, ?_, ?_, ?_⟩, hold, hlen, hag, ?_⟩
  · rw [hfr3]
    exact hf1.pos
  · rw [hfr3, hft3]
    exact ht1
  · intro b
    have h1 := hat1 b
    have h2 := h.once b
    have h3 := hdrop b
    rw [List.count_append] at h3
    rw [hat3, hfr3, hlen]
    simp only [anyone_apply, if_true]
    omega
  · intro b
    rw [hat3, hnone, hold, hag]
    simp [treeOwner]
  · rw [hfr3]
    exact hsep1

theorem accounted_of_rebuilt {sb : Superblock} (hrm : sb.hasRmapbt = true) {ag ag' : Ag}
    {writes : List (Nat × Bytes)} (h : Accounted ag) (hr : rebuild sb ag = .ok writes ag') :
    Accounted ag' ∧ (Separate ag.free → Separate ag'.free) := by
  obtain ⟨run⟩ := rebuild_ok hr
  obtain ⟨hb, hold, hlen, hagfl, hsep⟩ := accounted_of_gaveBack hrm h run.gave
  have hs : Settled sb run.base run.settled run.agRun run.inoRun _ _ :=
    settle_ok hb.freeOk hb.total hb.rmapOk hb.exclusive (.refl _) run.settles
  rw [run.out]
  refine ⟨⟨?_, ?_, ?_, fun b => ?_, fun b => ?_⟩, ?_⟩
  · rw [finished_free]
    exact hs.freeOk.pos
  · rw [finished_rmap]
    exact hs.rmapOk.pos
  · rw [finished_freeTotal, finished_free]
    exact hs.total
  · have h1 := hs.at_ b
    have h2 := hb.once b
    have h3 := hs.mapped anyone b
    have h4 : run.settled.len = run.base.len := by rw [hs.same]
    simp only [hrm, anyone_apply, Bool.and_self, if_true] at h3
    rw [finished_free, finished_rmap, finished_len, h4]
    omega
  · have h1 := hb.owned b
    have h2 := hs.mapped treeOwner b
    have h3 : run.settled.agfl = run.base.agfl := by rw [hs.same]
    have h4 : treeOwner OWN_AG = true := rfl
    have h5 : treeOwner OWN_INOBT = true := rfl
    simp only [hrm, h4, h5, Bool.and_self, if_true] at h2
    rw [hold, List.append_nil] at h1
    rw [finished_rmap, finished_agfl, finished_old, h3]
    simp only [List.count_append, expand, count_flatMap_range']
    omega
  · rw [finished_free]
    exact fun h => hs.separate (hsep h)

/-! ## Runs -/

/-- One successful step of the writer on a group: an allocation and the record of its
owner, a free and the removal of its owner's mapping, the inode operations, and a
rebuild.  Owners are inodes or the inode chunks, whose mappings no rebuild works out. -/
inductive Step (sb : Superblock) : Ag → Ag → Prop where
  | alloc {ag ag1 ag2 : Ag} {want near s n owner offset : Nat}
      (h : alloc want near ag = .ok (some (s, n)) ag1) (hown : treeOwner owner = false)
      (hadd : rmapAdd sb s n owner offset ag1 = .ok () ag2) : Step sb ag ag2
  | allocAligned {ag ag1 ag2 : Ag} {len align s owner offset : Nat} (hlen : 0 < len)
      (h : allocAligned len align ag = .ok (some s) ag1) (hown : treeOwner owner = false)
      (hadd : rmapAdd sb s len owner offset ag1 = .ok () ag2) : Step sb ag ag2
  | allocBlockExcept {ag ag1 ag2 : Ag} {not b owner offset : Nat}
      (h : allocBlockExcept not ag = .ok (some b) ag1) (hown : treeOwner owner = false)
      (hadd : rmapAdd sb b 1 owner offset ag1 = .ok () ag2) : Step sb ag ag2
  | free {ag ag1 ag2 : Ag} {s n owner : Nat} (h : freeExtent s n ag = .ok () ag1)
      (hown : treeOwner owner = false) (hrem : rmapRemove sb s n owner ag1 = .ok () ag2) :
      Step sb ag ag2
  | allocChunk {ag ag' : Ag} {r : Option Nat} (h : allocChunk sb ag = .ok r ag') : Step sb ag ag'
  | allocInode {ag ag' : Ag} {r : Option Nat} (h : allocInode ag = .ok r ag') : Step sb ag ag'
  | freeInode {ag ag' : Ag} {agino : Nat} (h : freeInode agino ag = .ok () ag') : Step sb ag ag'
  | rebuild {ag ag' : Ag} {writes : List (Nat × Bytes)} (h : rebuild sb ag = .ok writes ag') :
      Step sb ag ag'

theorem Step.accounted {sb : Superblock} (hrm : sb.hasRmapbt = true)
    (hblocks : 0 < CHUNK_INODES / sb.inodesPerBlock) {ag ag' : Ag} (h : Accounted ag)
    (hstep : Step sb ag ag') : Accounted ag' ∧ (Separate ag.free → Separate ag'.free) := by
  cases hstep with
  | alloc ha hown hadd => exact accounted_of_allocated hrm h (alloc_ok h.freeOk ha).1 hown hadd
  | allocAligned hlen ha hown hadd =>
    exact accounted_of_allocated hrm h (allocAligned_ok h.freeOk hlen ha) hown hadd
  | allocBlockExcept ha hown hadd =>
    exact accounted_of_allocated hrm h (allocBlockExcept_ok h.freeOk ha).1 hown hadd
  | free hfree hown hrem => exact accounted_of_freed hrm h hfree hown hrem
  | allocChunk hc =>
    rcases allocChunk_ok h.freeOk hblocks hc with rfl | ⟨s, ag1, ag2, ha, hadd, heq⟩
    · exact ⟨h, id⟩
    · obtain ⟨h2, hsep⟩ := accounted_of_allocated hrm h ha (by decide) hadd
      rw [heq]
      exact ⟨h2.of_same rfl rfl rfl rfl rfl rfl, hsep⟩
  | allocInode hi =>
    rw [allocInode_ok hi]
    exact ⟨h.of_same rfl rfl rfl rfl rfl rfl, id⟩
  | freeInode hi =>
    rw [freeInode_ok hi]
    exact ⟨h.of_same rfl rfl rfl rfl rfl rfl, id⟩
  | rebuild hr => exact accounted_of_rebuilt hrm h hr

theorem run_accounted {sb : Superblock} (hrm : sb.hasRmapbt = true)
    (hblocks : 0 < CHUNK_INODES / sb.inodesPerBlock) {ag ag' : Ag} (h : Accounted ag)
    (hrun : Relation.ReflTransGen (Step sb) ag ag') :
    Accounted ag' ∧ (Separate ag.free → Separate ag'.free) :=
  run_relates (fun _ => id) (fun _ _ _ h1 h2 hs => h2 (h1 hs))
    (fun _ _ hs hst => hst.accounted hrm hblocks hs) h hrun

/-! ## From a loaded group -/

/-- The state a group is loaded in: its free extents and its mappings divide its blocks,
the AG's mappings are of the AGFL and the free-space and reverse-mapping trees, and the
inode trees' of the inode trees. -/
structure Consistent (ag : Ag) : Prop where
  once : ∀ b, freeAt ag.free b + mappedAt anyone ag.rmap b = within 0 ag.len b
  nonempty : ∀ e ∈ ag.rmap.entries, 0 < e.1.len
  owners : ∃ agTrees inoTrees, ag.oldTreeBlocks = agTrees ++ inoTrees ∧
    (∀ b, mappedAt (· == OWN_AG) ag.rmap b = (ag.agfl ++ agTrees).count b) ∧
    ∀ b, mappedAt (· == OWN_INOBT) ag.rmap b = inoTrees.count b

theorem mappedAt_treeOwner (rmap : OrdSet Rmap) (b : Nat) :
    mappedAt treeOwner rmap b = mappedAt (· == OWN_AG) rmap b + mappedAt (· == OWN_INOBT) rmap b := by
  unfold mappedAt OrdMap.weight
  rw [← List.sum_map_add]
  congr 2
  funext e
  unfold treeOwner
  by_cases h1 : e.1.owner = OWN_AG
  · simp [h1, OWN_AG, OWN_INOBT]
  · by_cases h2 : e.1.owner = OWN_INOBT <;> simp_all [OWN_AG, OWN_INOBT]

theorem accounted_of_loaded {dev : Device} {sb : Superblock} {agno : Nat} {ag : Ag}
    (hload : load dev sb agno = .ok ag) (h : Consistent ag) : Accounted ag := by
  obtain ⟨run⟩ := load_ok hload
  obtain ⟨agTrees, inoTrees, hold, hag, hino⟩ := h.owners
  refine ⟨run.freeOk.pos, h.nonempty, run.total, h.once, fun b => ?_⟩
  rw [mappedAt_treeOwner, hag, hino, hold]
  simp only [List.count_append]
  omega

/-- The free map is in order and apart, its total is right, and every block of the
group is in exactly one free extent or exactly one mapping. -/
structure BlocksOnce (ag : Ag) : Prop where
  nonempty : ∀ e ∈ ag.free.entries, 0 < e.2
  apart : ag.free.entries.Pairwise fun a b => a.1 < b.1 ∧ a.1 + a.2 ≤ b.1
  total : ag.freeTotal = ag.free.values.sum
  once : ∀ b < ag.len, freeAt ag.free b + mappedAt anyone ag.rmap b = 1

theorem Accounted.blocksOnce {ag : Ag} (h : Accounted ag) : BlocksOnce ag where
  nonempty := h.freePos
  apart := by
    refine ag.free.sorted.imp_of_mem fun ha hb hlt => ⟨hlt, h.freeOk.apart ha hb hlt⟩
  total := h.total
  once b hb := by rw [h.once b, within_eq_one]; omega

/-- Over any run of successful steps from a consistent loaded group, every block stays
in exactly one place. -/
theorem blocks_accounted {buf : Bytes} {dev : Device} {sb : Superblock} {agno : Nat} {ag ag' : Ag}
    (hsb : Superblock.parse buf = .ok sb) (hw : sb.checkWritable = .ok ())
    (hrm : sb.hasRmapbt = true) (hload : load dev sb agno = .ok ag) (hc : Consistent ag)
    (hrun : Relation.ReflTransGen (Step sb) ag ag') :
    BlocksOnce ag' ∧ (Separate ag.free → Separate ag'.free) := by
  have hblocks : 0 < CHUNK_INODES / sb.inodesPerBlock :=
    Nat.div_pos (Superblock.checkWritable_ok hw).2.2 (Superblock.sound_of_parse hsb).inodesPerBlock_pos
  obtain ⟨h, hsep⟩ := run_accounted hrm hblocks (accounted_of_loaded hload hc) hrun
  exact ⟨h.blocksOnce, hsep⟩

theorem consistent_fresh : Consistent (freshAg 16 true) := by
  refine ⟨fun b => ?_, by decide, [4, 5, 6], [7], by decide, fun b => ?_, fun b => ?_⟩
  · change (within 8 8 b + 0) + (within 0 4 b + (within 4 3 b + (within 7 1 b + 0))) = within 0 16 b
    unfold within
    split_ifs <;> omega
  · change 0 + (within 4 3 b + (0 + 0)) = List.count b [4, 5, 6]
    simp only [List.count_cons, List.count_nil, beq_iff_eq]
    unfold within
    split_ifs <;> omega
  · change 0 + (0 + (within 7 1 b + 0)) = List.count b [7]
    simp only [List.count_cons, List.count_nil, beq_iff_eq]
    unfold within
    split_ifs <;> omega

set_option maxRecDepth 100000 in
/-- A small group on which a block is allocated and the trees are then rebuilt. -/
theorem blocks_accounted_fresh : ∃ ag1 ag' : Ag,
    Step (freshSb 16 true) (freshAg 16 true) ag1 ∧ Step (freshSb 16 true) ag1 ag' ∧
      BlocksOnce ag' ∧ Separate ag'.free := by
  have halloc : alloc 1 0 (freshAg 16 true) = .ok (some (8, 1))
      { freshAg 16 true with free := .ofList [(9, 7)], freeTotal := 7, dirty := true } := rfl
  obtain ⟨_, ag', hre⟩ := exists_of_isOk (r := rebuild (freshSb 16 true)
      { freshAg 16 true with
        free := .ofList [(9, 7)], freeTotal := 7, dirty := true
        rmap := (freshAg 16 true).rmap.insert ⟨8, 131, 0, 1⟩ () }) (by decide +kernel)
  have hadd : rmapAdd (freshSb 16 true) 8 1 131 0
      { freshAg 16 true with free := .ofList [(9, 7)], freeTotal := 7, dirty := true } =
      .ok () { freshAg 16 true with
        free := .ofList [(9, 7)], freeTotal := 7, dirty := true
        rmap := (freshAg 16 true).rmap.insert ⟨8, 131, 0, 1⟩ () } := rfl
  have h1 : Step (freshSb 16 true) _ _ := .alloc halloc (by decide) hadd
  have h2 := Step.rebuild hre
  have hsep : Separate (freshAg 16 true).free := by
    intro a ha b hb
    obtain rfl : a = (8, 8) := List.mem_singleton.mp ha
    obtain rfl : b = (8, 8) := List.mem_singleton.mp hb
    decide
  obtain ⟨hb, hsep'⟩ := blocks_accounted parse_fresh (by decide) (by decide) load_fresh consistent_fresh
    ((Relation.ReflTransGen.single h1).tail h2)
  exact ⟨_, ag', h1, h2, hb, hsep' hsep⟩

end FioXfs.Alloc
