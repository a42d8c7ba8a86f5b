import FioXfs.Alloc.Headers
import FioXfs.Alloc.ReadBack
import FioXfs.Alloc.Rebuild
set_option autoImplicit false

/-!
# What a rebuild writes

The blocks a rebuild carves lie in the group, each tree is built of exactly its records,
and its blocks on the device traverse back to them from the root the headers name.
-/

namespace FioXfs.Alloc

open FioXfs.Lib FioXfs.Btree Finset

/-! ## The blocks carved -/

section
variable {sb : Superblock} {ag ag' : Ag} {writes : List (Nat × Bytes)}

/-- Counting the free extents over the group gives their lengths. -/
theorem sum_freeAt {free : OrdMap Nat Nat} {len : Nat} (hpos : ∀ e ∈ free.entries, 0 < e.2)
    (h : ∀ b, 0 < freeAt free b → b < len) : ∑ b ∈ range len, freeAt free b = free.values.sum := by
  have hin : ∀ e ∈ free.entries, e.1 + e.2 ≤ len := fun e he => by
    have := hpos e he
    have := h (e.1 + e.2 - 1) (freeAt_pos_of_mem he (by omega))
    omega
  unfold freeAt OrdMap.weight OrdMap.values
  clear hpos h
  generalize free.entries = es at hin
  induction es with
  | nil => simp
  | cons e es ih =>
      simp only [List.map_cons, List.sum_cons, Finset.sum_add_distrib]
      rw [ih fun x hx => hin x (List.mem_cons_of_mem _ hx),
        sum_within (hin e List.mem_cons_self)]

theorem SpaceOk.total_le (h : SpaceOk ag) : ag.freeTotal ≤ ag.len := by
  rw [h.total, ← sum_freeAt h.freeOk.pos h.inside]
  calc ∑ b ∈ range ag.len, freeAt ag.free b ≤ ∑ _b ∈ range ag.len, 1 :=
        Finset.sum_le_sum fun b _ => h.freeOk.once b
    _ = ag.len := by simp

theorem GaveBack.spaceOk {base : Ag} (h : GaveBack ag base) (hin : ∀ b, 0 < freeAt ag.free b → b < ag.len) :
    SpaceOk base := by
  have hlen : base.len = ag.len := by rw [h.same]
  refine ⟨h.freeOk, h.total, fun b hb => ?_⟩
  rw [hlen]
  rw [h.at_] at hb
  rcases Nat.eq_zero_or_pos (freeAt ag.free b) with h0 | hpos
  · exact h.inside b (List.count_pos_iff.mp (by omega))
  · exact hin b hpos

variable (run : RebuildRun sb ag ag' writes)

theorem RebuildRun.gaveBack (h : SpaceOk ag) : GaveBack ag run.base :=
  giveBack_space h.freeOk h.total run.gave

theorem RebuildRun.placed (h : SpaceOk ag) : Placed run.base run.settled run.agRun run.inoRun
    (agNeed sb run.settled.free.entries.length (merged run.settled.rmap).length)
    (inoNeed sb run.base.chunks) :=
  have hg := run.gaveBack h
  settle_placed hg.freeOk hg.total (.refl _) run.settles

theorem mem_expand {runs : List (Nat × Nat)} {b : Nat} (h : b ∈ expand runs) :
    0 < withinRuns runs b := by
  rw [← count_flatMap_range']
  exact List.count_pos_iff.mpr h

theorem length_expand (runs : List (Nat × Nat)) : (expand runs).length = (runs.map (·.2)).sum := by
  unfold expand
  rw [List.length_flatMap]
  simp

theorem RebuildRun.len_eq (h : SpaceOk ag) : run.settled.len = ag.len := by
  rw [(run.placed h).same, (run.gaveBack h).same]

theorem RebuildRun.mem_writes {w : Nat × Bytes}
    (h : w ∈ rebuildWrites sb run.settled run.trees) : w ∈ writes := by
  rw [run.writes_eq]
  exact h

/-- The blocks carved lie in the group, and no two are the same. -/
theorem RebuildRun.carved (h : SpaceOk ag) :
    (∀ b ∈ expand run.agRun ++ expand run.inoRun, b < ag.len) ∧
      (expand run.agRun ++ expand run.inoRun).Nodup ∧
      (expand run.agRun).length ≤ ag.len ∧ (expand run.inoRun).length ≤ ag.len := by
  have hg := run.gaveBack h
  have hp := run.placed h
  have hbase := hg.spaceOk h.inside
  have hlen : run.base.len = ag.len := by rw [hg.same]
  have htotal := hbase.total_le
  have hcount := hp.count
  have hcov : ∀ b, (expand run.agRun ++ expand run.inoRun).count b ≤ freeAt run.base.free b := by
    intro b
    have := hp.at_ b
    rw [List.count_append]
    unfold expand
    rw [count_flatMap_range', count_flatMap_range']
    omega
  refine ⟨fun b hb => ?_, List.nodup_iff_count_le_one.mpr fun b => ?_, ?_, ?_⟩
  · rw [← hlen]
    exact hbase.inside b (Nat.lt_of_lt_of_le (List.count_pos_iff.mpr hb) (hcov b))
  · exact (hcov b).trans (hbase.freeOk.once b)
  · rw [length_expand, hp.agLength]
    omega
  · rw [length_expand, hp.inoLength]
    omega

end

/-! ## The trees built -/

/-- The records of each tree. -/
def bnoRecs (ag : Ag) : List Rec := ag.free.entries.map freeRec
def cntRecs (ag : Ag) : List Rec := (bnoRecs ag).insertionSort cntLe
def rmapRecs (ag : Ag) : List Rec := (merged ag.rmap).map Rmap.record
def inobtRecs (sb : Superblock) (ag : Ag) : List Rec := ag.chunks.entries.map fun e => e.2.encode sb e.1
def finobtRecs (sb : Superblock) (ag : Ag) : List Rec :=
  (ag.chunks.entries.filter fun e => decide (0 < e.2.freeCount)).map fun e => e.2.encode sb e.1

/-- Each tree is built of its records, in its share of the blocks. -/
structure Built5 (sb : Superblock) (ag : Ag) (agList inoList : List Nat) (t : Trees) : Prop where
  bno : buildAg sb ag.agno BNO (bnoRecs ag)
    (agList.take (BNO.blocks (bnoRecs ag).length sb.blockSize)) = .ok t.bno
  cnt : buildAg sb ag.agno CNT (cntRecs ag)
    ((agList.drop (BNO.blocks (bnoRecs ag).length sb.blockSize)).take
      (CNT.blocks (cntRecs ag).length sb.blockSize)) = .ok t.cnt
  rmap : buildIf sb.hasRmapbt (buildAg sb ag.agno RMAP (rmapRecs ag)
    (agList.drop (BNO.blocks (bnoRecs ag).length sb.blockSize +
      CNT.blocks (cntRecs ag).length sb.blockSize))) = .ok t.rmap
  inobt : buildAg sb ag.agno INOBT (inobtRecs sb ag)
    (inoList.take (INOBT.blocks (inobtRecs sb ag).length sb.blockSize)) = .ok t.inobt
  finobt : buildIf sb.hasFinobt (buildAg sb ag.agno FINOBT (finobtRecs sb ag)
    (inoList.drop (INOBT.blocks (inobtRecs sb ag).length sb.blockSize))) = .ok t.finobt

theorem Rmap.record_of_encode {r : Rmap} {x : Rec} (h : r.encode = .ok x) : x = r.record := by
  unfold Rmap.encode at h
  simp only [except_bind_eq_ok] at h
  obtain ⟨_, -, _, -, h⟩ := h
  exact (Except.ok.inj h).symm

theorem map_record_of_mapM : ∀ {rs : List Rmap} {xs : List Rec}, rs.mapM Rmap.encode = .ok xs →
    xs = rs.map Rmap.record := by
  intro rs
  induction rs with
  | nil =>
    intro xs h
    exact (Except.ok.inj h).symm
  | cons r rs ih =>
    intro xs h
    simp only [List.mapM_cons, except_bind_eq_ok] at h
    obtain ⟨x, hx, xs', hxs, h⟩ := h
    rw [← Except.ok.inj h, Rmap.record_of_encode hx, ih hxs, List.map_cons]

theorem buildTrees_ok {sb : Superblock} {ag : Ag} {agList inoList : List Nat} {t : Trees}
    (h : buildTrees sb ag agList inoList = .ok t) : Built5 sb ag agList inoList t := by
  unfold buildTrees at h
  simp only [except_bind_eq_ok, except_throwIf_eq_ok] at h
  obtain ⟨rs, hrs, xs, hxs, _, _, bno, h1, cnt, h2, rmap, h3, _, _, inobt, h4, finobt, h5, h6⟩ := h
  obtain ⟨-, rfl⟩ := mergedRmap_eq_ok.mp hrs
  obtain rfl := map_record_of_mapM hxs
  obtain rfl := Except.ok.inj h6
  exact ⟨h1, h2, h3, h4, h5⟩

theorem buildIf_eq_ok {c : Bool} {x : Result Built} {t : Option Built} :
    buildIf c x = .ok t ↔ (c = true ∧ ∃ b, x = .ok b ∧ t = some b) ∨ (c = false ∧ t = none) := by
  unfold buildIf
  cases c with
  | false => simp [eq_comm]
  | true =>
      cases x with
      | error e => simp [Functor.map, Except.map]
      | ok b => simp [Functor.map, Except.map, eq_comm]

/-! ## The trees on the device -/

section
variable {sb : Superblock} {ag : Ag} {spec : AgSpec} {agno : Nat} {dev : Device} {name : String}

/-- A tree that was built and written traverses from its root to its records. -/
theorem reads_of_buildAg {recs : List Rec} {agbnos : List Nat} {t : Built} (hs : sb.Sound)
    (hspec : spec ∈ [BNO, CNT, RMAP, INOBT, FINOBT]) (hrec : ∀ r ∈ recs, RecOk spec r)
    (haddr : ∀ a ∈ agbnos, a < 2 ^ 32) (hlen : agbnos.length ≤ 2 ^ 32)
    (hbuild : buildAg sb agno spec recs agbnos = .ok t)
    (hon : ∀ b ∈ t.blocks, dev.readAt (sb.agbToByte agno b.1) b.2.length = .ok b.2) :
    ∃ bs, collect (nodeOf (readTreeBlock dev sb agno spec name)) (t.levels - 1) t.root =
        some (recs.map (·.data), bs) ∧ bs.Perm agbnos ∧ 0 < t.levels ∧ t.levels ≤ 33 ∧
      t.root ∈ agbnos := by
  obtain ⟨hl, hmax, hnode⟩ := layout_of_sound hs hspec
  have hlv := levels_le_of_buildAg hnode hbuild hlen
  obtain ⟨-, -, hblen⟩ := length_of_buildAg hl hmax hnode hrec haddr hbuild
  obtain ⟨bs, hcol, hperm, -, hpos, hroot⟩ := @collect_buildAg dev sb agno spec name recs agbnos t
    hl hmax hnode hrec haddr (by omega) hbuild fun b hb => by rw [← hblen b hb]; exact hon b hb
  exact ⟨bs, hcol, hperm, hpos, hlv, hroot⟩

theorem recOk_freeRec (e : Nat × Nat) : RecOk BNO (freeRec e) ∧ RecOk CNT (freeRec e) := by
  simp [RecOk, freeRec, BNO, CNT]

theorem recOk_rmap (r : Rmap) : RecOk RMAP r.record := by
  simp [RecOk, Rmap.record, RMAP]

theorem recOk_chunk (c : Chunk) (start : Nat) :
    RecOk INOBT (c.encode sb start) ∧ RecOk FINOBT (c.encode sb start) := by
  unfold RecOk Chunk.encode INOBT FINOBT
  cases sb.hasSparseInodes <;> simp

/-- A write stands on the device. -/
def Stands (dev : Device) (writes : List (Nat × Bytes)) : Prop :=
  ∀ w ∈ writes, dev.readAt w.1 w.2.length = .ok w.2

variable {ag' : Ag} {writes : List (Nat × Bytes)}

/-- The free inode tree a rebuild writes, read from the root and height its AGI names,
holds the chunks with a free inode that is there, in order, and no others. -/
theorem finobt_reads (hs : sb.Sound) (h : SpaceOk ag) (hlen : ag.len ≤ 2 ^ 31)
    (hagi : AGI_CRC + 4 ≤ ag.agi.length) (hfino : sb.hasFinobt = true)
    (hrun : rebuild sb ag = .ok writes ag') (hon : Stands dev writes) :
    ∃ blocks, collect (nodeOf (readTreeBlock dev sb ag.agno FINOBT name)) (be32 ag'.agi 332 - 1)
      (be32 ag'.agi 328) = some ((finobtRecs sb ag).map (·.data), blocks) := by
  obtain ⟨run⟩ := rebuild_ok hrun
  have hsame : run.settled.agi = ag.agi ∧ run.settled.agno = ag.agno ∧
      run.settled.chunks = ag.chunks := by
    rw [(run.placed h).same, (run.gaveBack h).same]
    exact ⟨rfl, rfl, rfl⟩
  obtain ⟨hagieq, hagno, hchunks⟩ := hsame
  have hb := buildTrees_ok run.built
  rcases buildIf_eq_ok.mp hb.finobt with ⟨-, t, ht, hopt⟩ | ⟨hno, -⟩
  swap
  · rw [hfino] at hno
    cases hno
  obtain ⟨haddr, -, -, hinolen⟩ := run.carved h
  have hblocks : ∀ b ∈ t.blocks, dev.readAt (sb.agbToByte run.settled.agno b.1) b.2.length =
      .ok b.2 := by
    intro b hb
    refine hon (_, b.2) (run.mem_writes (List.mem_append_left _ (List.mem_map.mpr ⟨b, ?_, rfl⟩)))
    unfold Trees.blocks
    rw [hopt]
    exact List.mem_append_right _ hb
  obtain ⟨bs, hcol, -, hpos, hlv, hroot⟩ := @reads_of_buildAg sb FINOBT run.settled.agno dev name _ _ t hs
    (by simp) (fun r hr => by
      obtain ⟨e, -, rfl⟩ := List.mem_map.mp hr
      exact (recOk_chunk _ _).2)
    (fun a ha => by
      have := haddr a (List.mem_append_right _ (List.mem_of_mem_drop ha))
      omega)
    (by rw [List.length_drop]; omega) ht hblocks
  have hroot' := haddr _ (List.mem_append_right _ (List.mem_of_mem_drop hroot))
  have hlong : AgiHolds sb run.settled.agi := by
    have := run.agiLength
    rw [not_or, not_and, not_and] at this
    exact ⟨hagieq ▸ hagi, fun h => by have := this.1 h; omega, fun h => by have := this.2 h; omega⟩
  have hfield : ∀ {o v}, (o, v) ∈ [(328, t.root), (332, t.levels)] → v < 2 ^ 32 →
      be32 (newAgi sb run.settled run.trees) o = v := fun hm hv =>
    be32_newAgi hlong (fun _ => hfino) (List.mem_append_left _ (List.mem_append_right _
      (by rw [hopt]; exact hm))) hv
  rw [run.out]
  refine ⟨bs, ?_⟩
  change collect _ (be32 (newAgi sb run.settled run.trees) 332 - 1)
    (be32 (newAgi sb run.settled run.trees) 328) = _
  rw [hfield (by simp) (show t.levels < 2 ^ 32 by omega), hfield (by simp) (show t.root < 2 ^ 32 by omega),
    ← hagno, hcol]
  unfold finobtRecs
  rw [hchunks]

end

end FioXfs.Alloc
