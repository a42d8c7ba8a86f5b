import FioXfs.Alloc.Owners
import FioXfs.Alloc.Rebuilt
set_option autoImplicit false

/-!
# A group's records, stored and read

Every record of a group comes back from the bytes it was stored in, and a tree of records that
was written is walked from its root: it is within the height and the size the reader follows.
-/

namespace FioXfs.Alloc

open FioXfs.Lib FioXfs.Btree

/-! ## Records -/

/-- A chunk as its record holds it: without sparse inodes a record has no room for holes. -/
structure Chunk.Stored (sb : Superblock) (e : Nat × Chunk) : Prop where
  start : e.1 < 2 ^ 32
  free : e.2.free < 2 ^ 64
  sparse : sb.hasSparseInodes = true → e.2.holemask < 2 ^ 16 ∧ e.2.count < 2 ^ 8
  whole : sb.hasSparseInodes = false → e.2.holemask = 0 ∧ e.2.count = 64

section
variable {sb : Superblock} {e : Nat × Nat} {r last : Rmap} {rs : List Rmap}

theorem extentOf_freeRec (h1 : e.1 < 2 ^ 32) (h2 : e.2 < 2 ^ 32) : extentOf (freeRec e).data = e := by
  have hstart : be32 (toBe 4 e.1 ++ toBe 4 e.2) 0 = e.1 := getBe_toBe_append _ (h1.trans_eq (by norm_num))
  have hlen : be32 (toBe 4 e.1 ++ toBe 4 e.2) 4 = e.2 := by
    have hright := @getBe_append 4 (toBe 4 e.1) (toBe 4 e.2) 0
    rw [length_toBe] at hright
    rw [be32, hright]
    exact getBe_toBe (h2.trans_eq (by norm_num))
  exact Prod.ext hstart hlen

theorem Rmap.decode_record (h : r.Stored) : Rmap.decode r.record.data = r := by
  have hdata : r.record.data =
      toBe 4 r.start ++ (toBe 4 r.len ++ (toBe 8 r.owner ++ (toBe 8 r.offset ++ []))) := by
    simp [Rmap.record, List.append_assoc]
  unfold Rmap.decode be32 be64
  rw [hdata]
  have h1 := @getBe_field 4 r.start [] (toBe 4 r.len ++ (toBe 8 r.owner ++ (toBe 8 r.offset ++ [])))
    (h.start.trans_eq (by norm_num)) 0 rfl
  have h2 := @getBe_field 4 r.len (toBe 4 r.start) (toBe 8 r.owner ++ (toBe 8 r.offset ++ []))
    (h.len.trans_eq (by norm_num)) 4 (length_toBe _ _)
  have h3 := @getBe_field 8 r.owner (toBe 4 r.start ++ toBe 4 r.len) (toBe 8 r.offset ++ [])
    (h.owner.trans_eq (by norm_num)) 8 (by simp)
  have h4 := @getBe_field 8 r.offset (toBe 4 r.start ++ toBe 4 r.len ++ toBe 8 r.owner) []
    (h.offset.trans_eq (by norm_num)) 16 (by simp)
  simp only [List.append_assoc, List.nil_append] at h1 h2 h3 h4
  rw [h1, h2, h3, h4]

theorem Chunk.decode_encode {c : Nat × Chunk} (h : Chunk.Stored sb c) :
    be32 (c.2.encode sb c.1).data 0 = c.1 ∧ Chunk.decode sb (c.2.encode sb c.1).data = c.2 := by
  obtain ⟨start, holemask, count, free⟩ := c
  have hfree : free < 256 ^ 8 := h.free.trans_eq (by norm_num)
  have hstart : start < 256 ^ 4 := h.start.trans_eq (by norm_num)
  have hfirst : ∀ post, getBe 4 (toBe 4 start ++ post) 0 = start := fun post =>
    getBe_toBe_append post hstart
  cases hsparse : sb.hasSparseInodes with
  | true =>
    obtain ⟨hmask, hcount⟩ := h.sparse hsparse
    have h1 := @getBe_field 2 holemask (toBe 4 start)
      (toBe 1 count ++ (toBe 1 (Chunk.freeCount ⟨holemask, count, free⟩) ++ toBe 8 free))
      (hmask.trans_eq (by norm_num)) 4 (length_toBe _ _)
    have h2 := @getBe_field 1 count (toBe 4 start ++ toBe 2 holemask)
      (toBe 1 (Chunk.freeCount ⟨holemask, count, free⟩) ++ toBe 8 free)
      (hcount.trans_eq (by norm_num)) 6 (by simp)
    have h3 := @getBe_field 8 free (toBe 4 start ++ toBe 2 holemask ++ toBe 1 count ++
      toBe 1 (Chunk.freeCount ⟨holemask, count, free⟩)) [] hfree 8 (by simp)
    simp only [List.append_assoc, List.append_nil] at h1 h2 h3
    simp only [Chunk.encode, Chunk.decode, hsparse, if_true, be32, be16, be64, List.append_assoc]
    exact ⟨hfirst _, by rw [h1, h2, h3]⟩
  | false =>
    obtain ⟨rfl, rfl⟩ := h.whole hsparse
    have h3 := @getBe_field 8 free (toBe 4 start ++ toBe 4 (Chunk.freeCount ⟨0, 64, free⟩)) [] hfree 8
      (by simp)
    simp only [List.append_assoc, List.append_nil] at h3
    simp only [Chunk.encode, Chunk.decode, hsparse, Bool.false_eq_true, if_false, be32, be64,
      List.append_assoc]
    exact ⟨hfirst _, by rw [h3]⟩

/-! ## Merged mappings -/

theorem Rmap.start_le (h : last ≤ r) : last.start ≤ r.start := by
  by_contra hlt
  exact absurd h (not_le.mpr (Rmap.lt_of_start_lt (not_le.mp hlt)))

/-- A record that has grown does not come before what it was. -/
theorem Rmap.le_grown {l : Nat} (h : r.len ≤ l) : r ≤ { r with len := l } := by
  change Rmap.key r ≤ Rmap.key _
  simpa [Rmap.key, Prod.Lex.toLex_le_toLex] using h

/-- A record continued comes before all that its continuation comes before. -/
theorem Rmap.extend_lt {z : Rmap} (hlr : last < r) (hjoin : last.joins r = true) (hrz : r < z) :
    last.extend r < z := by
  obtain ⟨howner, hstop, -, -⟩ := Rmap.joins_iff.mp hjoin
  unfold Rmap.stop at hstop
  rcases Nat.eq_zero_or_pos last.len with hzero | hpos
  · -- an empty record is continued where it starts
    refine lt_of_le_of_lt ?_ hrz
    change Rmap.key _ ≤ Rmap.key _
    have hkey : Rmap.key last < Rmap.key r := hlr
    simp only [Rmap.key, Rmap.extend, Prod.Lex.toLex_le_toLex, Prod.Lex.toLex_lt_toLex] at hkey ⊢
    omega
  · have := Rmap.start_le hrz.le
    exact Rmap.lt_of_start_lt (by simp only [Rmap.extend]; omega)

theorem Rmap.Stored.extend (h : last.Stored) (hjoin : last.joins r = true) : (last.extend r).Stored := by
  have hlen := (Rmap.joins_iff.mp hjoin).2.2.1
  exact ⟨h.start, by simp only [Rmap.extend]; omega, h.owner, h.offset⟩

/-- Each record of a merged list is one of the list, as far as it has grown. -/
theorem mem_mergeFrom : ∀ {rs : List Rmap} {last x : Rmap}, x ∈ mergeFrom last rs →
    (∀ r ∈ last :: rs, r.Stored) → x.Stored ∧ ∃ y ∈ last :: rs, y.len ≤ x.len ∧ x = { y with len := x.len } := by
  intro rs
  induction rs with
  | nil =>
    intro last x hx hs
    obtain rfl := List.mem_singleton.mp hx
    exact ⟨hs _ hx, x, hx, le_refl _, rfl⟩
  | cons r rs ih =>
    intro last x hx hs
    have hlast := hs last List.mem_cons_self
    have htail : ∀ z ∈ r :: rs, z.Stored := fun z hz => hs z (List.mem_cons_of_mem _ hz)
    rw [mergeFrom] at hx
    split at hx
    · rename_i hmerge
      have hext := hlast.extend hmerge
      obtain ⟨hx', y, hy, hle, heq⟩ := ih hx fun z hz => by
        rcases List.mem_cons.mp hz with rfl | hz
        · exact hext
        · exact htail z (List.mem_cons_of_mem _ hz)
      rcases List.mem_cons.mp hy with rfl | hy
      · exact ⟨hx', last, List.mem_cons_self, (Nat.le_add_right _ _).trans hle, heq⟩
      · exact ⟨hx', y, List.mem_cons_of_mem _ (List.mem_cons_of_mem _ hy), hle, heq⟩
    · rcases List.mem_cons.mp hx with rfl | hx
      · exact ⟨hlast, x, List.mem_cons_self, le_refl _, rfl⟩
      · obtain ⟨hx', y, hy, hle, heq⟩ := ih hx htail
        exact ⟨hx', y, List.mem_cons_of_mem _ hy, hle, heq⟩

/-- Merging keeps the order. -/
theorem pairwise_mergeFrom : ∀ {rs : List Rmap} {last : Rmap}, (last :: rs).Pairwise (· < ·) →
    (∀ r ∈ last :: rs, r.Stored) → (mergeFrom last rs).Pairwise (· < ·) := by
  intro rs
  induction rs with
  | nil => intro last _ _; exact List.pairwise_singleton _ _
  | cons r rs ih =>
    intro last ho hs
    obtain ⟨hhead, hrest⟩ := List.pairwise_cons.mp ho
    have htail : ∀ z ∈ r :: rs, z.Stored := fun z hz => hs z (List.mem_cons_of_mem _ hz)
    have hlast := hs last List.mem_cons_self
    rw [mergeFrom]
    split
    · rename_i hmerge
      refine ih (List.pairwise_cons.mpr ⟨fun z hz => ?_, hrest.of_cons⟩) fun z hz => ?_
      · exact Rmap.extend_lt (hhead r List.mem_cons_self) hmerge (List.rel_of_pairwise_cons hrest hz)
      · rcases List.mem_cons.mp hz with rfl | hz
        · exact hlast.extend hmerge
        · exact htail z (List.mem_cons_of_mem _ hz)
    · refine List.pairwise_cons.mpr ⟨fun x hx => ?_, ih hrest htail⟩
      obtain ⟨-, y, hy, hle, heq⟩ := mem_mergeFrom hx htail
      rw [heq]
      exact (hhead y hy).trans_le (Rmap.le_grown hle)

theorem stored_merged {rmap : OrdSet Rmap} (h : ∀ r ∈ rmap.keys, r.Stored) :
    (merged rmap).Pairwise (· < ·) ∧ ∀ r ∈ merged rmap, r.Stored := by
  have ho := sorted_keys rmap
  unfold merged
  cases hk : rmap.keys with
  | nil => exact ⟨List.Pairwise.nil, fun r hr => absurd hr List.not_mem_nil⟩
  | cons r rs =>
    rw [hk] at ho h
    exact ⟨pairwise_mergeFrom ho h, fun x hx => (mem_mergeFrom hx h).1⟩

/-- The mappings stored in the tree's records, read into a set. -/
theorem keys_of_stored {rmap : OrdSet Rmap} (h : ∀ r ∈ rmap.keys, r.Stored) :
    (OrdMap.ofList ((((merged rmap).map Rmap.record).map (·.data)).map
      fun b => (Rmap.decode b, ())) : OrdSet Rmap).keys = merged rmap := by
  obtain ⟨ho, hs⟩ := stored_merged h
  have hlist : (((merged rmap).map Rmap.record).map (·.data)).map
      (fun b => (Rmap.decode b, ())) = (merged rmap).map fun r => (r, ()) := by
    rw [List.map_map, List.map_map]
    refine List.map_congr_left fun r hr => ?_
    simp only [Function.comp, Rmap.decode_record (hs r hr)]
  rw [hlist, OrdMap.keys, OrdMap.entries_ofList (List.pairwise_map.mpr ho), List.map_map]
  exact List.map_id _

end

/-! ## One tree -/

section
variable {dev : Device} {sb : Superblock} {agno len : Nat} {spec : AgSpec} {recs : List Rec}
  {agbnos : List Nat} {t : Built}

theorem ten_le_nodeMax (hs : sb.Sound) (h : spec ∈ [BNO, CNT, RMAP, INOBT, FINOBT]) :
    10 ≤ spec.nodeMax sb.blockSize := by
  have hbs := hs.blockSize_ge
  have hnode : ∀ {n}, 0 < n → n ≤ 44 → 10 ≤ (sb.blockSize - SHORT_HDR) / n := fun hn hle =>
    (Nat.le_div_iff_mul_le hn).mpr (by unfold SHORT_HDR; omega)
  simp only [List.mem_cons, List.not_mem_nil, or_false] at h
  rcases h with rfl | rfl | rfl | rfl | rfl <;> exact hnode (by decide) (by decide)

/-- A tree that was built and written is walked from the root and height it was built with: its
records, in order, and its blocks. -/
theorem walkTree_of_buildAg (hs : sb.Sound) (hspec : spec ∈ [BNO, CNT, RMAP, INOBT, FINOBT])
    (hrec : ∀ r ∈ recs, RecOk spec r) (hlen : sb.agLen agno = .ok len)
    (haddr : ∀ a ∈ agbnos, a < len) (hsmall : agbnos.length ≤ WALK_LIMIT)
    (hbuild : buildAg sb agno spec recs agbnos = .ok t)
    (hon : ∀ b ∈ t.blocks, dev.readAt (sb.agbToByte agno b.1) b.2.length = .ok b.2) :
    t.root < len ∧ t.levels ≤ 9 ∧ ∃ bs, bs.Perm agbnos ∧
      walkTree dev sb agno spec t.root t.levels = .ok (recs.map (·.data), bs) := by
  have hlt := (Superblock.agLen_le hlen).1.trans hs.agBlocks_lt
  unfold WALK_LIMIT at hsmall
  obtain ⟨bs, hcol, hperm, hpos, -, hroot⟩ := @reads_of_buildAg sb spec agno dev
    s!"AG {agno} tree {hex spec.magic}" recs agbnos t hs hspec hrec
    (fun a ha => by have := haddr a ha; omega) (by omega) hbuild hon
  have hlv : t.levels ≤ 9 := levels_le_of_buildAg_pow (by norm_num) (ten_le_nodeMax hs hspec) hbuild
    (show agbnos.length ≤ 10 ^ 8 by omega)
  refine ⟨haddr _ hroot, hlv, bs, hperm, ?_⟩
  unfold walkTree
  simp only
  rw [except_throwIf_bind_of_not (by omega), hlen, except_ok_bind]
  unfold walkLoop
  have hstack : collectStack (readTreeBlock dev sb agno spec s!"AG {agno} tree {hex spec.magic}")
      [(t.root, t.levels - 1)] = some (recs.map (·.data), bs) :=
    collectList_cons.mpr ⟨_, _, [], [], hcol, rfl, (List.append_nil _).symm, (List.append_nil _).symm⟩
  have hbs := hperm.length_eq
  rw [walkStack_eq_ok hstack (by unfold WALK_LIMIT; omega) fun pre a post heq => ?_]
  · rw [List.nil_append, List.nil_append]
  · have ha : a ∈ agbnos := hperm.subset (by rw [heq]; simp)
    have hpre := congrArg List.length heq
    simp only [List.length_append, List.length_cons] at hpre
    have halt := haddr a ha
    exact except_throwIf_eq_ok.mpr (by simp only [List.nil_append]; unfold WALK_LIMIT; omega)

end

end FioXfs.Alloc
