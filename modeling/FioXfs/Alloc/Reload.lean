import FioXfs.Alloc.Conserve
import FioXfs.Alloc.Records
import FioXfs.Alloc.Settle
set_option autoImplicit false

/-!
# A group reloaded

What a rebuild writes is what `load` reads.  The group keeps what its headers say of it through
every run of operations and rebuilds, and the blocks the writes go to share no byte, so that once
all are made the reader finds the same free space, chunks, mappings and trees.
-/

namespace FioXfs.Alloc

open FioXfs.Lib FioXfs.Btree

/-! ## What the headers say -/

/-- The headers of a group as it is held, and the free list they tell of on the device. -/
structure Headed (dev : Device) (sb : Superblock) (agno : Nat) (ag : Ag) : Prop where
  agLen : sb.agLen agno = .ok ag.len
  agfLength : ag.agf.length = sb.sect
  agiLength : ag.agi.length = sb.sect
  agfEnds : AGF_CRC + 4 ≤ ag.agf.length
  agiEnds : AGI_CRC + 4 ≤ ag.agi.length
  agf : be32 ag.agf 0 = AGF_MAGIC ∧ be32 ag.agf 8 = agno ∧ be32 ag.agf 12 = ag.len
  agi : be32 ag.agi 0 = AGI_MAGIC ∧ be32 ag.agi 8 = agno
  agfl : loadAgfl dev sb agno ag.agf = .ok ag.agfl

section
variable {dev dev' : Device} {sb : Superblock} {agno : Nat} {ag ag' : Ag}

/-- The free list is told of in three fields of the AGF. -/
theorem loadAgfl_congr {agf agf' : Bytes}
    (hread : dev'.readAt (headerAt sb agno 3) sb.sect = dev.readAt (headerAt sb agno 3) sb.sect)
    (hfields : ∀ o, o = 40 ∨ o = 44 ∨ o = 48 → be32 agf' o = be32 agf o) :
    loadAgfl dev' sb agno agf' = loadAgfl dev sb agno agf := by
  unfold loadAgfl
  rw [hread, hfields 40 (.inl rfl), hfields 44 (.inr (.inl rfl)), hfields 48 (.inr (.inr rfl))]

theorem LoadRun.headed (run : LoadRun dev sb agno ag) : Headed dev sb agno ag := by
  obtain ⟨hagf, hagi⟩ := run.verified
  have h := run.headers
  unfold readHeaders at h
  simp only [except_bind_eq_ok, except_throwIf_eq_ok] at h
  obtain ⟨agf, h1, agi, h2, _, h3, _, h4, h5⟩ := h
  obtain ⟨rfl, rfl⟩ := Prod.mk.inj (Except.ok.inj h5)
  simp only [not_or, not_not] at h3 h4
  exact ⟨run.agLen, Device.length_of_readAt h1, Device.length_of_readAt h2, length_of_verify hagf,
    length_of_verify hagi, ⟨h3.1, h3.2.2, run.len_eq.symm⟩, ⟨h4.1, h4.2.2⟩, run.agfl⟩

theorem Headed.of_same (h : Headed dev sb agno ag) (hlen : ag'.len = ag.len) (hagf : ag'.agf = ag.agf)
    (hagi : ag'.agi = ag.agi) (hagfl : ag'.agfl = ag.agfl) : Headed dev sb agno ag' := by
  obtain ⟨h1, h2, h3, h4, h5, h6, h7, h8⟩ := h
  exact ⟨hlen ▸ h1, hagf ▸ h2, hagi ▸ h3, hagf ▸ h4, hagi ▸ h5, by rw [hagf, hlen]; exact h6,
    hagi ▸ h7, by rw [hagf, hagfl]; exact h8⟩

/-- The device reads as before where the free list is. -/
theorem Headed.on (h : Headed dev sb agno ag)
    (hread : dev'.readAt (headerAt sb agno 3) sb.sect = dev.readAt (headerAt sb agno 3) sb.sect) :
    Headed dev' sb agno ag :=
  { h with agfl := (loadAgfl_congr hread fun _ _ => rfl).trans h.agfl }

end

/-! ## What an operation leaves alone -/

section
variable {dev : Device} {sb : Superblock} {agno len : Nat} {ag ag' : Ag}

/-- No operation changes the headers or the free list of the group. -/
theorem Op.same (hblocks : 0 < CHUNK_INODES / sb.inodesPerBlock) (hf : FreeOk ag.free)
    (hop : Op sb ag ag') : ag'.len = ag.len ∧ ag'.agf = ag.agf ∧ ag'.agi = ag.agi ∧
      ag'.agfl = ag.agfl ∧ ag'.oldTreeBlocks = ag.oldTreeBlocks := by
  have hallocated : ∀ {ag1 s n}, Allocated ag ag1 s n → ag1.len = ag.len ∧ ag1.agf = ag.agf ∧
      ag1.agi = ag.agi ∧ ag1.agfl = ag.agfl ∧ ag1.oldTreeBlocks = ag.oldTreeBlocks := fun ha => by
    obtain ⟨free', -, rfl⟩ := ha.takes
    exact ⟨rfl, rfl, rfl, rfl, rfl⟩
  cases hop with
  | @alloc want near r ha =>
    cases r with
    | none => rw [alloc_none ha]; exact ⟨rfl, rfl, rfl, rfl, rfl⟩
    | some e => exact hallocated (alloc_ok hf ha).1
  | @allocAligned len' align r hlen ha =>
    cases r with
    | none => rw [allocAligned_none ha]; exact ⟨rfl, rfl, rfl, rfl, rfl⟩
    | some e => exact hallocated (allocAligned_ok hf hlen ha)
  | @allocBlockExcept not r ha =>
    cases r with
    | none => rw [allocBlockExcept_none ha]; exact ⟨rfl, rfl, rfl, rfl, rfl⟩
    | some e => exact hallocated (allocBlockExcept_ok hf ha).1
  | freeExtent hfree =>
    obtain ⟨-, -, free', -, rfl⟩ := freeExtent_ok hf hfree
    exact ⟨rfl, rfl, rfl, rfl, rfl⟩
  | rmapAdd _ hadd =>
    rw [rmapAdd_same hadd]
    exact ⟨rfl, rfl, rfl, rfl, rfl⟩
  | rmapRemove hrem =>
    rw [rmapRemove_same hrem]
    exact ⟨rfl, rfl, rfl, rfl, rfl⟩
  | allocChunk hc =>
    rcases allocChunk_ok hf hblocks hc with rfl | ⟨s, ag1, ag2, ha, hadd, heq⟩
    · exact ⟨rfl, rfl, rfl, rfl, rfl⟩
    · obtain ⟨hlen, hagf, hagi, hagfl, hold⟩ := hallocated ha
      rw [heq, rmapAdd_same hadd]
      exact ⟨hlen, hagf, hagi, hagfl, hold⟩
  | allocInode hi =>
    rw [allocInode_ok hi]
    exact ⟨rfl, rfl, rfl, rfl, rfl⟩
  | freeInode hi =>
    rw [freeInode_ok hi]
    exact ⟨rfl, rfl, rfl, rfl, rfl⟩

theorem Chunk.Stored.insert {chunks : OrdMap Nat Chunk} {e : Nat × Chunk}
    (h : ∀ e ∈ chunks.entries, Chunk.Stored sb e) (he : Chunk.Stored sb e) :
    ∀ x ∈ (chunks.insert e.1 e.2).entries, Chunk.Stored sb x := by
  intro x hx
  rcases OrdMap.mem_insert.mp hx with rfl | ⟨hx, -⟩
  · exact he
  · exact h x hx

/-- The operations keep the chunks within their records. -/
theorem Op.chunks_stored (hblocks : 0 < CHUNK_INODES / sb.inodesPerBlock) (hf : FreeOk ag.free)
    (h : ∀ e ∈ ag.chunks.entries, Chunk.Stored sb e) (hop : Op sb ag ag') :
    ∀ e ∈ ag'.chunks.entries, Chunk.Stored sb e := by
  have hallocated : ∀ {ag1 s n}, Allocated ag ag1 s n → ag1.chunks = ag.chunks := fun ha => by
    obtain ⟨free', -, rfl⟩ := ha.takes
    rfl
  cases hop with
  | @alloc want near r ha =>
    cases r with
    | none => rw [alloc_none ha]; exact h
    | some e => rw [hallocated (alloc_ok hf ha).1]; exact h
  | @allocAligned len' align r hlen ha =>
    cases r with
    | none => rw [allocAligned_none ha]; exact h
    | some e => rw [hallocated (allocAligned_ok hf hlen ha)]; exact h
  | @allocBlockExcept not r ha =>
    cases r with
    | none => rw [allocBlockExcept_none ha]; exact h
    | some e => rw [hallocated (allocBlockExcept_ok hf ha).1]; exact h
  | freeExtent hfree =>
    obtain ⟨-, -, free', -, rfl⟩ := freeExtent_ok hf hfree
    exact h
  | rmapAdd _ hadd => rw [rmapAdd_same hadd]; exact h
  | rmapRemove hrem => rw [rmapRemove_same hrem]; exact h
  | allocChunk hc =>
    rcases @allocChunk_eq sb ag hf hblocks with ⟨hrun, -⟩ | ⟨s, ag1, hrun, -, ha, -⟩
    · rw [hrun] at hc
      obtain ⟨-, rfl⟩ := EStateM.Result.ok.inj hc
      exact h
    · rw [hrun] at hc
      obtain ⟨-, rfl⟩ := EStateM.Result.ok.inj hc
      have hnew : Chunk.Stored sb ((s <<< sb.inopbLog) % 2 ^ 32, ⟨0, CHUNK_INODES, 2 ^ 64 - 1⟩) :=
        ⟨Nat.mod_lt _ (by norm_num), by norm_num, fun _ => ⟨by norm_num, by norm_num [CHUNK_INODES]⟩,
          fun _ => ⟨rfl, rfl⟩⟩
      exact Chunk.Stored.insert (hallocated ha ▸ h) hnew
  | allocInode hi =>
    rcases allocInode_eq_ok hi with ⟨-, rfl⟩ | ⟨e, he, i, -, -, -, rfl⟩
    · exact h
    · have hold := h e he
      have htaken : Chunk.Stored sb (e.1, e.2.take i) :=
        ⟨hold.start, Nat.lt_of_le_of_lt Nat.and_le_left hold.free, hold.sparse, hold.whole⟩
      exact Chunk.Stored.insert h htaken
  | @freeInode agino hi =>
    obtain ⟨e, he, hin, -, rfl⟩ := freeInode_eq_ok hi
    have hold := h e he
    have hlt : agino - e.1 < 64 := by
      have h1 := hin.1
      have h2 := hin.2
      unfold CHUNK_INODES at h2
      omega
    have hgiven : Chunk.Stored sb (e.1, e.2.give (agino - e.1)) := by
      refine ⟨hold.start, Nat.or_lt_two_pow hold.free ?_, hold.sparse, hold.whole⟩
      rw [Nat.one_shiftLeft]
      exact Nat.pow_lt_pow_right (by norm_num) hlt
    exact Chunk.Stored.insert h hgiven

theorem LoadRun.chunks_stored (run : LoadRun dev sb agno ag) :
    ∀ e ∈ ag.chunks.entries, Chunk.Stored sb e := by
  intro e he
  rw [run.chunks_eq] at he
  obtain ⟨b, -, rfl⟩ := List.mem_map.mp (OrdMap.mem_of_mem_ofList he)
  have h4 := getBe_lt 4 b 0
  have h8 := getBe_lt 8 b 8
  have h2 := getBe_lt 2 b 4
  have h1 := getBe_lt 1 b 6
  norm_num at h1 h2 h4 h8
  unfold Chunk.decode
  cases hsparse : sb.hasSparseInodes with
  | true => exact ⟨h4, h8, fun _ => ⟨h2, h1⟩, fun h => absurd (hsparse.symm.trans h) (by decide)⟩
  | false => exact ⟨h4, h8, fun h => absurd (hsparse.symm.trans h) (by decide), fun _ => ⟨rfl, rfl⟩⟩

/-- A record as it is read has words of its widths. -/
theorem Rmap.stored_decode (b : Bytes) : (Rmap.decode b).Stored :=
  ⟨(getBe_lt 4 _ _).trans_eq (by norm_num), (getBe_lt 4 _ _).trans_eq (by norm_num),
    (getBe_lt 8 _ _).trans_eq (by norm_num), (getBe_lt 8 _ _).trans_eq (by norm_num)⟩

theorem LoadRun.rmap_stored (run : LoadRun dev sb agno ag) : ∀ r ∈ ag.rmap.keys, r.Stored := by
  intro r hr
  obtain ⟨x, hx, rfl⟩ := List.mem_map.mp hr
  rw [run.rmap_eq] at hx
  obtain ⟨b, -, rfl⟩ := List.mem_map.mp (OrdMap.mem_of_mem_ofList hx)
  exact Rmap.stored_decode b

theorem Rmap.Stored.insert {rmap : OrdSet Rmap} {r : Rmap} (h : ∀ x ∈ rmap.keys, x.Stored)
    (hr : r.Stored) : ∀ x ∈ (rmap.insert r ()).keys, x.Stored := by
  intro x hx
  obtain ⟨e, he, rfl⟩ := List.mem_map.mp hx
  rcases OrdMap.mem_insert.mp he with rfl | ⟨he, -⟩
  · exact hr
  · exact h _ (List.mem_map_of_mem he)

/-- What is left of a record that is cut has words of its widths: an offset that moves has its
62nd bit clear, so that it does not run over. -/
theorem cutRmap_stored {start stop owner : Nat} {acc : OrdSet Rmap × Nat} {r : Rmap} (hr : r.Stored)
    (hend : r.owner = owner → r.stop < 2 ^ 32) (hstop : stop < 2 ^ 32)
    (h : ∀ x ∈ acc.1.keys, x.Stored) : ∀ x ∈ (cutRmap start stop owner acc r).1.keys, x.Stored := by
  unfold cutRmap
  split
  · exact h
  rename_i hmeets
  simp only [not_or, not_not, not_le] at hmeets
  obtain ⟨rfl, hlo, hhi⟩ := hmeets
  have hend := hend rfl
  have herase : ∀ x ∈ (acc.1.erase r).keys, x.Stored := fun x hx => by
    obtain ⟨e, he, rfl⟩ := List.mem_map.mp hx
    exact h _ (List.mem_map_of_mem (OrdMap.mem_erase.mp he).1)
  have hshift : ∀ d, d < 2 ^ 32 → shiftOffset r d < 2 ^ 64 := fun d hd => by
    have hoff := hr.offset
    unfold shiftOffset
    split
    · rename_i hown
      have hbit : r.offset.testBit 62 = false := by
        simp only [Bool.and_eq_true, Bool.not_eq_true'] at hown
        exact hown.2
      have hhigh : r.offset / 2 ^ 62 % 2 = 0 := by
        rw [Nat.testBit_eq_decide_div_mod_eq, decide_eq_false_iff_not] at hbit
        omega
      omega
    · exact hoff
  unfold Rmap.stop at hlo hend ⊢
  have hlen := hr.len
  simp only
  have hleft : ∀ x ∈ (if r.start < max r.start start then
      (acc.1.erase r).insert ⟨r.start, r.owner, r.offset, max r.start start - r.start⟩ ()
      else acc.1.erase r).keys, x.Stored := by
    split
    · exact Rmap.Stored.insert herase ⟨hr.start, by simp only; omega, hr.owner, hr.offset⟩
    · exact herase
  split
  · exact Rmap.Stored.insert hleft
      ⟨by simp only; omega, by simp only; omega, hr.owner, hshift _ (by omega)⟩
  · exact hleft

theorem cutAll_stored {start stop owner : Nat} (hstop : stop < 2 ^ 32) : ∀ {hits : List Rmap}
    {acc : OrdSet Rmap × Nat}, (∀ r ∈ hits, r.Stored) → HeldFit owner hits →
    (∀ x ∈ acc.1.keys, x.Stored) →
    ∀ x ∈ (hits.foldl (cutRmap start stop owner) acc).1.keys, x.Stored := by
  intro hits
  induction hits with
  | nil => exact fun _ _ h => h
  | cons r hits ih =>
    intro acc hst hfit h
    refine ih (fun x hx => hst x (List.mem_cons_of_mem _ hx))
      (fun x hx => hfit x (List.mem_cons_of_mem _ hx)) ?_
    exact cutRmap_stored (hst r List.mem_cons_self) (hfit r List.mem_cons_self) hstop h

/-- The operations keep the mappings within their records. -/
theorem Op.rmap_stored (hblocks : 0 < CHUNK_INODES / sb.inodesPerBlock) (hspace : SpaceOk ag)
    (hlen : ag.len ≤ 2 ^ 31) (h : ∀ r ∈ ag.rmap.keys, r.Stored) (hop : Op sb ag ag') :
    ∀ r ∈ ag'.rmap.keys, r.Stored := by
  have hf := hspace.freeOk
  have hallocated : ∀ {ag1 s n}, Allocated ag ag1 s n → ag1.rmap = ag.rmap := fun ha => by
    obtain ⟨free', -, rfl⟩ := ha.takes
    rfl
  cases hop with
  | @alloc want near r ha =>
    cases r with
    | none => rw [alloc_none ha]; exact h
    | some e => rw [hallocated (alloc_ok hf ha).1]; exact h
  | @allocAligned len' align r hlen ha =>
    cases r with
    | none => rw [allocAligned_none ha]; exact h
    | some e => rw [hallocated (allocAligned_ok hf hlen ha)]; exact h
  | @allocBlockExcept not r ha =>
    cases r with
    | none => rw [allocBlockExcept_none ha]; exact h
    | some e => rw [hallocated (allocBlockExcept_ok hf ha).1]; exact h
  | freeExtent hfree =>
    obtain ⟨-, -, free', -, rfl⟩ := freeExtent_ok hf hfree
    exact h
  | rmapAdd hwords hadd =>
    unfold Alloc.rmapAdd at hadd
    split at hadd
    · obtain ⟨-, rfl⟩ := EStateM.Result.ok.inj hadd
      exact Rmap.Stored.insert h hwords
    · obtain ⟨-, rfl⟩ := EStateM.Result.ok.inj hadd
      exact h
  | rmapRemove hrem =>
    unfold Alloc.rmapRemove at hrem
    split at hrem
    · obtain ⟨-, rfl⟩ := EStateM.Result.ok.inj hrem
      exact h
    · obtain ⟨hfit, hrem⟩ := act_throwIf_bind_eq_ok.mp hrem
      simp only [get_bind_apply] at hrem
      obtain ⟨removed, ag1, hcut, hrem⟩ := bind_eq_ok.mp hrem
      obtain ⟨hheld, -, rfl⟩ := cutHits_eq_ok.mp hcut
      obtain ⟨_, hrem⟩ := act_throwIf_bind_eq_ok.mp hrem
      obtain ⟨-, rfl⟩ := EStateM.Result.ok.inj hrem
      refine cutAll_stored (not_le.mp hfit) (fun r hr => h r ?_) hheld h
      exact List.mem_map_of_mem (mem_rmapHits hr)
  | allocChunk hc =>
    rcases @allocChunk_eq sb ag hf hblocks with ⟨hrun, -⟩ | ⟨s, ag1, hrun, -, ha, -⟩
    · rw [hrun] at hc
      obtain ⟨-, rfl⟩ := EStateM.Result.ok.inj hc
      exact h
    · rw [hrun] at hc
      obtain ⟨-, rfl⟩ := EStateM.Result.ok.inj hc
      -- the chunk's blocks were free, so that they lie in the group
      have hin : s + chunkBlocks sb ≤ ag.len := by
        obtain ⟨free', htakes, -⟩ := ha.takes
        have hpos := ha.pos
        have hat := htakes.at_ (s + chunkBlocks sb - 1)
        have hone := (@within_eq_one s (chunkBlocks sb) (s + chunkBlocks sb - 1)).mpr (by omega)
        have := hspace.inside (s + chunkBlocks sb - 1) (by omega)
        omega
      have hwords : (Rmap.mk s OWN_INODES 0 (chunkBlocks sb)).Stored :=
        ⟨by simp only; omega, by simp only; omega, by norm_num [OWN_INODES], by norm_num⟩
      unfold withChunk
      simp only
      split
      · exact Rmap.Stored.insert (hallocated ha ▸ h) hwords
      · exact hallocated ha ▸ h
  | allocInode hi =>
    rw [allocInode_ok hi]
    exact h
  | freeInode hi =>
    rw [freeInode_ok hi]
    exact h

end

/-! ## The blocks a rebuild writes -/

section
variable {dev dev' : Device} {sb : Superblock} {agno : Nat} {ag ag' : Ag} {writes : List (Nat × Bytes)}

/-- No block that holds a header is free or one of a tree's. -/
def HeadersClear (sb : Superblock) (ag : Ag) : Prop :=
  ∀ b, b * sb.blockSize < 4 * sb.sectorSize → freeAt ag.free b = 0 ∧ b ∉ ag.oldTreeBlocks

theorem RebuildRun.agiHolds (run : RebuildRun sb ag ag' writes) (h : SpaceOk ag)
    (hagi : AGI_CRC + 4 ≤ ag.agi.length) : AgiHolds sb run.settled.agi ∧
      (run.trees.finobt.isSome → sb.hasFinobt = true) := by
  have hsame := (run.kept h).2.2.2.2.2.2
  have hlen := run.agiLength
  rw [not_or, not_and, not_and] at hlen
  refine ⟨⟨by rw [hsame]; exact hagi, fun h => by have := hlen.1 h; omega,
    fun h => by have := hlen.2 h; omega⟩, fun hsome => ?_⟩
  rcases buildIf_eq_ok.mp (buildTrees_ok run.built).finobt with ⟨hf, -⟩ | ⟨-, hnone⟩
  · exact hf
  · simp [hnone] at hsome

theorem RebuildRun.agfl_eq (run : RebuildRun sb ag ag' writes) (h : SpaceOk ag) :
    ag'.agfl = ag.agfl := by
  have hsame : run.settled.agfl = ag.agfl := by
    rw [(run.placed h).same, (run.gaveBack h).same]
  exact (congrArg Ag.agfl run.out).trans ((finished_agfl ..).trans hsame)

/-- A rebuild leaves the headers saying what they said of everything but the trees. -/
theorem Headed.rebuilt (h : Headed dev sb agno ag) (hspace : SpaceOk ag)
    (run : RebuildRun sb ag ag' writes) : Headed dev sb agno ag' := by
  obtain ⟨-, hlen, -, -, -, hsagf, hsagi⟩ := run.kept hspace
  obtain ⟨hholds, hfino⟩ := run.agiHolds hspace h.agiEnds
  have hagf : ag'.agf = newAgf run.settled run.trees :=
    (congrArg Ag.agf run.out).trans (finished_agf ..)
  have hagi : ag'.agi = newAgi sb run.settled run.trees :=
    (congrArg Ag.agi run.out).trans (finished_agi ..)
  have hends : AGF_CRC + 4 ≤ run.settled.agf.length := hsagf ▸ h.agfEnds
  have hlagf : ag'.agf.length = ag.agf.length := by
    rw [hagf, length_newAgf hends, hsagf]
  have hlagi : ag'.agi.length = ag.agi.length := by
    rw [hagi, length_newAgi hholds hfino, hsagi]
  -- the fields before the roots, and those of the free list
  have hother : ∀ o, o ∈ [0, 8, 12, 40, 44, 48] → be32 ag'.agf o = be32 ag.agf o := by
    intro o ho
    rw [hagf, ← hsagf]
    refine be32_newAgf_other hends ?_ fun f => ?_
    · simp only [List.mem_cons, List.not_mem_nil, or_false] at ho
      unfold AGF_CRC
      omega
    · simp only [List.mem_cons, List.not_mem_nil, or_false] at ho
      unfold agfFields
      revert f
      cases run.trees.rmap <;> rcases ho with rfl | rfl | rfl | rfl | rfl | rfl <;> simp
  have hother' : ∀ o, o ∈ [0, 8] → be32 ag'.agi o = be32 ag.agi o := by
    intro o ho
    rw [hagi, ← hsagi]
    refine be32_newAgi_other hholds hfino ?_ fun f hf => ?_
    · simp only [List.mem_cons, List.not_mem_nil, or_false] at ho
      unfold AGI_CRC
      omega
    · have hge : ∀ f ∈ agiFields sb run.settled run.trees, 16 ≤ f.1 := by
        unfold agiFields
        by_cases hnew : be32 run.settled.agi 32 = NULL_AGBLOCK <;>
          cases run.settled.chunks.keys.getLast? <;> cases run.trees.finobt <;>
            cases sb.hasInobtcount <;> simp [hnew]
      have := hge f hf
      simp only [List.mem_cons, List.not_mem_nil, or_false] at ho
      omega
  obtain ⟨h0, h8, h12⟩ := h.agf
  refine ⟨hlen ▸ h.agLen, hlagf.trans h.agfLength, hlagi.trans h.agiLength, hlagf ▸ h.agfEnds,
    hlagi ▸ h.agiEnds, ?_, ?_, ?_⟩
  · rw [hother 0 (by simp), hother 8 (by simp), hother 12 (by simp), hlen]
    exact h.agf
  · rw [hother' 0 (by simp), hother' 8 (by simp)]
    exact h.agi
  · rw [run.agfl_eq hspace, ← h.agfl]
    exact loadAgfl_congr rfl fun o ho => hother o (by rcases ho with rfl | rfl | rfl <;> simp)

theorem shares_eq {l r : List Nat} {m n k : Nat} :
    l.take m ++ (l.drop m).take n ++ l.drop (m + n) ++ r.take k ++ r.drop k = l ++ r := by
  rw [List.append_assoc _ (r.take k), List.take_append_drop, ← List.drop_drop,
    List.append_assoc (l.take m), List.take_append_drop n, List.take_append_drop]

/-- The trees are in exactly the blocks that were carved, in that order. -/
theorem RebuildRun.blocks_eq (run : RebuildRun sb ag ag' writes) (hs : sb.Sound) (h : SpaceOk ag)
    (hlen : ag.len ≤ 2 ^ 31) :
    run.trees.blocks.map (·.1) = expand run.agRun ++ expand run.inoRun ∧
      (sb.hasRmapbt = false → (expand run.agRun).drop (BNO.blocks (bnoRecs run.settled).length sb.blockSize +
        CNT.blocks (cntRecs run.settled).length sb.blockSize) = []) ∧
      (sb.hasFinobt = false → (expand run.inoRun).drop
        (INOBT.blocks (inobtRecs sb run.settled).length sb.blockSize) = []) := by
  have hb := buildTrees_ok run.built
  have hp := run.placed h
  have haddr := (run.carved h).1
  have hchunks : run.settled.chunks = run.base.chunks := by rw [hp.same]
  have hna : (expand run.agRun).length =
      agNeed sb run.settled.free.entries.length (merged run.settled.rmap).length := by
    rw [length_expand, hp.agLength]
  have hni : (expand run.inoRun).length = inoNeed sb run.settled.chunks := by
    rw [length_expand, hp.inoLength, hchunks]
  have hnb : (bnoRecs run.settled).length = run.settled.free.entries.length := List.length_map _
  have hnc : (cntRecs run.settled).length = run.settled.free.entries.length :=
    (List.length_insertionSort _ _).trans hnb
  have hnr : (inobtRecs sb run.settled).length = run.settled.chunks.entries.length := List.length_map _
  have hrm : sb.hasRmapbt = false → (expand run.agRun).drop
      (BNO.blocks (bnoRecs run.settled).length sb.blockSize +
        CNT.blocks (cntRecs run.settled).length sb.blockSize) = [] := fun hno => by
    refine List.drop_eq_nil_of_le ?_
    rw [hna, hnb, hnc, agNeed, hno]
    exact (Nat.add_zero _).le
  have hfi : sb.hasFinobt = false → (expand run.inoRun).drop
      (INOBT.blocks (inobtRecs sb run.settled).length sb.blockSize) = [] := fun hno => by
    refine List.drop_eq_nil_of_le ?_
    rw [hni, hnr, inoNeed, hno]
    exact (Nat.add_zero _).le
  -- where each tree is
  have hmap : ∀ {spec recs agbnos t}, spec ∈ [BNO, CNT, RMAP, INOBT, FINOBT] →
      (∀ r ∈ recs, RecOk spec r) → (∀ a ∈ agbnos, a ∈ expand run.agRun ++ expand run.inoRun) →
      buildAg sb run.settled.agno spec recs agbnos = .ok t → t.blocks.map (·.1) = agbnos := by
    intro spec recs agbnos t hspec hrec hsub hbuild
    obtain ⟨hl, hmax, hnode⟩ := layout_of_sound hs hspec
    exact (length_of_buildAg hl hmax hnode hrec
      (fun a ha => by have := haddr a (hsub a ha); omega) hbuild).2.1
  have hleft : ∀ {a : Nat} {l : List Nat}, l.Sublist (expand run.agRun) → a ∈ l →
      a ∈ expand run.agRun ++ expand run.inoRun := fun hsub ha =>
    List.mem_append_left _ (hsub.subset ha)
  have hright : ∀ {a : Nat} {l : List Nat}, l.Sublist (expand run.inoRun) → a ∈ l →
      a ∈ expand run.agRun ++ expand run.inoRun := fun hsub ha =>
    List.mem_append_right _ (hsub.subset ha)
  refine ⟨?_, hrm, hfi⟩
  have h1 := hmap (by simp) (fun r hr => by
    obtain ⟨e, -, rfl⟩ := List.mem_map.mp hr
    exact (recOk_freeRec e).1) (fun a => hleft (List.take_sublist _ _)) hb.bno
  have h2 := hmap (by simp) (fun r hr => by
    obtain ⟨e, -, rfl⟩ := List.mem_map.mp ((List.mem_insertionSort _).mp hr)
    exact (recOk_freeRec e).2)
    (fun a => hleft ((List.take_sublist _ _).trans (List.drop_sublist _ _))) hb.cnt
  have h3 : (run.trees.rmap.elim [] (·.blocks)).map (·.1) = (expand run.agRun).drop
      (BNO.blocks (bnoRecs run.settled).length sb.blockSize +
        CNT.blocks (cntRecs run.settled).length sb.blockSize) := by
    rcases buildIf_eq_ok.mp hb.rmap with ⟨-, t, ht, hopt⟩ | ⟨hno, hopt⟩
    · rw [hopt]
      exact hmap (by simp) (fun r hr => by
        obtain ⟨x, -, rfl⟩ := List.mem_map.mp hr
        exact recOk_rmap x) (fun a => hleft (List.drop_sublist _ _)) ht
    · rw [hopt, hrm hno]
      rfl
  have h4 := hmap (by simp) (fun r hr => by
    obtain ⟨e, -, rfl⟩ := List.mem_map.mp hr
    exact (recOk_chunk _ _).1) (fun a => hright (List.take_sublist _ _)) hb.inobt
  have h5 : (run.trees.finobt.elim [] (·.blocks)).map (·.1) = (expand run.inoRun).drop
      (INOBT.blocks (inobtRecs sb run.settled).length sb.blockSize) := by
    rcases buildIf_eq_ok.mp hb.finobt with ⟨-, t, ht, hopt⟩ | ⟨hno, hopt⟩
    · rw [hopt]
      exact hmap (by simp) (fun r hr => by
        obtain ⟨e, -, rfl⟩ := List.mem_map.mp hr
        exact (recOk_chunk _ _).2) (fun a => hright (List.drop_sublist _ _)) ht
    · rw [hopt, hfi hno]
      rfl
  unfold Trees.blocks
  simp only [List.map_append, h1, h2, h3, h4, h5]
  exact shares_eq

/-- They are carved out of blocks that were free or the old trees'. -/
theorem RebuildRun.carved_from (run : RebuildRun sb ag ag' writes) (h : SpaceOk ag) {b : Nat}
    (hb : b ∈ expand run.agRun ++ expand run.inoRun) : 0 < freeAt ag.free b ∨ b ∈ ag.oldTreeBlocks := by
  have hcover := (run.placed h).at_ b
  rw [(run.gaveBack h).at_] at hcover
  have hin : 0 < withinRuns run.agRun b + withinRuns run.inoRun b := by
    rcases List.mem_append.mp hb with hb | hb
    · exact Nat.add_pos_left (mem_expand hb) _
    · exact Nat.add_pos_right _ (mem_expand hb)
  rcases Nat.eq_zero_or_pos (freeAt ag.free b) with h0 | hpos
  · exact Or.inr (List.count_pos_iff.mp (by omega))
  · exact Or.inl hpos

/-- No two of a rebuild's writes meet, and none meets the sector of the free list. -/
theorem RebuildRun.apart (run : RebuildRun sb ag ag' writes) (hs : sb.Sound)
    (hends : sb.dataBlocks * sb.blockSize < 2 ^ 64) (hd : Headed dev sb agno ag)
    (hagno : ag.agno = agno) (h : SpaceOk ag) (hclear : HeadersClear sb ag) :
    writes.Pairwise (fun v w => v.1 + v.2.length ≤ w.1 ∨ w.1 + w.2.length ≤ v.1) ∧
      ∀ w ∈ writes, headerAt sb agno 3 + sb.sect ≤ w.1 ∨ w.1 + w.2.length ≤ headerAt sb agno 3 := by
  have hlen : ag.len ≤ 2 ^ 31 := (Superblock.agLen_le hd.agLen).1.trans hs.agBlocks_lt
  obtain ⟨-, -, -, -, hsagno, hsagf, hsagi⟩ := run.kept h
  obtain ⟨hholds, hfino⟩ := run.agiHolds h hd.agiEnds
  have hagf : (newAgf run.settled run.trees).length = sb.sectorSize := by
    rw [length_newAgf (hsagf ▸ hd.agfEnds), hsagf, hd.agfLength, Superblock.sect]
  have hagi : (newAgi sb run.settled run.trees).length = sb.sectorSize := by
    rw [length_newAgi hholds hfino, hsagi, hd.agiLength, Superblock.sect]
  have hheader : ∀ n, headerAt sb agno n = agno * sb.agBlocks * sb.blockSize + n * sb.sectorSize := by
    intro n
    unfold headerAt
    rw [hs.agbToByte_eq hends hd.agLen (Nat.zero_le _), Nat.add_zero]
  -- the blocks of the trees come after the headers
  have hblock : ∀ b ∈ run.trees.blocks, b.2.length = sb.blockSize ∧
      sb.agbToByte agno b.1 = agno * sb.agBlocks * sb.blockSize + b.1 * sb.blockSize ∧
      4 * sb.sectorSize ≤ b.1 * sb.blockSize := by
    intro b hb
    obtain ⟨hlt, hsize⟩ := run.all_trees hs h hlen b hb
    refine ⟨hsize, ?_, ?_⟩
    · rw [hs.agbToByte_eq hends hd.agLen hlt.le, Nat.add_mul]
    · by_contra hlow
      obtain ⟨hfree, hold⟩ := hclear b.1 (not_le.mp hlow)
      have hmem : b.1 ∈ expand run.agRun ++ expand run.inoRun := by
        rw [← (run.blocks_eq hs h hlen).1]
        exact List.mem_map_of_mem hb
      rcases run.carved_from h hmem with hpos | hin
      · omega
      · exact hold hin
  have htrees : run.trees.blocks.Pairwise fun a b => a.1 * sb.blockSize + sb.blockSize ≤ b.1 * sb.blockSize ∨
      b.1 * sb.blockSize + sb.blockSize ≤ a.1 * sb.blockSize := by
    have hnodup := (run.carved h).2.1
    rw [← (run.blocks_eq hs h hlen).1, List.Nodup, List.pairwise_map] at hnodup
    refine hnodup.imp fun hne => ?_
    rcases Nat.lt_or_gt_of_ne hne with hlt | hgt
    · exact Or.inl ((Nat.succ_mul _ _).symm.trans_le (Nat.mul_le_mul_right _ hlt))
    · exact Or.inr ((Nat.succ_mul _ _).symm.trans_le (Nat.mul_le_mul_right _ hgt))
  rw [run.writes_eq, rebuildWrites, hsagno, hagno]
  refine ⟨List.pairwise_append.mpr ⟨List.pairwise_map.mpr ?_, ?_, fun v hv w hw => ?_⟩, fun w hw => ?_⟩
  · refine (List.pairwise_iff_forall_sublist.mpr fun {a b} hsub => ?_)
    have ha := hblock a (hsub.subset List.mem_cons_self)
    have hb := hblock b (hsub.subset (List.mem_cons_of_mem _ List.mem_cons_self))
    have hab := List.pairwise_iff_forall_sublist.mp htrees hsub
    simp only [ha.1, ha.2.1, hb.1, hb.2.1]
    omega
  · refine List.pairwise_pair.mpr (Or.inl ?_)
    rw [hagf, hheader, hheader]
    omega
  · obtain ⟨b, hb, rfl⟩ := List.mem_map.mp hv
    obtain ⟨-, h2, h3⟩ := hblock b hb
    simp only [List.mem_cons, List.not_mem_nil, or_false] at hw
    rcases hw with rfl | rfl
    · rw [h2, hagf, hheader]
      omega
    · rw [h2, hagi, hheader]
      omega
  · rw [hheader 3, Superblock.sect]
    rcases List.mem_append.mp hw with hw | hw
    · obtain ⟨b, hb, rfl⟩ := List.mem_map.mp hw
      obtain ⟨-, h2, h3⟩ := hblock b hb
      rw [h2]
      omega
    · simp only [List.mem_cons, List.not_mem_nil, or_false] at hw
      rcases hw with rfl | rfl
      · rw [hagf, hheader]
        omega
      · rw [hagi, hheader]
        omega

end

/-! ## The mappings a rebuild stores -/

section
variable {dev : Device} {sb : Superblock} {agno : Nat} {ag ag' : Ag} {writes : List (Nat × Bytes)}

theorem rmapAddAll_stored {owner : Nat} (howner : owner < 2 ^ 64) {runs : List (Nat × Nat)} :
    ∀ {ag ag' : Ag} {u : Unit}, (∀ r ∈ runs, r.1 < 2 ^ 32 ∧ r.2 < 2 ^ 32) →
      (∀ r ∈ ag.rmap.keys, r.Stored) → rmapAddAll sb owner runs ag = .ok u ag' →
      ∀ r ∈ ag'.rmap.keys, r.Stored := by
  induction runs with
  | nil =>
    intro ag ag' u _ h hrun
    obtain ⟨-, rfl⟩ := EStateM.Result.ok.inj hrun
    exact h
  | cons e runs ih =>
    intro ag ag' u hruns h hrun
    obtain ⟨_, ag1, h1, h2⟩ := bind_eq_ok.mp hrun
    refine ih (fun r hr => hruns r (List.mem_cons_of_mem _ hr)) ?_ h2
    unfold rmapAdd at h1
    split at h1
    · obtain ⟨-, rfl⟩ := EStateM.Result.ok.inj h1
      obtain ⟨hstart, hlt⟩ := hruns e List.mem_cons_self
      exact Rmap.Stored.insert h ⟨hstart, hlt, howner, by norm_num⟩
    · obtain ⟨-, rfl⟩ := EStateM.Result.ok.inj h1
      exact h

/-- The runs carved are in the group. -/
theorem Carved.inside {ag1 ag2 : Ag} {runs : List (Nat × Nat)} {n len : Nat} (hc : Carved ag1 ag2 runs n)
    (hin : ∀ b, 0 < freeAt ag1.free b → b < len) : ∀ r ∈ runs, 0 < r.2 ∧ r.1 + r.2 ≤ len := by
  intro r hr
  have hpos := hc.pos r hr
  refine ⟨hpos, ?_⟩
  have hlast : 0 < withinRuns runs (r.1 + r.2 - 1) := by
    refine mem_expand (List.mem_flatMap.mpr ⟨r, hr, List.mem_range'_1.mpr ?_⟩)
    omega
  have := hc.at_ (r.1 + r.2 - 1)
  have := hin (r.1 + r.2 - 1) (by omega)
  omega

theorem tryCarve_stored {base ag ag' : Ag} {inoBlocks agBlocks : Nat}
    {runs : List (Nat × Nat) × List (Nat × Nat)} (h : SpaceOk base) (hlen : base.len ≤ 2 ^ 31)
    (hst : ∀ r ∈ base.rmap.keys, r.Stored) (hrun : tryCarve sb base inoBlocks agBlocks ag = .ok runs ag') :
    ∀ r ∈ ag'.rmap.keys, r.Stored := by
  obtain ⟨ag1, ag2, ag3, hc1, hc2, h3, h4⟩ := tryCarve_runs h.freeOk h.total hrun
  have hino := hc1.inside h.inside
  have hag := hc2.inside fun b hb => h.inside b (Nat.lt_of_lt_of_le hb (Nat.le.intro (hc1.at_ b)))
  have hwords : ∀ {rs : List (Nat × Nat)}, (∀ r ∈ rs, 0 < r.2 ∧ r.1 + r.2 ≤ base.len) →
      ∀ r ∈ rs, r.1 < 2 ^ 32 ∧ r.2 < 2 ^ 32 := fun hrs r hr => by
    have := hrs r hr
    omega
  have hrmap : ag2.rmap = base.rmap := hc2.rmap.trans hc1.rmap
  have hst3 := rmapAddAll_stored (by norm_num [OWN_AG]) (hwords hag) (hrmap ▸ hst) h3
  exact rmapAddAll_stored (by norm_num [OWN_INOBT]) (hwords hino) hst3 h4

theorem settle_stored {base : Ag} {inoBlocks : Nat} (h : SpaceOk base) (hlen : base.len ≤ 2 ^ 31)
    (hst : ∀ r ∈ base.rmap.keys, r.Stored) : ∀ {tries need : Nat} {ag ag' : Ag}
      {runs : List (Nat × Nat) × List (Nat × Nat)},
      settle sb base inoBlocks tries need ag = .ok runs ag' → ∀ r ∈ ag'.rmap.keys, r.Stored := by
  intro tries
  induction tries with
  | zero =>
    intro need ag ag' runs hrun
    simp [settle] at hrun
  | succ tries ih =>
    intro need ag ag' runs hrun
    unfold settle at hrun
    obtain ⟨r, ag1, h1, hrun⟩ := bind_eq_ok.mp hrun
    simp only [get_bind_apply] at hrun
    obtain ⟨m, ag2, hlift, hrun⟩ := bind_eq_ok.mp hrun
    obtain ⟨-, rfl⟩ := liftE_eq_ok.mp hlift
    split at hrun
    · obtain ⟨-, rfl⟩ := EStateM.Result.ok.inj hrun
      exact tryCarve_stored h hlen hst h1
    · exact ih hrun

theorem mem_agflLoop_lt {buf : Bytes} {size last : Nat} : ∀ {fuel i b : Nat},
    b ∈ agflLoop buf size last fuel i → b < 2 ^ 32 := by
  intro fuel
  induction fuel with
  | zero => intro i b hb; cases hb
  | succ fuel ih =>
    intro i b hb
    have hlt : be32 buf (36 + i * 4) < 2 ^ 32 := (getBe_lt 4 _ _).trans_eq (by norm_num)
    rw [agflLoop] at hb
    split at hb
    · rwa [List.mem_singleton.mp hb]
    · rcases List.mem_cons.mp hb with rfl | hb
      · exact hlt
      · exact ih hb

theorem Headed.agfl_lt (h : Headed dev sb agno ag) : ∀ b ∈ ag.agfl, b < 2 ^ 32 := by
  have hfl := h.agfl
  unfold loadAgfl at hfl
  simp only [except_bind_eq_ok] at hfl
  obtain ⟨buf, -, _, -, hfl⟩ := hfl
  intro b hb
  split at hfl
  · rw [← Except.ok.inj hfl] at hb
    cases hb
  · simp only [except_bind_eq_ok] at hfl
    obtain ⟨_, -, _, -, hfl⟩ := hfl
    rw [← Except.ok.inj hfl] at hb
    exact mem_agflLoop_lt hb

theorem RebuildRun.rmap_stored (run : RebuildRun sb ag ag' writes) (h : SpaceOk ag)
    (hlen : ag.len ≤ 2 ^ 31) (hagfl : ∀ b ∈ ag.agfl, b < 2 ^ 32) (hst : ∀ r ∈ ag.rmap.keys, r.Stored) :
    ∀ r ∈ run.settled.rmap.keys, r.Stored := by
  have hg := run.gaveBack h
  have hbaselen : run.base.len = ag.len := by rw [hg.same]
  refine settle_stored (hg.spaceOk h.inside) (hbaselen ▸ hlen) ?_ run.settles
  have hgave := run.gave
  unfold giveBack at hgave
  simp only [get_bind_apply, set_bind_apply] at hgave
  obtain ⟨_, ag1, h1, hgave⟩ := bind_eq_ok.mp hgave
  obtain ⟨_, ag2, h2, h3⟩ := bind_eq_ok.mp hgave
  obtain ⟨-, rfl⟩ := EStateM.Result.ok.inj h2
  obtain ⟨-, -, -, -, -, -, hsame, hrmap⟩ := freeAll_ok (by exact h.freeOk) (by exact h.total) h1
  have hfl : ag1.agfl = ag.agfl := by rw [hsame]
  refine rmapAddAll_stored (by norm_num [OWN_AG]) (fun r hr => ?_) (fun r hr => ?_) h3
  · obtain ⟨b, hb, rfl⟩ := List.mem_map.mp hr
    exact ⟨hagfl b (hfl ▸ hb), by norm_num⟩
  · obtain ⟨x, hx, rfl⟩ := List.mem_map.mp hr
    have hin := (OrdMap.mem_filter.mp hx).1
    rw [hrmap] at hin
    exact hst _ (List.mem_map_of_mem hin)

end

/-! ## Reading it back -/

section
variable {dev dev' : Device} {sb : Superblock} {agno : Nat} {ag ag' : Ag} {writes : List (Nat × Bytes)}

theorem inOrder_of_pairwise {len : Nat} : ∀ {es : List (Nat × Nat)} {lastEnd : Nat},
    (es.Pairwise fun a b => a.1 + a.2 ≤ b.1) →
    (∀ e ∈ es, 0 < e.2 ∧ lastEnd ≤ e.1 ∧ e.1 + e.2 ≤ len) → InOrder len lastEnd es := by
  intro es
  induction es with
  | nil => intro _ _ _; trivial
  | cons e es ih =>
    intro lastEnd hp h
    obtain ⟨hhead, hrest⟩ := List.pairwise_cons.mp hp
    obtain ⟨hpos, hge, hle⟩ := h e List.mem_cons_self
    refine ⟨hpos, hge, hle, ih hrest fun x hx => ?_⟩
    have hin := h x (List.mem_cons_of_mem _ hx)
    exact ⟨hin.1, hhead x hx, hin.2.2⟩

/-- The free extents of a group pass the reader's checks. -/
theorem SpaceOk.inOrder (h : SpaceOk ag) : InOrder ag.len 0 ag.free.entries := by
  refine inOrder_of_pairwise (ag.free.sorted.imp_of_mem fun ha hb hlt => h.freeOk.apart ha hb hlt)
    fun e he => ?_
  have hpos := h.freeOk.pos e he
  have := h.inside (e.1 + e.2 - 1) (freeAt_pos_of_mem he (by omega))
  omega

/-- Their records are read into the same map. -/
theorem SpaceOk.loadFree_eq (h : SpaceOk ag) (hlen : ag.len ≤ 2 ^ 31) :
    loadFree agno ag.len ((bnoRecs ag).map (·.data)) 0 .empty = .ok ag.free := by
  have hextents : ((bnoRecs ag).map (·.data)).map extentOf = ag.free.entries := by
    rw [bnoRecs, List.map_map, List.map_map]
    refine (List.map_congr_left fun e he => ?_).trans (List.map_id _)
    have := h.inOrder.mem e he
    exact extentOf_freeRec (by omega) (by omega)
  refine (loadFree_ok (by simp [OrdMap.empty])).mpr ?_
  rw [hextents]
  exact ⟨h.inOrder, by simp [OrdMap.empty]⟩

/-- So are those of the chunks. -/
theorem chunks_of_stored {chunks : OrdMap Nat Chunk} (h : ∀ e ∈ chunks.entries, Chunk.Stored sb e) :
    (OrdMap.ofList (((chunks.entries.map fun e => e.2.encode sb e.1).map (·.data)).map
      fun r => (be32 r 0, Chunk.decode sb r)) : OrdMap Nat Chunk) = chunks := by
  have hlist : ((chunks.entries.map fun e => e.2.encode sb e.1).map (·.data)).map
      (fun r => (be32 r 0, Chunk.decode sb r)) = chunks.entries := by
    rw [List.map_map, List.map_map]
    refine (List.map_congr_left fun e he => ?_).trans (List.map_id _)
    obtain ⟨hstart, hchunk⟩ := Chunk.decode_encode (h e he)
    exact Prod.ext hstart hchunk
  rw [hlist]
  exact OrdMap.ext_entries (OrdMap.entries_ofList chunks.sorted)

/-- Each tree is walked from the root and height it was built with. -/
theorem RebuildRun.walks (run : RebuildRun sb ag ag' writes) (hs : sb.Sound)
    (hd : Headed dev sb agno ag) (hagno : ag.agno = agno) (h : SpaceOk ag)
    (hsmall : ag'.oldTreeBlocks.length ≤ WALK_LIMIT) (hon : Stands dev' writes)
    {spec : AgSpec} {recs : List Rec} {agbnos : List Nat} {t : Built}
    (hspec : spec ∈ [BNO, CNT, RMAP, INOBT, FINOBT]) (hrec : ∀ r ∈ recs, RecOk spec r)
    (hsub : agbnos.Sublist (expand run.agRun ++ expand run.inoRun))
    (hbuild : buildAg sb run.settled.agno spec recs agbnos = .ok t)
    (ht : ∀ b ∈ t.blocks, b ∈ run.trees.blocks) :
    t.root < 2 ^ 32 ∧ t.levels < 2 ^ 32 ∧ ∃ bs, bs.Perm agbnos ∧
      walkTree dev' sb agno spec t.root t.levels = .ok (recs.map (·.data), bs) := by
  have hlen : ag.len ≤ 2 ^ 31 := (Superblock.agLen_le hd.agLen).1.trans hs.agBlocks_lt
  have hsagno : run.settled.agno = agno := (run.kept h).2.2.2.2.1.trans hagno
  have hold : ag'.oldTreeBlocks = expand run.agRun ++ expand run.inoRun :=
    (congrArg Ag.oldTreeBlocks run.out).trans (finished_old ..)
  rw [hsagno] at hbuild
  obtain ⟨hroot, hlevels, hwalk⟩ := walkTree_of_buildAg hs hspec hrec hd.agLen
    (fun a ha => (run.carved h).1 a (hsub.subset ha))
    ((hsub.length_le.trans_eq (congrArg List.length hold).symm).trans hsmall) hbuild fun b hb => by
      have hw : (sb.agbToByte agno b.1, b.2) ∈ writes := by
        rw [run.writes_eq, rebuildWrites, hsagno]
        exact List.mem_append_left _ (List.mem_map.mpr ⟨b, ht b hb, rfl⟩)
      exact hon _ hw
  exact ⟨by omega, by omega, hwalk⟩

/-- Its headers are those the reader accepts. -/
theorem RebuildRun.readHeaders_eq (run : RebuildRun sb ag ag' writes) (hd : Headed dev sb agno ag)
    (hagno : ag.agno = agno) (h : SpaceOk ag) (hon : Stands dev' writes) :
    readHeaders dev' sb agno = .ok (ag'.agf, ag'.agi) := by
  have hd' := hd.rebuilt h run
  obtain ⟨-, -, -, -, hsagno, hsagf, hsagi⟩ := run.kept h
  obtain ⟨hholds, hfino⟩ := run.agiHolds h hd.agiEnds
  have hagf : ag'.agf = newAgf run.settled run.trees :=
    (congrArg Ag.agf run.out).trans (finished_agf ..)
  have hagi : ag'.agi = newAgi sb run.settled run.trees :=
    (congrArg Ag.agi run.out).trans (finished_agi ..)
  have hw : ∀ w ∈ [(headerAt sb agno 1, ag'.agf), (headerAt sb agno 2, ag'.agi)], w ∈ writes := by
    intro w hw
    rw [run.writes_eq, rebuildWrites, hsagno, hagno, ← hagf, ← hagi]
    exact List.mem_append_right _ hw
  have h1 := hon _ (hw _ List.mem_cons_self)
  have h2 := hon _ (hw _ (List.mem_cons_of_mem _ List.mem_cons_self))
  simp only [hd'.agfLength, hd'.agiLength] at h1 h2
  have hv1 : Crc.verify ag'.agf AGF_CRC = true := by
    have hends := hsagf ▸ hd.agfEnds
    rw [hagf, newAgf_eq]
    refine Crc.verify_stamp ?_
    rwa [length_putFields fun f hf => by have := @agfFields_lt run.settled run.trees f hf; omega]
  have hv2 : Crc.verify ag'.agi AGI_CRC = true := by
    have hends := hholds.1
    rw [hagi, newAgi_eq (by unfold AGI_CRC at hends; omega)]
    refine Crc.verify_stamp ?_
    rwa [length_putFields fun f hf => (agiFields_lt hholds hfino hf).1]
  unfold readHeaders
  rw [h1, except_ok_bind, h2, except_ok_bind,
    except_throwIf_bind_of_not (by rw [hd'.agf.1, hd'.agf.2.1, hv1]; simp),
    except_throwIf_bind_of_not (by rw [hd'.agi.1, hd'.agi.2, hv2]; simp)]
  rfl

/-- The group a rebuild settled on, and the one it left. -/
theorem RebuildRun.left (run : RebuildRun sb ag ag' writes) : run.settled.free = ag'.free ∧
    run.settled.freeTotal = ag'.freeTotal ∧ run.settled.rmap = ag'.rmap ∧
    run.settled.chunks = ag'.chunks ∧
    ag'.oldTreeBlocks = expand run.agRun ++ expand run.inoRun ∧
    ag'.reserve = reserveFor (expand run.agRun ++ expand run.inoRun).length run.settled.len ∧
    ag'.agf = newAgf run.settled run.trees ∧ ag'.agi = newAgi sb run.settled run.trees := by
  have h := run.out
  exact ⟨((congrArg Ag.free h).trans (finished_free ..)).symm,
    ((congrArg Ag.freeTotal h).trans (finished_freeTotal ..)).symm,
    ((congrArg Ag.rmap h).trans (finished_rmap ..)).symm,
    ((congrArg Ag.chunks h).trans (finished_chunks ..)).symm,
    (congrArg Ag.oldTreeBlocks h).trans (finished_old ..), congrArg Ag.reserve h,
    (congrArg Ag.agf h).trans (finished_agf ..), (congrArg Ag.agi h).trans (finished_agi ..)⟩

/-- The tree of mappings, where the group has one. -/
theorem RebuildRun.walkRmap_eq (run : RebuildRun sb ag ag' writes) (hs : sb.Sound)
    (hd : Headed dev sb agno ag) (hagno : ag.agno = agno) (h : SpaceOk ag)
    (hsmall : ag'.oldTreeBlocks.length ≤ WALK_LIMIT) (hon : Stands dev' writes) :
    ∃ bs, bs.Perm ((expand run.agRun).drop (BNO.blocks (bnoRecs run.settled).length sb.blockSize +
        CNT.blocks (cntRecs run.settled).length sb.blockSize)) ∧
      walkRmap dev' sb agno ag'.agf =
        .ok (if sb.hasRmapbt then (rmapRecs run.settled).map (·.data) else [], bs) := by
  have hlen : ag.len ≤ 2 ^ 31 := (Superblock.agLen_le hd.agLen).1.trans hs.agBlocks_lt
  have hsagf := (run.kept h).2.2.2.2.2.1
  unfold walkRmap
  rcases buildIf_eq_ok.mp (buildTrees_ok run.built).rmap with ⟨hyes, t, ht, hopt⟩ | ⟨hno, -⟩
  · have hsub := (List.drop_sublist (BNO.blocks (bnoRecs run.settled).length sb.blockSize +
      CNT.blocks (cntRecs run.settled).length sb.blockSize) (expand run.agRun)).trans
      (List.sublist_append_left _ (expand run.inoRun))
    obtain ⟨hroot, hlevels, bs, hperm, hwalk⟩ := run.walks hs hd hagno h hsmall hon (by simp)
      (fun r hr => by
        obtain ⟨x, -, rfl⟩ := List.mem_map.mp hr
        exact recOk_rmap x) hsub ht (fun b hb => by unfold Trees.blocks; simp [hopt, hb])
    have hf : ∀ {o v}, (o, v) ∈ [(24, t.root), (36, t.levels)] → v < 2 ^ 32 → be32 ag'.agf o = v := by
      intro o v hm hv
      rw [run.left.2.2.2.2.2.2.1]
      refine be32_newAgf (hsagf ▸ hd.agfEnds) ?_ hv
      unfold agfFields
      rw [hopt]
      simp only [List.mem_cons, List.not_mem_nil, or_false] at hm
      rcases hm with hm | hm <;> simp [hm]
    rw [if_pos hyes, if_pos hyes, hf List.mem_cons_self hroot, hf (by simp) hlevels]
    exact ⟨bs, hperm, hwalk⟩
  · rw [(run.blocks_eq hs h hlen).2.1 hno, hno]
    exact ⟨[], List.Perm.refl _, rfl⟩

/-- The tree of chunks with free inodes, where the group has one. -/
theorem RebuildRun.walkFinobt_eq (run : RebuildRun sb ag ag' writes) (hs : sb.Sound)
    (hd : Headed dev sb agno ag) (hagno : ag.agno = agno) (h : SpaceOk ag)
    (hsmall : ag'.oldTreeBlocks.length ≤ WALK_LIMIT) (hon : Stands dev' writes) :
    ∃ recs bs, bs.Perm ((expand run.inoRun).drop
        (INOBT.blocks (inobtRecs sb run.settled).length sb.blockSize)) ∧
      walkFinobt dev' sb agno ag'.agi = .ok (recs, bs) := by
  have hlen : ag.len ≤ 2 ^ 31 := (Superblock.agLen_le hd.agLen).1.trans hs.agBlocks_lt
  obtain ⟨hholds, hfino⟩ := run.agiHolds h hd.agiEnds
  have hagi := run.left.2.2.2.2.2.2.2
  unfold walkFinobt
  rcases buildIf_eq_ok.mp (buildTrees_ok run.built).finobt with ⟨hyes, t, ht, hopt⟩ | ⟨hno, -⟩
  · have hsub := (List.drop_sublist (INOBT.blocks (inobtRecs sb run.settled).length sb.blockSize)
      (expand run.inoRun)).trans (List.sublist_append_right (expand run.agRun) _)
    obtain ⟨hroot, hlevels, bs, hperm, hwalk⟩ := run.walks hs hd hagno h hsmall hon (by simp)
      (fun r hr => by
        obtain ⟨x, -, rfl⟩ := List.mem_map.mp hr
        exact (recOk_chunk _ _).2) hsub ht (fun b hb => by unfold Trees.blocks; simp [hopt, hb])
    have hf : ∀ {o v}, (o, v) ∈ [(328, t.root), (332, t.levels)] → v < 2 ^ 32 → be32 ag'.agi o = v := by
      intro o v hm hv
      rw [hagi]
      refine be32_newAgi hholds hfino (List.mem_append_left _ (List.mem_append_right _ ?_)) hv
      rw [hopt]
      exact hm
    have hlong : 336 ≤ ag'.agi.length := by
      rw [hagi, length_newAgi hholds hfino]
      exact hholds.2.1 hyes
    rw [if_pos hyes, except_throwIf_bind_of_not (by omega), hf List.mem_cons_self hroot,
      hf (by simp) hlevels]
    exact ⟨_, bs, hperm, hwalk⟩
  · rw [(run.blocks_eq hs h hlen).2.2 hno, hno]
    exact ⟨[], [], List.Perm.refl _, rfl⟩

/-- What a rebuild wrote is loaded as the group it left, its mappings merged. -/
theorem RebuildRun.load_eq (run : RebuildRun sb ag ag' writes) (hs : sb.Sound)
    (hd : Headed dev sb agno ag) (h : Spaced agno ag.len ag) (hrun : rebuild sb ag = .ok writes ag')
    (hchunks : ∀ e ∈ ag.chunks.entries, Chunk.Stored sb e) (hst : ∀ r ∈ ag.rmap.keys, r.Stored)
    (hsmall : ag'.oldTreeBlocks.length ≤ WALK_LIMIT) (hon : Stands dev' writes)
    (hagfl : dev'.readAt (headerAt sb agno 3) sb.sect = dev.readAt (headerAt sb agno 3) sb.sect) :
    ∃ rmap old, load dev' sb agno = .ok { ag' with rmap := rmap, oldTreeBlocks := old } ∧
      rmap.keys = (if sb.hasRmapbt then merged ag'.rmap else []) ∧ old.Perm ag'.oldTreeBlocks := by
  have hspace := h.space
  have hagno := h.agno_eq
  have hlen : ag.len ≤ 2 ^ 31 := (Superblock.agLen_le hd.agLen).1.trans hs.agBlocks_lt
  have hd' := (hd.rebuilt hspace run).on hagfl
  have hspace' : SpaceOk ag' := (h.rebuilt hrun).space
  obtain ⟨hkagno, hklen, hkchunks, hkdirty, -, hsagf, hsagi⟩ := run.kept hspace
  obtain ⟨hholds, hfino⟩ := run.agiHolds hspace hd.agiEnds
  obtain ⟨hfree, -, hrmap, hschunks, hold, hreserve, hagf, hagi⟩ := run.left
  have hbuilt := buildTrees_ok run.built
  rw [← hold, run.len_eq hspace, ← hklen] at hreserve
  -- the fields that name the trees
  have hf : ∀ {o v}, (o, v) ∈ agfFields run.settled run.trees → v < 2 ^ 32 → be32 ag'.agf o = v :=
    fun hm hv => by rw [hagf]; exact be32_newAgf (hsagf ▸ hd.agfEnds) hm hv
  have hi : ∀ {o v}, (o, v) ∈ agiFields sb run.settled run.trees → v < 2 ^ 32 → be32 ag'.agi o = v :=
    fun hm hv => by rw [hagi]; exact be32_newAgi hholds hfino hm hv
  have hleft : ∀ {l : List Nat}, l.Sublist (expand run.agRun) →
      l.Sublist (expand run.agRun ++ expand run.inoRun) := fun hl =>
    hl.trans (List.sublist_append_left _ _)
  have hright : ∀ {l : List Nat}, l.Sublist (expand run.inoRun) →
      l.Sublist (expand run.agRun ++ expand run.inoRun) := fun hl =>
    hl.trans (List.sublist_append_right _ _)
  -- the walks of the trees every group has
  obtain ⟨r1, l1, bs1, p1, w1⟩ := run.walks hs hd hagno hspace hsmall hon (by simp) (fun r hr => by
    obtain ⟨e, -, rfl⟩ := List.mem_map.mp hr
    exact (recOk_freeRec e).1) (hleft (List.take_sublist _ _)) hbuilt.bno
    (fun b hb => by unfold Trees.blocks; simp [hb])
  obtain ⟨r2, l2, bs2, p2, w2⟩ := run.walks hs hd hagno hspace hsmall hon (by simp) (fun r hr => by
    obtain ⟨e, -, rfl⟩ := List.mem_map.mp ((List.mem_insertionSort _).mp hr)
    exact (recOk_freeRec e).2)
    (hleft ((List.take_sublist _ _).trans (List.drop_sublist _ _))) hbuilt.cnt
    (fun b hb => by unfold Trees.blocks; simp [hb])
  obtain ⟨r4, l4, bs4, p4, w4⟩ := run.walks hs hd hagno hspace hsmall hon (by simp) (fun r hr => by
    obtain ⟨e, -, rfl⟩ := List.mem_map.mp hr
    exact (recOk_chunk _ _).1) (hright (List.take_sublist _ _)) hbuilt.inobt
    (fun b hb => by unfold Trees.blocks; simp [hb])
  obtain ⟨bs3, p3, w3⟩ := run.walkRmap_eq hs hd hagno hspace hsmall hon
  obtain ⟨rec5, bs5, p5, w5⟩ := run.walkFinobt_eq hs hd hagno hspace hsmall hon
  have h16 : be32 ag'.agf 16 = run.trees.bno.root := hf (by unfold agfFields; simp) r1
  have h28 : be32 ag'.agf 28 = run.trees.bno.levels := hf (by unfold agfFields; simp) l1
  have h20 : be32 ag'.agf 20 = run.trees.cnt.root := hf (by unfold agfFields; simp) r2
  have h32 : be32 ag'.agf 32 = run.trees.cnt.levels := hf (by unfold agfFields; simp) l2
  have i20 : be32 ag'.agi 20 = run.trees.inobt.root := hi (by unfold agiFields; simp) r4
  have i24 : be32 ag'.agi 24 = run.trees.inobt.levels := hi (by unfold agiFields; simp) l4
  have hsum : ag'.free.values.sum < 2 ^ 32 := by
    rw [← hspace'.total]
    have := hspace'.total_le
    omega
  have h52 : be32 ag'.agf 52 = ag'.free.values.sum := by
    rw [← hfree] at hsum ⊢
    exact hf (by unfold agfFields; simp) hsum
  -- the blocks walked are the blocks carved
  have hperm : (bs1 ++ bs2 ++ bs3 ++ bs4 ++ bs5).Perm ag'.oldTreeBlocks := by
    have hshares := (((p1.append p2).append p3).append p4).append p5
    rw [shares_eq, ← hold] at hshares
    exact hshares
  have hloadfree := @SpaceOk.loadFree_eq agno ag' hspace' (hklen.trans_le hlen)
  rw [show bnoRecs ag' = bnoRecs run.settled by unfold bnoRecs; rw [hfree]] at hloadfree
  have hino := chunks_of_stored fun e he => hchunks e (hkchunks ▸ he)
  have hrecs : inobtRecs sb run.settled = ag'.chunks.entries.map fun e => e.2.encode sb e.1 := by
    unfold inobtRecs
    rw [hschunks]
  refine ⟨.ofList ((if sb.hasRmapbt then (rmapRecs run.settled).map (·.data) else []).map
    fun r => (Rmap.decode r, ())), bs1 ++ bs2 ++ bs3 ++ bs4 ++ bs5, ?_, ?_, hperm⟩
  · unfold load
    rw [run.readHeaders_eq hd hagno hspace hon, except_ok_bind]
    simp only
    rw [hd'.agf.2.2, hd'.agLen, except_ok_bind, except_throwIf_bind_of_not (by simp), h16, h28, w1,
      except_ok_bind]
    simp only
    rw [hloadfree, except_ok_bind, except_throwIf_bind_of_not (by simp [h52]), h20, h32, w2,
      except_ok_bind]
    simp only
    rw [w3, except_ok_bind]
    simp only
    rw [i20, i24, w4, except_ok_bind]
    simp only
    rw [w5, except_ok_bind]
    simp only
    rw [hd'.agfl, except_ok_bind, hrecs, hino, hperm.length_eq, ← hreserve, ← hspace'.total, ← hkdirty,
      ← hkagno.trans hagno]
    rfl
  · split
    · rw [rmapRecs, hrmap]
      refine keys_of_stored ?_
      rw [← hrmap]
      exact run.rmap_stored hspace hlen hd.agfl_lt hst
    · rfl

end

/-! ## Over a run -/

/-- One thing the writer does to a group in memory: an operation that frees no block of its
headers, or a rebuild. -/
inductive TidyStep (sb : Superblock) : Ag → Ag → Prop where
  | op {ag ag' : Ag} (h : Op sb ag ag')
      (hkeep : ∀ b, b * sb.blockSize < 4 * sb.sectorSize → freeAt ag'.free b ≤ freeAt ag.free b) :
      TidyStep sb ag ag'
  | rebuild {ag ag' : Ag} {writes : List (Nat × Bytes)} (h : rebuild sb ag = .ok writes ag') :
      TidyStep sb ag ag'

/-- A group that a rebuild may write and the reader find again. -/
structure Loadable (dev : Device) (sb : Superblock) (agno len : Nat) (ag : Ag) : Prop where
  spaced : Spaced agno len ag
  headed : Headed dev sb agno ag
  chunks : ∀ e ∈ ag.chunks.entries, Chunk.Stored sb e
  rmap : ∀ r ∈ ag.rmap.keys, r.Stored
  clear : HeadersClear sb ag

section
variable {dev : Device} {sb : Superblock} {agno len : Nat} {ag ag' : Ag}

theorem LoadRun.loadable (run : LoadRun dev sb agno ag) (hclear : HeadersClear sb ag) :
    Loadable dev sb agno ag.len ag :=
  ⟨⟨run.spaceOk, run.agno_eq, rfl⟩, run.headed, run.chunks_stored, run.rmap_stored, hclear⟩

/-- The blocks carved are none of the headers'. -/
theorem RebuildRun.headersClear {writes : List (Nat × Bytes)} (run : RebuildRun sb ag ag' writes)
    (h : SpaceOk ag) (hclear : HeadersClear sb ag) : HeadersClear sb ag' := by
  intro b hb
  obtain ⟨hfree, hold⟩ := hclear b hb
  obtain ⟨hsfree, -, -, -, hsold, -⟩ := run.left
  have hat := (run.placed h).at_ b
  rw [(run.gaveBack h).at_, hfree, List.count_eq_zero_of_not_mem hold, hsfree] at hat
  refine ⟨by omega, fun hin => ?_⟩
  rw [hsold] at hin
  rcases run.carved_from h hin with hpos | hin
  · omega
  · exact hold hin

/-- Every step keeps it so. -/
theorem TidyStep.loadable (hs : sb.Sound) (hblocks : 0 < CHUNK_INODES / sb.inodesPerBlock)
    (h : Loadable dev sb agno len ag) (hstep : TidyStep sb ag ag') : Loadable dev sb agno len ag' := by
  obtain ⟨hspaced, hheaded, hchunks, hrmap, hclear⟩ := h
  have hlen : ag.len ≤ 2 ^ 31 := (Superblock.agLen_le hheaded.agLen).1.trans hs.agBlocks_lt
  cases hstep with
  | op hop hkeep =>
    obtain ⟨hlen', hagf, hagi, hagfl, hold⟩ := hop.same hblocks hspaced.space.freeOk
    refine ⟨hop.spaced hblocks hspaced, hheaded.of_same hlen' hagf hagi hagfl,
      hop.chunks_stored hblocks hspaced.space.freeOk hchunks,
      hop.rmap_stored hblocks hspaced.space hlen hrmap, fun b hb => ?_⟩
    obtain ⟨hfree, hnot⟩ := hclear b hb
    exact ⟨Nat.le_zero.mp ((hkeep b hb).trans hfree.le), hold ▸ hnot⟩
  | rebuild hrun =>
    obtain ⟨run⟩ := rebuild_ok hrun
    refine ⟨hspaced.rebuilt hrun, hheaded.rebuilt hspaced.space run, ?_, ?_,
      run.headersClear hspaced.space hclear⟩
    · rw [(run.kept hspaced.space).2.2.1]
      exact hchunks
    · rw [← run.left.2.2.1]
      exact run.rmap_stored hspaced.space hlen hheaded.agfl_lt hrmap

end

/-- A group that was loaded with its headers' blocks taken and changed by any run of operations and
rebuilds that frees none of them, then rebuilt once more: when all that this writes is on the
device, loading the group gives back the free space, the chunks, the free list and the headers
it had in memory, its mappings merged, and the blocks its trees are in. -/
theorem rebuilt_group_reloads {buf : Bytes} {dev dev1 dev2 : Device} {sb : Superblock} {agno : Nat}
    {ag0 ag ag' : Ag} {writes : List (Nat × Bytes)} (hsb : Superblock.parse buf = .ok sb)
    (hw : sb.checkWritable = .ok ()) (hends : sb.dataBlocks * sb.blockSize < 2 ^ 64)
    (hload : load dev sb agno = .ok ag0) (hclear : HeadersClear sb ag0)
    (hrun : Relation.ReflTransGen (TidyStep sb) ag0 ag) (hre : rebuild sb ag = .ok writes ag')
    (hsmall : ag'.oldTreeBlocks.length ≤ WALK_LIMIT)
    (hagfl : dev1.readAt (headerAt sb agno 3) sb.sect = dev.readAt (headerAt sb agno 3) sb.sect)
    (hwrite : Device.writeAll writes dev1 = .ok () dev2) :
    ∃ rmap old, load dev2 sb agno = .ok { ag' with rmap := rmap, oldTreeBlocks := old } ∧
      rmap.keys = (if sb.hasRmapbt then merged ag'.rmap else []) ∧ old.Perm ag'.oldTreeBlocks ∧
      old.Nodup := by
  have hs := Superblock.sound_of_parse hsb
  have hblocks : 0 < CHUNK_INODES / sb.inodesPerBlock :=
    Nat.div_pos (Superblock.checkWritable_ok hw).2.2 hs.inodesPerBlock_pos
  obtain ⟨loaded⟩ := load_ok hload
  obtain ⟨hspaced, hheaded, hchunks, hrmap, hclear⟩ : Loadable dev sb agno ag0.len ag :=
    run_invariant (fun _ _ h hstep => hstep.loadable hs hblocks h) (loaded.loadable hclear) hrun
  obtain ⟨run⟩ := rebuild_ok hre
  obtain ⟨hapart, haway⟩ := run.apart hs hends hheaded hspaced.agno_eq hspaced.space hclear
  have hon : Stands dev2 writes := fun w hin => Device.readAt_writeAll hwrite hapart hin
  have hsame := (Device.readAt_writeAll_disjoint hwrite haway).trans hagfl
  have hnodup : ag'.oldTreeBlocks.Nodup := by
    rw [run.left.2.2.2.2.1]
    exact (run.carved hspaced.space).2.1
  rw [← hspaced.len_eq] at hspaced
  obtain ⟨rmap, old, hagain, hkeys, hperm⟩ :=
    run.load_eq hs hheaded hspaced hre hchunks hrmap hsmall hon hsame
  exact ⟨rmap, old, hagain, hkeys, hperm, hperm.nodup_iff.mpr hnodup⟩

/-- The small group with a block given to a file. -/
def filedAg : Ag :=
  { freshAg 16 true with
    free := .ofList [(9, 7)]
    freeTotal := 7
    rmap := (freshAg 16 true).rmap.insert ⟨8, 200, 0, 1⟩ ()
    dirty := true }

theorem filedAg_run : Relation.ReflTransGen (TidyStep (freshSb 16 true)) (freshAg 16 true) filedAg := by
  have halloc : alloc 1 0 (freshAg 16 true) = .ok (some (8, 1))
      { freshAg 16 true with free := .ofList [(9, 7)], freeTotal := 7, dirty := true } := rfl
  have hadd : rmapAdd (freshSb 16 true) 8 1 200 0
      { freshAg 16 true with free := .ofList [(9, 7)], freeTotal := 7, dirty := true } =
      .ok () filedAg := rfl
  refine (Relation.ReflTransGen.single (.op (.alloc halloc) fun b _ => ?_)).tail
    (.op (.rmapAdd ⟨by norm_num, by norm_num, by norm_num, by norm_num⟩ hadd) fun b _ => le_refl _)
  change within 9 7 b + 0 ≤ within 8 8 b + 0
  unfold within
  split_ifs <;> omega

set_option maxRecDepth 100000 in
/-- A block of a small group is given to a file and recorded, the trees are rebuilt and the group is
loaded again. -/
theorem rebuilt_group_reloads_small : ∃ ag' : Ag, ∃ dev2 : Device, ∃ rmap old,
    load dev2 (freshSb 16 true) 0 = .ok { ag' with rmap := rmap, oldTreeBlocks := old } ∧
      rmap.keys = merged ag'.rmap ∧ old.Perm ag'.oldTreeBlocks ∧ old.Nodup := by
  have hload : load ⟨(freshDevice 16 true).data ++ List.replicate 4096 0, []⟩ (freshSb 16 true) 0 =
      .ok (freshAg 16 true) := by decide +kernel
  have hrun : okAnd (fun writes ag' => decide (ag'.oldTreeBlocks.length ≤ 4) &&
      isOk (Device.writeAll writes ⟨(freshDevice 16 true).data ++ List.replicate 4096 0, []⟩))
        (rebuild (freshSb 16 true) filedAg) = true := by
    decide +kernel
  obtain ⟨writes, ag', hre, hrest⟩ := exists_of_okAnd hrun
  obtain ⟨hsmall, hwrites⟩ := (Bool.and_eq_true _ _).mp hrest
  obtain ⟨_, dev2, hwrite⟩ := exists_of_isOk hwrites
  have hclear : HeadersClear (freshSb 16 true) (freshAg 16 true) := by
    intro b hb
    have hlow : b < 4 := by
      change b * 512 < 4 * 512 at hb
      omega
    refine ⟨?_, ?_⟩
    · change within 8 8 b + 0 = 0
      exact within_eq_zero.mpr (by omega)
    · change b ∉ [4, 5, 6, 7]
      simp only [List.mem_cons, List.not_mem_nil, or_false]
      omega
  obtain ⟨rmap, old, h⟩ := rebuilt_group_reloads parse_fresh (by decide) (by decide) hload
    hclear filedAg_run hre ((of_decide_eq_true hsmall).trans (by decide)) rfl hwrite
  exact ⟨ag', dev2, rmap, old, h⟩

end FioXfs.Alloc
