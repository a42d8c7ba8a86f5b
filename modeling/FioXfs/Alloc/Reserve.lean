import FioXfs.Alloc.HandBack
import FioXfs.Alloc.Load
import FioXfs.Alloc.Rebuilt
set_option autoImplicit false

/-!
# When a rebuild finds room

Ordinary allocations leave `reserve` blocks alone so that the trees can be rebuilt, but the
reserve is fixed when the group is loaded and the records are not.  A rebuild finds no space
exactly when some size that comes of the record counts does not fit in the blocks free with the
old trees' blocks given back, whatever the reserve.
-/

namespace FioXfs.Alloc

open FioXfs.Lib FioXfs.Btree

/-! ## What else can fail -/

theorem mergeBefore_error {start n : Nat} {ag s : Ag} {e : Error}
    (h : mergeBefore start n ag = .error e s) : e.isNoSpace = false := by
  unfold mergeBefore at h
  simp only [get_bind_apply] at h
  cases hl : ag.free.lastBelow start with
  | none => simp [hl] at h
  | some x =>
    simp only [hl] at h
    rcases bind_eq_error.mp h with h | ⟨_, _, _, h⟩
    · obtain ⟨_, rfl, _⟩ := act_throwIf_eq_error.mp h
      rfl
    rcases bind_eq_error.mp h with h | ⟨_, _, _, h⟩
    · obtain ⟨_, rfl, _⟩ := act_throwIf_eq_error.mp h
      rfl
    · split at h <;> simp at h

theorem mergeAfter_error {start len n : Nat} {ag s : Ag} {e : Error}
    (h : mergeAfter start len n ag = .error e s) : e.isNoSpace = false := by
  unfold mergeAfter at h
  simp only [get_bind_apply] at h
  cases hl : (ag.free.entriesFrom start).head? with
  | none => simp [hl] at h
  | some x =>
    simp only [hl] at h
    rcases bind_eq_error.mp h with h | ⟨_, _, _, h⟩
    · obtain ⟨_, rfl, _⟩ := act_throwIf_eq_error.mp h
      rfl
    split at h
    · simp only [set_bind_apply] at h
      rcases bind_eq_error.mp h with h | ⟨_, _, _, h⟩
      · obtain ⟨_, rfl, _⟩ := act_throwIf_eq_error.mp h
        rfl
      · simp at h
    · simp at h

theorem freeExtent_error {start n : Nat} {ag s : Ag} {e : Error}
    (h : freeExtent start n ag = .error e s) : e.isNoSpace = false := by
  unfold freeExtent at h
  simp only [get_bind_apply] at h
  rcases bind_eq_error.mp h with h | ⟨_, _, _, h⟩
  · obtain ⟨_, rfl, _⟩ := act_throwIf_eq_error.mp h
    rfl
  rcases bind_eq_error.mp h with h | ⟨_, _, _, h⟩
  · exact mergeBefore_error h
  rcases bind_eq_error.mp h with h | ⟨_, _, _, h⟩
  · exact mergeAfter_error h
  · simp at h

theorem freeAll_error {bs : List Nat} : ∀ {ag s : Ag} {e : Error},
    freeAll bs ag = .error e s → e.isNoSpace = false := by
  induction bs with
  | nil => intro ag s e h; simp [freeAll] at h
  | cons b bs ih =>
    intro ag s e h
    rcases bind_eq_error.mp h with h | ⟨_, _, _, h⟩
    · exact freeExtent_error h
    · exact ih h

theorem mapM_encode_panics : ∀ {rs : List Rmap} {e : Error}, rs.mapM Rmap.encode = .error e →
    ∃ what, e = .panic what := by
  intro rs
  induction rs with
  | nil => intro e h; cases h
  | cons r rs ih =>
      intro e h
      rw [List.mapM_cons] at h
      rcases except_bind_eq_error.mp h with h | ⟨_, _, h⟩
      · unfold Rmap.encode at h
        rcases except_bind_eq_error.mp h with h | ⟨_, _, h⟩
        · exact ⟨_, (except_throwIf_eq_error.mp h).2.symm⟩
        rcases except_bind_eq_error.mp h with h | ⟨_, _, h⟩
        · exact ⟨_, (except_throwIf_eq_error.mp h).2.symm⟩
        · cases h
      rcases except_bind_eq_error.mp h with h | ⟨_, _, h⟩
      · exact ih h
      · cases h

/-- Building stops the program or succeeds. -/
theorem buildTrees_panics {sb : Superblock} {ag : Ag} {agList inoList : List Nat} {e : Error}
    (h : buildTrees sb ag agList inoList = .error e) : ∃ what, e = .panic what := by
  have hguard : ∀ {c : Prop} [Decidable c] {what : String},
      (failIf c (.panic what) : Result Unit) = .error e → ∃ what, e = .panic what := by
    intro c _ what hc
    exact ⟨what, (except_throwIf_eq_error.mp hc).2.symm⟩
  have hag : ∀ {spec recs addrs}, buildAg sb ag.agno spec recs addrs = .error e →
      ∃ what, e = .panic what := by
    intro spec recs addrs hb
    unfold buildAg at hb
    rcases except_bind_eq_error.mp hb with hb | ⟨_, _, hb⟩
    · exact hguard hb
    · cases hb
  have hif : ∀ {c spec recs addrs}, buildIf c (buildAg sb ag.agno spec recs addrs) = .error e →
      ∃ what, e = .panic what := by
    intro c spec recs addrs hb
    unfold buildIf at hb
    split at hb
    · cases hx : buildAg sb ag.agno spec recs addrs with
      | ok t => rw [hx] at hb; cases hb
      | error e' =>
        rw [hx] at hb
        cases hb
        exact hag hx
    · cases hb
  unfold buildTrees at h
  rcases except_bind_eq_error.mp h with h | ⟨_, _, h⟩
  · exact ⟨_, (mergedRmap_eq_error h).2⟩
  rcases except_bind_eq_error.mp h with h | ⟨_, _, h⟩
  · exact mapM_encode_panics h
  rcases except_bind_eq_error.mp h with h | ⟨_, _, h⟩
  · exact hguard h
  rcases except_bind_eq_error.mp h with h | ⟨_, _, h⟩
  · exact hag h
  rcases except_bind_eq_error.mp h with h | ⟨_, _, h⟩
  · exact hag h
  rcases except_bind_eq_error.mp h with h | ⟨_, _, h⟩
  · exact hif h
  rcases except_bind_eq_error.mp h with h | ⟨_, _, h⟩
  · exact hguard h
  rcases except_bind_eq_error.mp h with h | ⟨_, _, h⟩
  · exact hag h
  rcases except_bind_eq_error.mp h with h | ⟨_, _, h⟩
  · exact hif h
  · cases h

theorem giveBack_error {sb : Superblock} {ag s : Ag} {e : Error}
    (h : giveBack sb ag = .error e s) : e.isNoSpace = false := by
  unfold giveBack at h
  simp only [get_bind_apply, set_bind_apply] at h
  rcases bind_eq_error.mp h with h | ⟨_, ag1, _, h⟩
  · exact freeAll_error h
  rw [bind_of_ok (modify_apply _ _)] at h
  obtain ⟨ag', h', _⟩ := @rmapAddAll_eq sb OWN_AG (ag.agfl.map (·, 1))
    { ag1 with rmap := ag1.rmap.filter fun e => e.1.owner != OWN_AG && e.1.owner != OWN_INOBT }
  rw [h'] at h
  cases h

theorem giveBack_of_freeAll {sb : Superblock} {ag ag1 : Ag} {u : Unit} (hagfl : ag.agfl = [])
    (h : freeAll ag.oldTreeBlocks { ag with oldTreeBlocks := [] } = .ok u ag1) :
    giveBack sb ag = .ok () { ag1 with
      rmap := ag1.rmap.filter fun e => e.1.owner != OWN_AG && e.1.owner != OWN_INOBT } := by
  unfold giveBack
  simp only [get_bind_apply, set_bind_apply]
  rw [bind_of_ok h, bind_of_ok (modify_apply _ _), hagfl]
  rfl

/-! ## When a rebuild finds no space -/

section
variable {sb : Superblock} {ag base s : Ag} {e : Error}

/-- What a rebuild says once the sizes have settled, it says as the program stops. -/
theorem rebuild_after_settle {first : Nat} {runs : List (Nat × Nat) × List (Nat × Nat)} {ag1 : Ag}
    (hgive : giveBack sb ag = .ok () base) (hfirst : firstNeed sb base = .ok first)
    (hsettle : settle sb base (inoNeed sb base.chunks) 32 first base = .ok runs ag1)
    (h : rebuild sb ag = .error e s) : e.isPanic = true := by
  unfold rebuild at h
  rw [bind_of_ok hgive] at h
  simp only [get_bind_apply] at h
  rw [bind_of_ok (liftE_eq_ok.mpr ⟨hfirst, rfl⟩), bind_of_ok hsettle] at h
  simp only [get_bind_apply] at h
  rcases bind_eq_error.mp h with h | ⟨_, _, _, h⟩
  · obtain ⟨what, rfl⟩ := buildTrees_panics (liftE_eq_error.mp h).1
    rfl
  rcases bind_eq_error.mp h with h | ⟨_, _, _, h⟩
  · obtain ⟨_, rfl, _⟩ := act_throwIf_eq_error.mp h
    rfl
  rcases bind_eq_error.mp h with h | ⟨_, _, _, h⟩
  · obtain ⟨_, rfl, _⟩ := act_throwIf_eq_error.mp h
    rfl
  · simp at h

/-- What the loop says, the rebuild says. -/
theorem rebuild_of_settle_error {first : Nat} (hgive : giveBack sb ag = .ok () base)
    (hfirst : firstNeed sb base = .ok first)
    (h : settle sb base (inoNeed sb base.chunks) 32 first base = .error e s) :
    rebuild sb ag = .error e s := by
  unfold rebuild
  rw [bind_of_ok hgive]
  simp only [get_bind_apply]
  rw [bind_of_ok (liftE_eq_ok.mpr ⟨hfirst, rfl⟩), bind_of_error h]

/-- With the old trees' blocks given back, every size that comes of the record counts fits, beside
the inode trees, in what is free then. -/
def TreesFit (sb : Superblock) (ag : Ag) : Prop :=
  Returnable ag → ∀ p, Comes sb (handedBack sb ag) p →
    inoNeed sb ag.chunks + p ≤ ag.freeTotal + ag.oldTreeBlocks.length

/-- A rebuild runs out of space exactly when a size comes that does not fit. -/
theorem rebuild_noSpace_iff (hs : sb.Sound) (hspace : SpaceOk ag) (hlen : ag.len ≤ 2 ^ 31) :
    (∃ e s, rebuild sb ag = .error e s ∧ e.isNoSpace = true) ↔ ¬TreesFit sb ag := by
  have hreturn := @giveBack_succeeds_iff sb ag hspace (by omega)
  have hroom : ∀ {base}, giveBack sb ag = .ok () base →
      base.freeTotal = ag.freeTotal + ag.oldTreeBlocks.length ∧ base.chunks = ag.chunks := fun hgive =>
    have hg := giveBack_space hspace.freeOk hspace.total hgive
    ⟨hg.count, hg.same.chunks⟩
  suffices hshort : (∃ e s, rebuild sb ag = .error e s ∧ e.isNoSpace = true) ↔
      ∃ base, giveBack sb ag = .ok () base ∧ ∃ p, Comes sb base p ∧
        base.freeTotal < inoNeed sb base.chunks + p by
    rw [hshort]
    unfold TreesFit
    push Not
    constructor
    · rintro ⟨base, hgive, p, hcomes, hlt⟩
      obtain ⟨hcount, hchunks⟩ := hroom hgive
      rw [hcount, hchunks] at hlt
      exact ⟨hreturn.mp ⟨base, hgive⟩, p, (comes_handedBack hspace.freeOk hgive).mpr hcomes, hlt⟩
    · rintro ⟨hcan, p, hcomes, hlt⟩
      obtain ⟨base, hgive⟩ := hreturn.mpr hcan
      obtain ⟨hcount, hchunks⟩ := hroom hgive
      exact ⟨base, hgive, p, (comes_handedBack hspace.freeOk hgive).mp hcomes,
        by rw [hcount, hchunks]; exact hlt⟩
  constructor
  · rintro ⟨e, s, h, hno⟩
    have hsame := h
    unfold rebuild at h
    rcases bind_eq_error.mp h with h | ⟨_, base, hgive, h⟩
    · rw [giveBack_error h] at hno
      cases hno
    have hg := giveBack_space hspace.freeOk hspace.total hgive
    simp only [get_bind_apply] at h
    rcases bind_eq_error.mp h with h | ⟨first, base', hlift, h⟩
    · obtain ⟨h, -⟩ := liftE_eq_error.mp h
      rcases except_bind_eq_error.mp h with h | ⟨_, _, h⟩
      · rw [(mergedRmap_eq_error h).2] at hno
        cases hno
      · cases h
    obtain ⟨hfirst, rfl⟩ := liftE_eq_ok.mp hlift
    obtain ⟨hends, rfl⟩ := firstNeed_eq_ok.mp hfirst
    refine ⟨base, hgive, ?_⟩
    rcases @settle_outcome sb base hg.freeOk hg.total 32 (firstSize sb base) base (.refl base) with
      ⟨i, -, -, -, runs, ag1, hsettle⟩ | ⟨i, -, hgo, -, e', s', hsettle, hwhy⟩ | ⟨-, s', hsettle⟩
    · rw [Error.isNoSpace_of_isPanic (rebuild_after_settle hgive hfirst hsettle hsame)] at hno
      cases hno
    · rw [rebuild_of_settle_error hgive hfirst hsettle] at hsame
      cases hsame
      exact ⟨_, comes_iff.mpr ⟨hends, i, rfl, hgo⟩, hwhy.mp hno⟩
    · rw [rebuild_of_settle_error hgive hfirst hsettle] at hsame
      cases hsame
      cases hno
  · rintro ⟨base, hgive, p, hcomes, hshort⟩
    have hg := giveBack_space hspace.freeOk hspace.total hgive
    have hbase := hg.spaceOk hspace.inside
    obtain ⟨hends, n, rfl, hall⟩ := comes_iff.mp hcomes
    have hfirst : firstNeed sb base = .ok (firstSize sb base) := firstNeed_eq_ok.mpr ⟨hends, rfl⟩
    have hnot : ¬Carvable sb base ((needAfter sb base)^[n] (firstSize sb base)) := fun h =>
      absurd h.1 (not_le.mpr hshort)
    rcases @settle_outcome sb base hg.freeOk hg.total 32 (firstSize sb base) base (.refl base) with
      ⟨i, -, hgo, hfix, -⟩ | ⟨i, -, hgo, hno, e, s, hsettle, hwhy⟩ | ⟨hgo, -⟩
    · -- After a size that is its own need, none is new.
      rcases Nat.le_total n i with hle | hge
      · exact absurd (hgo n hle) hnot
      · rw [iterate_of_fixed hfix hge] at hnot
        exact absurd (hgo i (le_refl i)) hnot
    · -- The sizes stop at the first that cannot be carved.
      rcases Nat.lt_trichotomy n i with hlt | rfl | hgt
      · exact absurd (hgo n hlt) hnot
      · exact ⟨e, s, rebuild_of_settle_error hgive hfirst hsettle, hwhy.mpr hshort⟩
      · exact absurd (hall i hgt) hno
    · -- 32 sizes that can be carved are all there are.
      have hblen : base.len = ag.len := by rw [hg.same]
      have htotal : base.freeTotal ≤ 2 ^ 31 := hbase.total_le.trans (hblen ▸ hlen)
      obtain ⟨i, j, hij, hj, heq⟩ := @exists_size_twice sb base (firstSize sb base) hs hg.freeOk hg.total
        htotal fun m hm => (hgo m hm).1.1
      obtain ⟨m, hm, hsame⟩ := iterate_of_repeat hij heq n
      rw [hsame] at hnot
      exact absurd (hgo m (hm.trans hj)).1 hnot

end

/-! ## Over a run -/

/-- One successful operation on a group: those that take or give back space or inodes,
and those on the mappings, in any order.  What is recorded is made of words of their widths. -/
inductive Op (sb : Superblock) : Ag → Ag → Prop where
  | alloc {ag ag' : Ag} {want near : Nat} {r : Option (Nat × Nat)}
      (h : alloc want near ag = .ok r ag') : Op sb ag ag'
  | allocAligned {ag ag' : Ag} {len align : Nat} {r : Option Nat} (hlen : 0 < len)
      (h : allocAligned len align ag = .ok r ag') : Op sb ag ag'
  | allocBlockExcept {ag ag' : Ag} {not : Nat} {r : Option Nat}
      (h : allocBlockExcept not ag = .ok r ag') : Op sb ag ag'
  | freeExtent {ag ag' : Ag} {s n : Nat} (h : freeExtent s n ag = .ok () ag') : Op sb ag ag'
  | rmapAdd {ag ag' : Ag} {s n owner offset : Nat} (hwords : (Rmap.mk s owner offset n).Stored)
      (h : rmapAdd sb s n owner offset ag = .ok () ag') : Op sb ag ag'
  | rmapRemove {ag ag' : Ag} {s n owner : Nat} (h : rmapRemove sb s n owner ag = .ok () ag') :
      Op sb ag ag'
  | allocChunk {ag ag' : Ag} {r : Option Nat} (h : allocChunk sb ag = .ok r ag') : Op sb ag ag'
  | allocInode {ag ag' : Ag} {r : Option Nat} (h : allocInode ag = .ok r ag') : Op sb ag ag'
  | freeInode {ag ag' : Ag} {agino : Nat} (h : freeInode agino ag = .ok () ag') : Op sb ag ag'

theorem rmapAdd_same {sb : Superblock} {ag ag' : Ag} {s n owner offset : Nat} {u : Unit}
    (h : rmapAdd sb s n owner offset ag = .ok u ag') :
    ag' = { ag with rmap := ag'.rmap, dirty := ag'.dirty } := by
  unfold rmapAdd at h
  split at h
  · simp only [modify_apply, EStateM.Result.ok.injEq] at h
    rw [← h.2]
  · simp only [pure_apply, EStateM.Result.ok.injEq] at h
    rw [← h.2]

theorem rmapRemove_same {sb : Superblock} {ag ag' : Ag} {s n owner : Nat} {u : Unit}
    (h : rmapRemove sb s n owner ag = .ok u ag') :
    ag' = { ag with rmap := ag'.rmap, dirty := ag'.dirty } := by
  unfold rmapRemove at h
  split at h
  · simp only [pure_apply, EStateM.Result.ok.injEq] at h
    rw [← h.2]
  · obtain ⟨_, h⟩ := act_throwIf_bind_eq_ok.mp h
    simp only [get_bind_apply] at h
    obtain ⟨removed, ag1, hcut, h⟩ := bind_eq_ok.mp h
    obtain ⟨-, -, rfl⟩ := cutHits_eq_ok.mp hcut
    obtain ⟨_, h⟩ := act_throwIf_bind_eq_ok.mp h
    simp only [modify_apply, EStateM.Result.ok.injEq] at h
    rw [← h.2]

theorem allocBlockExcept_none {ag ag' : Ag} {not : Nat}
    (h : allocBlockExcept not ag = .ok none ag') : ag' = ag := by
  unfold allocBlockExcept at h
  simp only [get_bind_apply] at h
  split at h
  · simpa using h.symm
  · cases hb : ag.free.entries.findSome? (blockExcept not) with
    | none =>
      simp only [hb, pure_apply, EStateM.Result.ok.injEq] at h
      exact h.2.symm
    | some b =>
      simp only [hb] at h
      obtain ⟨u, ag1, _, hret⟩ := bind_eq_ok.mp h
      simp at hret

/-- The space of a group of a given number and length. -/
structure Spaced (agno len : Nat) (ag : Ag) : Prop where
  space : SpaceOk ag
  agno_eq : ag.agno = agno
  len_eq : ag.len = len

section
variable {sb : Superblock} {agno len : Nat} {ag ag' : Ag}

theorem Spaced.of_same (h : Spaced agno len ag) (hfree : ag'.free = ag.free)
    (htotal : ag'.freeTotal = ag.freeTotal) (hagno : ag'.agno = ag.agno) (hlen : ag'.len = ag.len) :
    Spaced agno len ag' :=
  ⟨h.space.of_same hfree htotal hlen, hagno.trans h.agno_eq, hlen.trans h.len_eq⟩

theorem Spaced.allocated {s n : Nat} (h : Spaced agno len ag) (ha : Allocated ag ag' s n) :
    Spaced agno len ag' := by
  refine ⟨h.space.allocated ha, ?_, ?_⟩ <;> obtain ⟨free', -, rfl⟩ := ha.takes
  · exact h.agno_eq
  · exact h.len_eq

theorem Op.spaced (hblocks : 0 < CHUNK_INODES / sb.inodesPerBlock) (h : Spaced agno len ag)
    (hop : Op sb ag ag') : Spaced agno len ag' := by
  have hf := h.space.freeOk
  cases hop with
  | @alloc want near r ha =>
      cases r with
      | none => exact alloc_none ha ▸ h
      | some e => exact h.allocated (alloc_ok hf ha).1
  | @allocAligned len' align r hlen ha =>
      cases r with
      | none => exact allocAligned_none ha ▸ h
      | some e => exact h.allocated (allocAligned_ok hf hlen ha)
  | @allocBlockExcept not r ha =>
      cases r with
      | none => exact allocBlockExcept_none ha ▸ h
      | some e => exact h.allocated (allocBlockExcept_ok hf ha).1
  | freeExtent hfree =>
      have hspace := h.space.freed hfree
      obtain ⟨-, -, free', -, rfl⟩ := freeExtent_ok hf hfree
      exact ⟨hspace, h.agno_eq, h.len_eq⟩
  | rmapAdd _ hadd =>
      rw [rmapAdd_same hadd]
      exact h.of_same rfl rfl rfl rfl
  | rmapRemove hrem =>
      rw [rmapRemove_same hrem]
      exact h.of_same rfl rfl rfl rfl
  | allocChunk hc =>
      rcases allocChunk_ok hf hblocks hc with rfl | ⟨s, ag1, ag2, ha, hadd, heq⟩
      · exact h
      · rw [heq, rmapAdd_same hadd]
        exact (h.allocated ha).of_same rfl rfl rfl rfl
  | allocInode hi =>
      rw [allocInode_ok hi]
      exact h.of_same rfl rfl rfl rfl
  | freeInode hi =>
      rw [freeInode_ok hi]
      exact h.of_same rfl rfl rfl rfl

end

/-- After any run of operations on a loaded group the next rebuild does not run out of space
exactly when every size that comes fits. -/
theorem reserve_enough {buf : Bytes} {dev : Device} {sb : Superblock} {agno : Nat} {ag ag' : Ag}
    (hsb : Superblock.parse buf = .ok sb) (hw : sb.checkWritable = .ok ())
    (hload : load dev sb agno = .ok ag) (hrun : Relation.ReflTransGen (Op sb) ag ag') :
    (∀ e s, rebuild sb ag' = .error e s → e.isNoSpace = false) ↔ TreesFit sb ag' := by
  have hs := Superblock.sound_of_parse hsb
  have hblocks : 0 < CHUNK_INODES / sb.inodesPerBlock :=
    Nat.div_pos (Superblock.checkWritable_ok hw).2.2 hs.inodesPerBlock_pos
  obtain ⟨run⟩ := load_ok hload
  have hspaced : Spaced agno ag.len ag' :=
    run_invariant (fun _ _ h hop => hop.spaced hblocks h) ⟨run.spaceOk, run.agno_eq, rfl⟩ hrun
  have hlen : ag'.len ≤ 2 ^ 31 := by
    rw [hspaced.len_eq]
    exact (Superblock.agLen_le run.agLen).1.trans hs.agBlocks_lt
  have hiff := @rebuild_noSpace_iff sb ag' hs hspaced.space hlen
  constructor
  · intro hnever
    by_contra hshort
    obtain ⟨e, s, hrun, hno⟩ := hiff.mpr hshort
    rw [hnever e s hrun] at hno
    cases hno
  · intro hfit e s hrun
    by_contra hno
    exact hiff.mp ⟨e, s, hrun, by simpa using hno⟩ hfit

theorem blocks_of_le {spec : AgSpec} {bs n : Nat} (hn : n ≤ spec.leafMax bs)
    (hpos : 0 < spec.leafMax bs) : spec.blocks n bs = 1 := by
  have hleaves : max (divCeil n (spec.leafMax bs)) 1 = 1 := by
    have := (divCeil_le_iff hpos).mpr (show n ≤ 1 * spec.leafMax bs by omega)
    omega
  unfold AgSpec.blocks blocksFor levelSizes
  simp [hleaves, levelsAbove]

/-! ## A run the reserve does not cover -/

/-- One block each for `k` files of a fresh group: as many mappings, none of which
continues another. -/
def filesRmap (k : Nat) : List Rmap :=
  freshRmap ++ (List.range k).map fun i => Rmap.mk (8 + i) (200 + i) 0 1

def filesAg (k : Nat) : Ag :=
  { freshAg 750 true with
    free := .ofList [(8 + k, 742 - k)]
    freeTotal := 742 - k
    rmap := .ofList ((filesRmap k).map (·, ()))
    dirty := decide (0 < k) }

theorem alloc_single {ag : Ag} {a b : Nat} (hfree : ag.free = .ofList [(a, b)]) (hb : 1 < b)
    (hspare : 0 < ag.spare) : alloc 1 0 ag = .ok (some (a, 1))
      { ag with free := .ofList [(a + 1, b - 1)], freeTotal := ag.freeTotal - 1, dirty := true } := by
  have hwant : min (min 1 MAX_EXTENT) (min ag.spare (2 ^ 32 - 1)) = 1 := by
    unfold MAX_EXTENT
    omega
  have hpick : pickExtent ag.free 1 0 = some (a, 1) := by
    rw [hfree]
    simp [pickExtent, OrdMap.ofList, OrdMap.empty, OrdMap.insert, insertEntry, OrdMap.entriesFrom,
      OrdMap.entriesBelow, show 1 ≤ b by omega]
  have htake : take a 1 ag = .ok ()
      { ag with free := .ofList [(a + 1, b - 1)], freeTotal := ag.freeTotal - 1, dirty := true } := by
    have hlast : ag.free.lastUpTo a = some (a, b) := by
      rw [hfree]
      simp [OrdMap.ofList, OrdMap.empty, OrdMap.insert, insertEntry, OrdMap.lastUpTo]
    unfold take
    simp only [get_bind_apply, hlast]
    rw [act_throwIf_bind_of_not (by omega)]
    simp only [lt_irrefl, if_false, set_apply, EStateM.Result.ok.injEq, true_and]
    rw [if_pos (by omega), hfree, show a + b - a - 1 = b - 1 by omega]
    congr 1
    refine OrdMap.ext_entries ?_
    simp [OrdMap.ofList, OrdMap.empty, OrdMap.insert, insertEntry, OrdMap.erase, OrdMap.filter]
  unfold alloc
  simp only [get_bind_apply, hwant]
  rw [if_neg (by omega)]
  simp only [hpick]
  rw [bind_of_ok htake]
  rfl

theorem filesAg_succ {k : Nat} (hk : k < 702) :
    Relation.ReflTransGen (Op (freshSb 750 true)) (filesAg k) (filesAg (k + 1)) := by
  have hspare : 0 < (filesAg k).spare := by
    change 0 < 742 - k - reserveFor 4 750
    unfold reserveFor
    omega
  have h1 := alloc_single (show (filesAg k).free = .ofList [(8 + k, 742 - k)] from rfl) (by omega)
    hspare
  have h2 : rmapAdd (freshSb 750 true) (8 + k) 1 (200 + k) 0
      { filesAg k with
        free := .ofList [(8 + k + 1, 742 - k - 1)], freeTotal := (filesAg k).freeTotal - 1
        dirty := true } = .ok () (filesAg (k + 1)) := by
    have hr : (filesAg (k + 1)).rmap = (filesAg k).rmap.insert ⟨8 + k, 200 + k, 0, 1⟩ () := by
      simp only [filesAg, filesRmap, List.range_succ, List.map_append, OrdMap.ofList,
        List.foldl_append, List.map_cons, List.map_nil, List.foldl_cons, List.foldl_nil]
    have hrm : (freshSb 750 true).hasRmapbt = true := rfl
    simp only [rmapAdd, hrm, if_true, modify_apply]
    rw [← hr]
    simp only [filesAg, Nat.sub_sub, Nat.add_assoc]
    simp
  have hwords : (Rmap.mk (8 + k) (200 + k) 0 1).Stored :=
    ⟨by simp only; omega, by norm_num, by simp only; omega, by norm_num⟩
  exact (Relation.ReflTransGen.single (Op.alloc h1)).tail (Op.rmapAdd hwords h2)

theorem filesAg_run : ∀ {k : Nat}, k ≤ 702 →
    Relation.ReflTransGen (Op (freshSb 750 true)) (freshAg 750 true) (filesAg k) := by
  intro k
  induction k with
  | zero => exact fun _ => .refl
  | succ k ih => exact fun hk => (ih (by omega)).trans (filesAg_succ (by omega))

theorem filesRmap_sorted (k : Nat) : (filesRmap k).Pairwise (· < ·) := by
  refine List.pairwise_append.mpr ⟨by decide, ?_, ?_⟩
  · refine List.pairwise_map.mpr (List.pairwise_lt_range.imp fun h => ?_)
    exact Rmap.lt_of_start_lt (by simp only; omega)
  · intro a ha b hb
    obtain ⟨i, _, rfl⟩ := List.mem_map.mp hb
    refine Rmap.lt_of_start_lt ?_
    have hlt : ∀ r ∈ freshRmap, r.start < 8 := by decide
    have := hlt a ha
    simp only
    omega

theorem filesAg_keys {k : Nat} (hk : k ≤ 702) :
    ((filesAg k).rmap.filter fun e => e.1.owner != OWN_AG && e.1.owner != OWN_INOBT).keys =
      ⟨0, OWN_FS, 0, 4⟩ :: (List.range k).map fun i => ⟨8 + i, 200 + i, 0, 1⟩ := by
  have hent : (filesAg k).rmap.entries = (filesRmap k).map (·, ()) :=
    OrdMap.entries_ofList (List.pairwise_map.mpr (filesRmap_sorted k))
  have hfiles : ((List.range k).map fun i => Rmap.mk (8 + i) (200 + i) 0 1).filter
      (fun r => r.owner != OWN_AG && r.owner != OWN_INOBT) =
      (List.range k).map fun i => ⟨8 + i, 200 + i, 0, 1⟩ := by
    refine List.filter_eq_self.mpr fun r hr => ?_
    obtain ⟨i, hi, rfl⟩ := List.mem_map.mp hr
    have := List.mem_range.mp hi
    simp only [Bool.and_eq_true, bne_iff_ne, OWN_AG, OWN_INOBT]
    omega
  change ((filesAg k).rmap.entries.filter fun e =>
    e.1.owner != OWN_AG && e.1.owner != OWN_INOBT).map (·.1) = _
  rw [hent, List.filter_map, List.map_map]
  change ((filesRmap k).filter fun r => r.owner != OWN_AG && r.owner != OWN_INOBT).map id = _
  rw [List.map_id, filesRmap, List.filter_append, hfiles]
  rfl

theorem filesAg_merged {k : Nat} (hk : k ≤ 702) :
    (merged ((filesAg k).rmap.filter fun e =>
      e.1.owner != OWN_AG && e.1.owner != OWN_INOBT)).length = k + 1 := by
  unfold merged
  rw [filesAg_keys hk, mergeList, mergeFrom_of_apart]
  · simp
  · -- Owners differ from one mapping to the next.
    refine List.isChain_cons.mpr ⟨?_, ?_⟩
    · intro r hr
      obtain ⟨i, hi, rfl⟩ := List.mem_map.mp (List.mem_of_mem_head? hr)
      have := List.mem_range.mp hi
      have hne : OWN_FS ≠ 200 + i := by
        unfold OWN_FS
        omega
      simp [Rmap.joins, hne]
    · refine (List.pairwise_map.mpr (List.pairwise_lt_range.imp fun {a b} hab => ?_)).isChain
      simp [Rmap.joins, show a ≠ b by omega]

theorem filesAg_ends {k : Nat} (hk : k ≤ 702) : EndsFit
    ((filesAg k).rmap.filter fun e => e.1.owner != OWN_AG && e.1.owner != OWN_INOBT).keys := by
  rw [filesAg_keys hk]
  refine endsFit_of_forall fun r hr => ?_
  rcases List.mem_cons.mp hr with rfl | hr
  · decide
  · obtain ⟨i, hi, rfl⟩ := List.mem_map.mp hr
    have := List.mem_range.mp hi
    change 8 + i + 1 < 2 ^ 32
    omega

theorem filesAg_space {k : Nat} (hk : k ≤ 702) : SpaceOk (filesAg k) where
  freeOk := by
    refine freeOk_of_pairwise (fun e he => ?_) (List.pairwise_singleton _ _)
    obtain rfl := List.mem_singleton.mp he
    simp only
    omega
  total := by simp [filesAg, OrdMap.values, OrdMap.ofList, OrdMap.insert, OrdMap.empty, insertEntry]
  inside b hb := by
    obtain ⟨e, he, -, hlt⟩ := exists_of_freeAt_pos hb
    obtain rfl := List.mem_singleton.mp he
    have hlen : (filesAg k).len = 750 := rfl
    simp only at hlt
    omega

set_option maxRecDepth 100000 in
theorem load_files : load (freshDevice 750 true) (freshSb 750 true) 0 = .ok (freshAg 750 true) := by
  decide +kernel

/-- With the old trees' blocks given back it has two free extents and `k + 1` mappings. -/
theorem giveBack_files {k : Nat} (hk : k ≤ 702)
    (hfreed : okAnd (fun _ ag => decide (ag.free.entries.length ≤ 2))
      (freeAll [4, 5, 6, 7] { filesAg k with oldTreeBlocks := [] }) = true) : ∃ base, giveBack (freshSb 750 true) (filesAg k) = .ok () base ∧
      base.free.entries.length ≤ 2 ∧ (merged base.rmap).length = k + 1 ∧ EndsFit base.rmap.keys := by
  obtain ⟨_, ag1, h1, hfew⟩ := exists_of_okAnd hfreed
  obtain ⟨-, -, -, -, -, -, -, hrmap⟩ :=
    freeAll_ok (by exact (filesAg_space hk).freeOk) (by exact (filesAg_space hk).total) h1
  refine ⟨_, giveBack_of_freeAll rfl h1, of_decide_eq_true hfew, ?_, ?_⟩
  · rw [hrmap]
    exact filesAg_merged hk
  · rw [hrmap]
    exact filesAg_ends hk

set_option maxRecDepth 100000 in
/-- 402 files of a block each, and the next rebuild finds room: 29 blocks at most are wanted, and
344 are free. -/
theorem reserve_enough_files : ∃ ag' : Ag,
    Relation.ReflTransGen (Op (freshSb 750 true)) (freshAg 750 true) ag' ∧
      ∀ e s, rebuild (freshSb 750 true) ag' = .error e s → e.isNoSpace = false := by
  have hrun := filesAg_run (show 402 ≤ 702 by omega)
  have hparse : Superblock.parse (freshSector 750 true) = .ok (freshSb 750 true) := by decide +kernel
  refine ⟨filesAg 402, hrun, (reserve_enough hparse (by decide) load_files hrun).mpr ?_⟩
  obtain ⟨base', hgive, hfew, hmerged, -⟩ := @giveBack_files 402 (by omega) (by decide +kernel)
  intro _ p hcomes
  have hle := ((comes_handedBack (filesAg_space (by omega)).freeOk hgive).mp hcomes).le
    (Superblock.sound_of_parse hparse)
  have hmono := @blocks_mono RMAP 512 (by decide) _ 413
    (show 402 + 1 + 4 * base'.free.entries.length + 2 ≤ 413 by omega)
  unfold agNeed at hle
  rw [hmerged, show (freshSb 750 true).blockSize = 512 from rfl,
    show (freshSb 750 true).hasRmapbt = true from rfl, if_pos rfl,
    blocks_of_le (hfew.trans (by decide)) (by decide), blocks_of_le (hfew.trans (by decide)) (by decide)]
    at hle
  rw [show RMAP.blocks 413 512 = 26 by decide] at hmono
  change INOBT.blocks 0 512 + 0 + p ≤ 742 - 402 + 4
  rw [blocks_of_le (by decide) (by decide)]
  omega

set_option maxRecDepth 100000 in
/-- 702 files of a block each in a group of 750 blocks, on which the next rebuild finds
no space. -/
theorem reserve_not_enough : ∃ ag ag' : Ag,
    Superblock.parse (freshSector 750 true) = .ok (freshSb 750 true) ∧
      (freshSb 750 true).checkWritable = .ok () ∧
      load (freshDevice 750 true) (freshSb 750 true) 0 = .ok ag ∧ ag.reserve ≤ ag.freeTotal ∧
      Relation.ReflTransGen (Op (freshSb 750 true)) ag ag' ∧
      ∃ e s, rebuild (freshSb 750 true) ag' = .error e s ∧ e.isNoSpace = true := by
  have hparse : Superblock.parse (freshSector 750 true) = .ok (freshSb 750 true) := by decide +kernel
  refine ⟨freshAg 750 true, filesAg 702, hparse, by decide, load_files, by decide,
    filesAg_run (le_refl _), ?_⟩
  obtain ⟨base, hgive, -, hmerged, hends⟩ := giveBack_files (le_refl 702) (by decide +kernel)
  refine (rebuild_noSpace_iff (Superblock.sound_of_parse hparse) (filesAg_space (le_refl 702))
    (by decide)).mpr fun hfit => ?_
  -- 705 mappings take 43 blocks of their own; 44 are left.
  have hroom := hfit ((giveBack_succeeds_iff (filesAg_space (le_refl 702)) (by decide)).mp ⟨base, hgive⟩) _
    ((comes_handedBack (filesAg_space (le_refl 702)).freeOk hgive).mpr ⟨hends, .refl⟩)
  unfold firstSize at hroom
  rw [hmerged] at hroom
  change INOBT.blocks 0 512 + 0 + (BNO.blocks _ 512 + CNT.blocks _ 512 +
    RMAP.blocks (702 + 1 + 2) 512) ≤ 742 - 702 + 4 at hroom
  rw [blocks_of_le (by decide) (by decide), show RMAP.blocks (702 + 1 + 2) 512 = 43 by decide] at hroom
  have hpos : ∀ n l m, 1 ≤ blocksFor n l m := by
    intro n l m
    unfold blocksFor levelSizes
    rw [List.sum_cons]
    omega
  have h1 := hpos base.free.entries.length (BNO.leafMax 512) (BNO.nodeMax 512)
  have h2 := hpos base.free.entries.length (CNT.leafMax 512) (CNT.nodeMax 512)
  change 1 + 0 + (blocksFor base.free.entries.length _ _ +
    blocksFor base.free.entries.length _ _ + 43) ≤ 742 - 702 + 4 at hroom
  omega

end FioXfs.Alloc
