import FioXfs.Alloc.Reserve
set_option autoImplicit false

/-!
# When the tree sizes settle

`rebuild` carves a size, counts what is left and tries again with what that needs.  The
need changes by little from one size to the next, so that the loop ends within its tries unless a
size comes that cannot be carved, or one that comes again after another.
-/

namespace FioXfs.Alloc

open FioXfs.Lib FioXfs.Btree

/-! ## Sizes that hold -/

/-- Every size that comes can be carved, and none comes again after another. -/
structure Steady (sb : Superblock) (base : Ag) : Prop where
  ends : EndsFit base.rmap.keys
  room : ∀ p, Comes sb base p → Carvable sb base p
  noReturn : ∀ p q, Comes sb base p → Follows sb base p q → p ≠ q →
    ¬Relation.ReflTransGen (Follows sb base) q p

section
variable {sb : Superblock} {base : Ag}

/-- The loop settles within its tries exactly when the sizes are steady. -/
theorem settles_iff (hs : sb.Sound) (hf : FreeOk base.free) (ht : base.freeTotal = base.free.values.sum)
    (hshort : base.freeTotal ≤ 2 ^ 31) :
    (∃ first runs ag', firstNeed sb base = .ok first ∧
      settle sb base (inoNeed sb base.chunks) 32 first base = .ok runs ag') ↔ Steady sb base := by
  have houtcome := @settle_outcome sb base hf ht 32 (firstSize sb base) base (.refl base)
  constructor
  · rintro ⟨first, runs, ag', hfirst, hsettle⟩
    obtain ⟨hends, rfl⟩ := firstNeed_eq_ok.mp hfirst
    obtain ⟨i, -, hgo, hfix, -⟩ : ∃ i < 32,
        (∀ m ≤ i, Carvable sb base ((needAfter sb base)^[m] (firstSize sb base))) ∧
        needAfter sb base ((needAfter sb base)^[i] (firstSize sb base)) =
          (needAfter sb base)^[i] (firstSize sb base) ∧ True := by
      rcases houtcome with ⟨i, hi, hgo, hfix, -⟩ | ⟨_, _, _, _, e, s, hbad, _⟩ | ⟨_, s, hbad⟩
      · exact ⟨i, hi, hgo, hfix, trivial⟩
      · rw [hsettle] at hbad
        cases hbad
      · rw [hsettle] at hbad
        cases hbad
    refine ⟨hends, fun p hcomes => ?_, fun p q hcomes hpq hne hback => hne ?_⟩
    · obtain ⟨-, n, rfl, -⟩ := comes_iff.mp hcomes
      rcases Nat.le_total n i with hle | hge
      · exact hgo n hle
      · rw [iterate_of_fixed hfix hge]
        exact hgo i (le_refl i)
    · obtain ⟨-, n, rfl, -⟩ := comes_iff.mp hcomes
      obtain ⟨l, hl, -⟩ := comes_iff_iterate.mp hback
      rw [hpq.2, ← Function.iterate_succ_apply] at hl
      rw [hpq.2]
      exact (fixed_of_cycle hfix hl.symm).symm
  · rintro ⟨hends, hroom, hback⟩
    rcases houtcome with ⟨i, -, -, -, runs, ag', hsettle⟩ | ⟨i, -, hgo, hno, -⟩ | ⟨hgo, -⟩
    · exact ⟨_, runs, ag', firstNeed_eq_ok.mpr ⟨hends, rfl⟩, hsettle⟩
    · exact absurd (hroom _ (comes_iff.mpr ⟨hends, i, rfl, hgo⟩)) hno
    · -- A size that has come twice comes again after the one that follows it.
      obtain ⟨i, j, hij, hj, heq⟩ := @exists_size_twice sb base (firstSize sb base) hs hf ht hshort
        fun m hm => (hgo m hm).1.1
      obtain ⟨d, rfl⟩ := Nat.exists_eq_add_of_lt hij
      refine absurd ?_ (hback _ _
        (comes_iff.mpr ⟨hends, i, rfl, fun m hm => (hgo m (by omega)).1⟩)
        ⟨(hgo i (by omega)).1, rfl⟩ (hgo i (by omega)).2.symm)
      refine comes_iff_iterate.mpr ⟨d, ?_, fun m hm => ?_⟩
      · rw [← Function.iterate_succ_apply' (needAfter sb base), ← Function.iterate_add_apply,
          show d + (i + 1) = i + d + 1 by omega]
        exact heq
      · rw [← Function.iterate_succ_apply' (needAfter sb base), ← Function.iterate_add_apply]
        exact (hgo _ (by omega)).1

end

/-! ## Over runs -/

/-- One thing that can happen to a group in memory: an operation, or a rebuild. -/
inductive LifeStep (sb : Superblock) : Ag → Ag → Prop where
  | op {ag ag' : Ag} (h : Op sb ag ag') : LifeStep sb ag ag'
  | rebuild {ag ag' : Ag} {writes : List (Nat × Bytes)} (h : rebuild sb ag = .ok writes ag') :
      LifeStep sb ag ag'

section
variable {sb : Superblock} {agno len : Nat} {ag ag' : Ag}

theorem Spaced.rebuilt {writes : List (Nat × Bytes)} (h : Spaced agno len ag)
    (hrun : rebuild sb ag = .ok writes ag') : Spaced agno len ag' := by
  obtain ⟨run⟩ := rebuild_ok hrun
  have hg := run.gaveBack h.space
  have hp := run.placed h.space
  have hbase := hg.spaceOk h.space.inside
  have hlen : run.settled.len = ag.len := run.len_eq h.space
  have hblen : run.base.len = ag.len := by rw [hg.same]
  have hagno : run.settled.agno = ag.agno := by rw [hp.same, hg.same]
  have hspace : SpaceOk run.settled := ⟨hp.freeOk, hp.total, fun b hb => by
    rw [hlen, ← hblen]
    exact hbase.inside b (by have := hp.at_ b; omega)⟩
  have hspaced : Spaced agno len run.settled :=
    ⟨hspace, hagno.trans h.agno_eq, hlen.trans h.len_eq⟩
  exact hspaced.of_same ((congrArg Ag.free run.out).trans (finished_free ..))
    ((congrArg Ag.freeTotal run.out).trans (finished_freeTotal ..))
    ((congrArg Ag.agno run.out).trans (finished_agno ..))
    ((congrArg Ag.len run.out).trans (finished_len ..))

theorem LifeStep.spaced (hblocks : 0 < CHUNK_INODES / sb.inodesPerBlock) (h : Spaced agno len ag)
    (hstep : LifeStep sb ag ag') : Spaced agno len ag' := by
  cases hstep with
  | op hop => exact hop.spaced hblocks h
  | rebuild hrun => exact h.rebuilt hrun

end

/-- In every group a run of operations and rebuilds of a loaded one reaches, once the old trees'
blocks are given back: the loop settles within its tries, on as many blocks as the trees then need,
and a rebuild does not fail for it, exactly when the sizes are steady.  (The first is one of them:
it fits.) -/
theorem sizes_settle {buf : Bytes} {dev : Device} {sb : Superblock} {agno : Nat}
    {ag ag' base : Ag} (hsb : Superblock.parse buf = .ok sb) (hw : sb.checkWritable = .ok ())
    (hload : load dev sb agno = .ok ag) (hrun : Relation.ReflTransGen (LifeStep sb) ag ag')
    (hgive : giveBack sb ag' = .ok () base) :
    ((∃ first runs ag'' ms, firstNeed sb base = .ok first ∧
        settle sb base (inoNeed sb base.chunks) 32 first base = .ok runs ag'' ∧
        mergedRmap ag''.rmap = .ok ms ∧
        (runs.1.map (·.2)).sum = agNeed sb ag''.free.entries.length ms.length) ∧
      ∀ s, rebuild sb ag' ≠ .error (notSettled agno) s) ↔ Steady sb (handedBack sb ag') := by
  have hs := Superblock.sound_of_parse hsb
  have hblocks : 0 < CHUNK_INODES / sb.inodesPerBlock :=
    Nat.div_pos (Superblock.checkWritable_ok hw).2.2 hs.inodesPerBlock_pos
  obtain ⟨run⟩ := load_ok hload
  have hspaced : Spaced agno ag.len ag' :=
    run_invariant (fun _ _ h hstep => hstep.spaced hblocks h) ⟨run.spaceOk, run.agno_eq, rfl⟩ hrun
  have hg := giveBack_space hspaced.space.freeOk hspaced.space.total hgive
  have hshort : base.freeTotal ≤ 2 ^ 31 := by
    have h1 := (hg.spaceOk hspaced.space.inside).total_le
    have h2 := (Superblock.agLen_le run.agLen).1.trans hs.agBlocks_lt
    have h3 : base.len = ag.len := by
      rw [hg.same]
      exact hspaced.len_eq
    omega
  have hsame : Steady sb (handedBack sb ag') ↔ Steady sb base := by
    rw [giveBack_eq hspaced.space.freeOk hgive]
    exact ⟨fun h => ⟨h.ends, h.room, h.noReturn⟩, fun h => ⟨h.ends, h.room, h.noReturn⟩⟩
  rw [hsame, ← settles_iff hs hg.freeOk hg.total hshort]
  constructor
  · rintro ⟨⟨first, runs, ag'', -, hfirst, hsettle, -⟩, -⟩
    exact ⟨first, runs, ag'', hfirst, hsettle⟩
  · rintro ⟨first, runs, ag'', hfirst, hsettle⟩
    obtain ⟨ms, hms⟩ := settle_merges hsettle
    refine ⟨⟨first, runs, ag'', ms, hfirst, hsettle, hms, ?_⟩, fun s hbad => ?_⟩
    · rw [(settle_placed hg.freeOk hg.total (.refl base) hsettle).agLength, (mergedRmap_eq_ok.mp hms).2]
    · -- After the loop nothing but a panic is left to fail with.
      cases rebuild_after_settle hgive hfirst hsettle hbad

/-- The group of 16 blocks with its trees' blocks given back. -/
def bareAg : Ag :=
  { freshAg 16 true with
    free := .ofList [(4, 12)], freeTotal := 12, oldTreeBlocks := []
    rmap := .ofList [(⟨0, OWN_FS, 0, 4⟩, ())], dirty := true }

set_option maxRecDepth 100000 in
theorem giveBack_fresh : giveBack (freshSb 16 true) (freshAg 16 true) = .ok () bareAg := by
  have hrun : okAnd (fun _ base => decide (base = bareAg)) (giveBack (freshSb 16 true) (freshAg 16 true)) =
      true := by
    decide +kernel
  obtain ⟨_, base, h, hbase⟩ := exists_of_okAnd hrun
  rw [h, of_decide_eq_true hbase]

set_option maxRecDepth 100000 in
/-- The trees of a group as it is made need three blocks at first and ever after. -/
theorem sizes_settle_fresh :
    (∃ first runs ag'' ms, firstNeed (freshSb 16 true) bareAg = .ok first ∧
      settle (freshSb 16 true) bareAg (inoNeed (freshSb 16 true) bareAg.chunks) 32 first bareAg =
        .ok runs ag'' ∧ mergedRmap ag''.rmap = .ok ms ∧
      (runs.1.map (·.2)).sum = agNeed (freshSb 16 true) ag''.free.entries.length ms.length) ∧
      ∀ s, rebuild (freshSb 16 true) (freshAg 16 true) ≠ .error (notSettled 0) s := by
  have hback : handedBack (freshSb 16 true) (freshAg 16 true) = { bareAg with dirty := false } := by
    decide +kernel
  have hfirst : firstSize (freshSb 16 true) bareAg = 3 := by decide +kernel
  have hnext : needAfter (freshSb 16 true) bareAg 3 = 3 := by decide +kernel
  have hcarve : Carvable (freshSb 16 true) bareAg 3 := by
    refine ⟨by decide +kernel, endsFit_of_forall ?_⟩
    decide +kernel
  have hthree : ∀ p, Comes (freshSb 16 true) bareAg p → p = 3 := by
    rintro p ⟨-, hcomes⟩
    induction hcomes with
    | refl => exact hfirst
    | tail _ hstep ih => rw [hstep.2, ih, hnext]
  refine (sizes_settle parse_fresh (by decide) load_fresh .refl giveBack_fresh).mpr ?_
  rw [hback]
  refine ⟨endsFit_of_forall (by decide +kernel), fun p hcomes => ?_, fun p q hcomes hpq hne => ?_⟩
  · rw [hthree p hcomes]
    exact hcarve
  · obtain rfl := hthree p hcomes
    exact absurd (hpq.2.trans hnext).symm hne

/-! ## A group whose sizes go round -/

/-- Freeing block by block is a run. -/
theorem freeAll_run {sb : Superblock} : ∀ {bs : List Nat} {ag ag' : Ag} {u : Unit}, freeAll bs ag = .ok u ag' →
    Relation.ReflTransGen (LifeStep sb) ag ag' := by
  intro bs
  induction bs with
  | nil =>
      intro ag ag' u h
      obtain ⟨-, rfl⟩ := EStateM.Result.ok.inj h
      exact .refl
  | cons b bs ih =>
      intro ag ag' u h
      obtain ⟨_, ag1, h1, h2⟩ := bind_eq_ok.mp h
      exact .head (.op (.freeExtent h1)) (ih h2)

/-- Every block taken, then every other one of 120 freed. -/
def combed : Act Ag (Option (Nat × Nat)) := do
  let _ ← alloc 130 0
  freeAll ((List.range 60).map (10 + 2 * ·))
  alloc 22 138

theorem combed_run {sb : Superblock} {ag ag' : Ag} {r : Option (Nat × Nat)} (h : combed ag = .ok r ag') :
    Relation.ReflTransGen (LifeStep sb) ag ag' := by
  obtain ⟨_, ag1, h1, h⟩ := bind_eq_ok.mp h
  obtain ⟨_, ag2, h2, h3⟩ := bind_eq_ok.mp h
  exact (Relation.ReflTransGen.head (.op (.alloc h1)) (freeAll_run h2)).tail (.op (.alloc h3))

set_option maxRecDepth 100000 in
/-- 60 free blocks apart from each other in a group of 160: six blocks carved for the trees
leave a need of two, and two a need of six. -/
theorem sizes_do_not_settle : ∃ ag ag' base : Ag, ∃ s,
    Superblock.parse (freshSector 160 false) = .ok (freshSb 160 false) ∧
      (freshSb 160 false).checkWritable = .ok () ∧
      load (freshDevice 160 false) (freshSb 160 false) 0 = .ok ag ∧
      Relation.ReflTransGen (LifeStep (freshSb 160 false)) ag ag' ∧
      giveBack (freshSb 160 false) ag' = .ok () base ∧
      inoNeed (freshSb 160 false) base.chunks + firstSize (freshSb 160 false) base ≤ base.freeTotal ∧
      rebuild (freshSb 160 false) ag' = .error (notSettled 0) s := by
  have hrun : okAnd (fun _ ag' =>
      okAnd (fun _ base => decide (inoNeed (freshSb 160 false) base.chunks +
        firstSize (freshSb 160 false) base ≤ base.freeTotal)) (giveBack (freshSb 160 false) ag') &&
      errorWith (fun e => decide (e = notSettled 0)) (rebuild (freshSb 160 false) ag'))
        (combed (freshAg 160 false)) = true := by
    decide +kernel
  obtain ⟨r, ag', h1, hrest⟩ := exists_of_okAnd hrun
  obtain ⟨hback, hfail⟩ := (Bool.and_eq_true _ _).mp hrest
  obtain ⟨_, base, h2, hroom⟩ := exists_of_okAnd hback
  obtain ⟨e, s, h3, he⟩ := exists_of_errorWith hfail
  rw [of_decide_eq_true he] at h3
  exact ⟨_, ag', base, s, by decide +kernel, by decide +kernel, by decide +kernel, combed_run h1, h2,
    of_decide_eq_true hroom, h3⟩

end FioXfs.Alloc
