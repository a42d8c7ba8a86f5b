import FioXfs.Alloc.Mappings
import FioXfs.Alloc.Merge
set_option autoImplicit false

/-!
# What rebuilding does to the group

`rebuild` gives the old trees' blocks back, forgets what the AG and the inode trees
own, carves new blocks until the sizes hold and records their owners again.  Each
of those parts has its lemma here, by the counts of `Space` and `Mappings`; the
blocks it writes are the subject of `Reload`.
-/

namespace FioXfs.Alloc

open FioXfs.Lib FioXfs.Btree

/-! ## The parts of the group a rebuild works on -/

/-- `ag'` differs from `ag` at most in its free space, its mappings and its dirty flag. -/
def SameButSpace (ag ag' : Ag) : Prop :=
  ag' = { ag with
    free := ag'.free, freeTotal := ag'.freeTotal, rmap := ag'.rmap, dirty := ag'.dirty }

theorem SameButSpace.refl (ag : Ag) : SameButSpace ag ag := rfl

theorem SameButSpace.trans {a b c : Ag} (h : SameButSpace a b) (h' : SameButSpace b c) :
    SameButSpace a c := by
  unfold SameButSpace at *
  rw [h', h]

theorem SameButSpace.chunks {a b : Ag} (h : SameButSpace a b) : b.chunks = a.chunks := by
  rw [h]

/-! ## Freeing a list of blocks -/

theorem freeAll_ok {bs : List Nat} : ∀ {ag ag' : Ag} {u : Unit}, FreeOk ag.free →
    ag.freeTotal = ag.free.values.sum → freeAll bs ag = .ok u ag' →
    FreeOk ag'.free ∧ ag'.freeTotal = ag'.free.values.sum ∧
      ag'.freeTotal = ag.freeTotal + bs.length ∧
      (∀ b, freeAt ag'.free b = freeAt ag.free b + bs.count b) ∧
      (∀ b ∈ bs, b < ag.len) ∧
      (Separate ag.free → Separate ag'.free) ∧ SameButSpace ag ag' ∧ ag'.rmap = ag.rmap := by
  induction bs with
  | nil =>
    intro ag ag' u hf ht h
    simp only [freeAll, pure_apply, EStateM.Result.ok.injEq] at h
    obtain ⟨_, rfl⟩ := h
    exact ⟨hf, ht, by simp, by simp, by simp, id, .refl _, rfl⟩
  | cons b bs ih =>
    intro ag ag' u hf ht h
    obtain ⟨_, ag1, h1, h2⟩ := bind_eq_ok.mp h
    obtain ⟨_, hlen, free', hp, rfl⟩ := freeExtent_ok hf h1
    have hsum := hp.sum
    obtain ⟨hf2, ht2, hn2, hat2, hin2, hsep2, hs2, hr2⟩ := ih hp.freeOk (by simp only; omega) h2
    simp only at hn2 hat2 hsep2 hr2 hin2
    refine ⟨hf2, ht2, ?_, ?_, ?_, fun h => hsep2 (hp.separate h), ?_, hr2⟩
    · rw [hn2, List.length_cons]
      omega
    · intro c
      rw [hat2, hp.at_, List.count_cons]
      unfold within
      simp only [beq_iff_eq]
      split_ifs <;> omega
    · intro c hc
      rcases List.mem_cons.mp hc with rfl | hc
      · omega
      · exact hin2 c hc
    · exact hs2

/-! ## Forgetting owners -/

/-- Whether an owner's mappings are worked out again by each rebuild. -/
def treeOwner (owner : Nat) : Bool := owner == OWN_AG || owner == OWN_INOBT

/-- Dropping the mappings of some owners. -/
theorem mappedAt_filter {rmap : OrdSet Rmap} (q t : Nat → Bool) (b : Nat) :
    mappedAt q rmap b = mappedAt q (rmap.filter fun e => !t e.1.owner) b +
      mappedAt (fun o => q o && t o) rmap b := by
  unfold mappedAt
  rw [OrdMap.weight_filter (fun e => !t e.1.owner)]
  congr 2
  funext e
  cases ht : t e.1.owner <;> simp [ht]

theorem filter_treeOwner (rmap : OrdSet Rmap) :
    (rmap.filter fun e => e.1.owner != OWN_AG && e.1.owner != OWN_INOBT) =
      rmap.filter fun e => !treeOwner e.1.owner := by
  congr 1
  funext e
  simp [treeOwner, bne]

/-! ## Recording a list of runs -/

/-- Recording the owner of unmapped runs that do not overlap. -/
theorem rmapAddAll_ok {sb : Superblock} {owner : Nat} {runs : List (Nat × Nat)} :
    ∀ {ag ag' : Ag} {u : Unit}, RmapOk ag.rmap → (∀ r ∈ runs, 0 < r.2) →
      (∀ b, mappedAt anyone ag.rmap b + withinRuns runs b ≤ 1) →
      rmapAddAll sb owner runs ag = .ok u ag' →
      RmapOk ag'.rmap ∧
        (∀ q b, mappedAt q ag'.rmap b = mappedAt q ag.rmap b +
          if sb.hasRmapbt && q owner then withinRuns runs b else 0) ∧
        SameButSpace ag ag' ∧ ag'.free = ag.free ∧ ag'.freeTotal = ag.freeTotal := by
  induction runs with
  | nil =>
    intro ag ag' u hr _ _ h
    simp only [rmapAddAll, pure_apply, EStateM.Result.ok.injEq] at h
    obtain ⟨_, rfl⟩ := h
    exact ⟨hr, by simp, .refl _, rfl, rfl⟩
  | cons r runs ih =>
    intro ag ag' u hr hpos honce h
    obtain ⟨s, n⟩ := r
    obtain ⟨_, ag1, h1, h2⟩ := bind_eq_ok.mp h
    have hn : 0 < n := hpos (s, n) List.mem_cons_self
    simp only [withinRuns_cons] at honce
    by_cases hrm : sb.hasRmapbt = true
    · simp only [rmapAdd, hrm, if_true, modify_apply, EStateM.Result.ok.injEq] at h1
      obtain ⟨_, rfl⟩ := h1
      obtain ⟨hr1, hat1⟩ := @rmapAdd_run _ hr ⟨s, owner, 0, n⟩ hn fun b hb => by
        have := honce b
        simp only at hb
        omega
      obtain ⟨hr2, hat2, hs2, hfr, hft⟩ := ih hr1 (fun r hr => hpos r (List.mem_cons_of_mem _ hr))
        (fun b => by
          have := honce b
          have := hat1 anyone b
          simp only [anyone_apply, if_true] at this ⊢
          omega) h2
      refine ⟨hr2, fun q b => ?_, hs2, hfr, hft⟩
      rw [hat2]
      simp only [hat1, hrm, Bool.true_and, withinRuns_cons]
      split <;> omega
    · simp only [rmapAdd, hrm, if_false, Bool.false_eq_true, pure_apply,
        EStateM.Result.ok.injEq] at h1
      obtain ⟨_, rfl⟩ := h1
      obtain ⟨hr2, hat2, hs2, hfr, hft⟩ := ih hr (fun r hr => hpos r (List.mem_cons_of_mem _ hr))
        (fun b => by have := honce b; omega) h2
      refine ⟨hr2, fun q b => ?_, hs2, hfr, hft⟩
      rw [hat2]
      simp [hrm]

/-! ## Carving -/

/-- `ag'` is `ag` with the blocks of `runs`, `n` in all, taken out of its free space. -/
structure Carved (ag ag' : Ag) (runs : List (Nat × Nat)) (n : Nat) : Prop where
  freeOk : FreeOk ag'.free
  total : ag'.freeTotal = ag'.free.values.sum
  at_ : ∀ b, freeAt ag'.free b + withinRuns runs b = freeAt ag.free b
  count : ag'.freeTotal + n = ag.freeTotal
  pos : ∀ r ∈ runs, 0 < r.2
  length : (runs.map (·.2)).sum = n
  separate : Separate ag.free → Separate ag'.free
  same : SameButSpace ag ag'
  rmap : ag'.rmap = ag.rmap

theorem Carved.nil {ag : Ag} (hf : FreeOk ag.free) (ht : ag.freeTotal = ag.free.values.sum) :
    Carved ag ag [] 0 :=
  ⟨hf, ht, by simp, by simp, by simp, rfl, id, .refl _, rfl⟩

theorem Carved.trans {a b c : Ag} {rs rs' : List (Nat × Nat)} {n n' : Nat} (h : Carved a b rs n)
    (h' : Carved b c rs' n') : Carved a c (rs ++ rs') (n + n') where
  freeOk := h'.freeOk
  total := h'.total
  at_ x := by
    have h1 := h.at_ x
    have h2 := h'.at_ x
    rw [withinRuns_append]
    omega
  count := by
    have h1 := h.count
    have h2 := h'.count
    omega
  pos r hr := (List.mem_append.mp hr).elim (h.pos r) (h'.pos r)
  length := by
    rw [List.map_append, List.sum_append, h.length, h'.length]
  separate hs := h'.separate (h.separate hs)
  same := h.same.trans h'.same
  rmap := h'.rmap.trans h.rmap

theorem carved_take {ag ag' : Ag} {s n : Nat} {u : Unit} (hf : FreeOk ag.free)
    (ht : ag.freeTotal = ag.free.values.sum) (hn : 0 < n) (h : take s n ag = .ok u ag') :
    Carved ag ag' [(s, n)] n := by
  obtain ⟨free', htk, rfl⟩ := take_ok hf hn h
  have hsum := htk.sum
  exact
    { freeOk := htk.freeOk hf
      total := by simp only; omega
      at_ := fun b => by simp only [withinRuns_cons, withinRuns_nil]; exact htk.at_ b
      count := by simp only; omega
      pos := by simpa using hn
      length := by simp
      separate := htk.separate
      same := rfl
      rmap := rfl }

theorem carveLoop_ok : ∀ {fuel n : Nat} {runs res : List (Nat × Nat)} {ag ag' : Ag},
    FreeOk ag.free → ag.freeTotal = ag.free.values.sum →
    carveLoop fuel n runs ag = .ok res ag' →
    ∃ more, res = runs ++ more ∧ Carved ag ag' more n := by
  intro fuel
  induction fuel with
  | zero =>
    intro n runs res ag ag' hf ht h
    cases n with
    | zero =>
      simp only [carveLoop, pure_apply, EStateM.Result.ok.injEq] at h
      obtain ⟨rfl, rfl⟩ := h
      exact ⟨[], by simp, .nil hf ht⟩
    | succ n => simp [carveLoop] at h
  | succ fuel ih =>
    intro n runs res ag ag' hf ht h
    cases n with
    | zero =>
      simp only [carveLoop, pure_apply, EStateM.Result.ok.injEq] at h
      obtain ⟨rfl, rfl⟩ := h
      exact ⟨[], by simp, .nil hf ht⟩
    | succ n =>
      simp only [carveLoop, get_bind_apply] at h
      cases hm : lastMaxBy (fun e => toLex (e.2, e.1)) ag.free.entries with
      | none => simp [hm] at h
      | some e =>
        obtain ⟨s, len⟩ := e
        simp only [hm] at h
        obtain ⟨u, ag1, h1, h2⟩ := bind_eq_ok.mp h
        have hlen := hf.pos _ (lastMaxBy_mem hm)
        have hc1 := carved_take hf ht (by omega) h1
        obtain ⟨more, rfl, hc2⟩ := ih hc1.freeOk hc1.total h2
        refine ⟨(s + len - min len (n + 1), min len (n + 1)) :: more, by simp, ?_⟩
        have hc := hc1.trans hc2
        rwa [Nat.add_sub_cancel' (Nat.min_le_right _ _)] at hc

theorem carve_ok {n : Nat} {runs : List (Nat × Nat)} {ag ag' : Ag} (hf : FreeOk ag.free)
    (ht : ag.freeTotal = ag.free.values.sum) (h : carve n ag = .ok runs ag') :
    Carved ag ag' runs n := by
  obtain ⟨rs, ag1, h1, h2⟩ := bind_eq_ok.mp h
  simp only [pure_apply, EStateM.Result.ok.injEq] at h2
  obtain ⟨hrs, rfl⟩ := h2
  obtain ⟨more, hmore, hc⟩ := carveLoop_ok hf ht h1
  rw [List.nil_append] at hmore
  subst hmore
  have hperm : runs.Perm rs := hrs ▸ List.perm_insertionSort _ rs
  exact { hc with
    at_ := fun b => by rw [withinRuns_perm hperm]; exact hc.at_ b
    pos := fun r hr => hc.pos r (hperm.mem_iff.mp hr)
    length := by rw [(hperm.map _).sum_eq]; exact hc.length }

/-! ## Settling -/

/-- No block both free and mapped, or twice either. -/
def Exclusive (ag : Ag) : Prop := ∀ b, freeAt ag.free b + mappedAt anyone ag.rmap b ≤ 1

/-- What a round of carving leaves: the two runs come out of the base's free space
and into its mappings. -/
structure Settled (sb : Superblock) (base ag : Ag) (agRun inoRun : List (Nat × Nat))
    (agBlocks inoBlocks : Nat) : Prop where
  freeOk : FreeOk ag.free
  total : ag.freeTotal = ag.free.values.sum
  count : ag.freeTotal + agBlocks + inoBlocks = base.freeTotal
  at_ : ∀ b, freeAt ag.free b + withinRuns agRun b + withinRuns inoRun b = freeAt base.free b
  agLength : (agRun.map (·.2)).sum = agBlocks
  inoLength : (inoRun.map (·.2)).sum = inoBlocks
  rmapOk : RmapOk ag.rmap
  mapped : ∀ q b, mappedAt q ag.rmap b = mappedAt q base.rmap b +
    (if sb.hasRmapbt && q OWN_AG then withinRuns agRun b else 0) +
    if sb.hasRmapbt && q OWN_INOBT then withinRuns inoRun b else 0
  separate : Separate base.free → Separate ag.free
  same : SameButSpace base ag

/-- One round: both runs are carved out of the base, and then recorded. -/
theorem tryCarve_runs {sb : Superblock} {base ag ag' : Ag} {inoBlocks agBlocks : Nat}
    {runs : List (Nat × Nat) × List (Nat × Nat)} (hf : FreeOk base.free)
    (ht : base.freeTotal = base.free.values.sum)
    (h : tryCarve sb base inoBlocks agBlocks ag = .ok runs ag') :
    ∃ ag1 ag2 ag3, Carved { ag with
        free := base.free, freeTotal := base.freeTotal, rmap := base.rmap } ag1 runs.2 inoBlocks ∧
      Carved ag1 ag2 runs.1 agBlocks ∧ rmapAddAll sb OWN_AG runs.1 ag2 = .ok () ag3 ∧
      rmapAddAll sb OWN_INOBT runs.2 ag3 = .ok () ag' := by
  unfold tryCarve at h
  obtain ⟨_, ag0, h0, h⟩ := bind_eq_ok.mp h
  simp only [modify_apply, EStateM.Result.ok.injEq] at h0
  obtain ⟨_, rfl⟩ := h0
  obtain ⟨inoRun, ag1, h1, h⟩ := bind_eq_ok.mp h
  obtain ⟨agRun, ag2, h2, h⟩ := bind_eq_ok.mp h
  obtain ⟨_, ag3, h3, h⟩ := bind_eq_ok.mp h
  obtain ⟨_, ag4, h4, h⟩ := bind_eq_ok.mp h
  simp only [pure_apply, EStateM.Result.ok.injEq] at h
  obtain ⟨rfl, rfl⟩ := h
  have hc1 := carve_ok (by exact hf) (by exact ht) h1
  exact ⟨ag1, ag2, ag3, hc1, carve_ok hc1.freeOk hc1.total h2, h3, h4⟩

/-- Recording owners leaves the space alone. -/
theorem rmapAddAll_space {sb : Superblock} {owner : Nat} {runs : List (Nat × Nat)} :
    ∀ {ag ag' : Ag} {u : Unit}, rmapAddAll sb owner runs ag = .ok u ag' →
      SameButSpace ag ag' ∧ ag'.free = ag.free ∧ ag'.freeTotal = ag.freeTotal := by
  induction runs with
  | nil =>
    intro ag ag' u h
    simp only [rmapAddAll, pure_apply, EStateM.Result.ok.injEq] at h
    obtain ⟨_, rfl⟩ := h
    exact ⟨.refl _, rfl, rfl⟩
  | cons r runs ih =>
    intro ag ag' u h
    obtain ⟨_, ag1, h1, h2⟩ := bind_eq_ok.mp h
    obtain ⟨hs, hfree, htotal⟩ := ih h2
    have hstep : SameButSpace ag ag1 ∧ ag1.free = ag.free ∧ ag1.freeTotal = ag.freeTotal := by
      unfold rmapAdd at h1
      split at h1
      · simp only [modify_apply, EStateM.Result.ok.injEq] at h1
        rw [← h1.2]
        exact ⟨rfl, rfl, rfl⟩
      · simp only [pure_apply, EStateM.Result.ok.injEq] at h1
        rw [← h1.2]
        exact ⟨rfl, rfl, rfl⟩
    exact ⟨hstep.1.trans hs, hfree.trans hstep.2.1, htotal.trans hstep.2.2⟩

/-- What a round of carving leaves of the space, whatever the mappings. -/
structure Placed (base ag : Ag) (agRun inoRun : List (Nat × Nat)) (agBlocks inoBlocks : Nat) :
    Prop where
  freeOk : FreeOk ag.free
  total : ag.freeTotal = ag.free.values.sum
  count : ag.freeTotal + agBlocks + inoBlocks = base.freeTotal
  at_ : ∀ b, freeAt ag.free b + withinRuns agRun b + withinRuns inoRun b = freeAt base.free b
  agLength : (agRun.map (·.2)).sum = agBlocks
  inoLength : (inoRun.map (·.2)).sum = inoBlocks
  separate : Separate base.free → Separate ag.free
  same : SameButSpace base ag

theorem SameButSpace.reset {base ag : Ag} (h : SameButSpace base ag) : SameButSpace base { ag with
    free := base.free, freeTotal := base.freeTotal, rmap := base.rmap } := by
  unfold SameButSpace at h ⊢
  rw [h]

theorem tryCarve_placed {sb : Superblock} {base ag ag' : Ag} {inoBlocks agBlocks : Nat}
    {runs : List (Nat × Nat) × List (Nat × Nat)} (hf : FreeOk base.free)
    (ht : base.freeTotal = base.free.values.sum) (hsame : SameButSpace base ag)
    (h : tryCarve sb base inoBlocks agBlocks ag = .ok runs ag') :
    Placed base ag' runs.1 runs.2 agBlocks inoBlocks := by
  obtain ⟨ag1, ag2, ag3, hc1, hc2, h3, h4⟩ := tryCarve_runs hf ht h
  obtain ⟨hs3, hfr3, hft3⟩ := rmapAddAll_space h3
  obtain ⟨hs4, hfr4, hft4⟩ := rmapAddAll_space h4
  have hcount1 := hc1.count
  have hcount2 := hc2.count
  simp only at hcount1
  exact
    { freeOk := by rw [hfr4, hfr3]; exact hc2.freeOk
      total := by rw [hft4, hft3, hfr4, hfr3]; exact hc2.total
      count := by rw [hft4, hft3]; omega
      at_ := fun b => by
        have h1 := hc1.at_ b
        have h2 := hc2.at_ b
        rw [hfr4, hfr3]
        simp only at h1
        omega
      agLength := hc2.length
      inoLength := hc1.length
      separate := fun hs => by
        rw [hfr4, hfr3]
        exact hc2.separate (hc1.separate hs)
      same := hsame.reset.trans (hc1.same.trans (hc2.same.trans (hs3.trans hs4))) }

theorem tryCarve_ok {sb : Superblock} {base ag ag' : Ag} {inoBlocks agBlocks : Nat}
    {runs : List (Nat × Nat) × List (Nat × Nat)} (hf : FreeOk base.free)
    (ht : base.freeTotal = base.free.values.sum) (hr : RmapOk base.rmap) (hx : Exclusive base)
    (hsame : SameButSpace base ag) (h : tryCarve sb base inoBlocks agBlocks ag = .ok runs ag') :
    Settled sb base ag' runs.1 runs.2 agBlocks inoBlocks := by
  have hp := tryCarve_placed hf ht hsame h
  obtain ⟨ag1, ag2, ag3, hc1, hc2, h3, h4⟩ := tryCarve_runs hf ht h
  have hrm2 : ag2.rmap = base.rmap := hc2.rmap.trans hc1.rmap
  obtain ⟨hr3, hat3, -, -, -⟩ := rmapAddAll_ok (hrm2 ▸ hr) hc2.pos (fun b => by
    have := hx b
    have := hp.at_ b
    rw [hrm2]
    omega) h3
  obtain ⟨hr4, hat4, -, -, -⟩ := rmapAddAll_ok hr3 hc1.pos (fun b => by
    have := hx b
    have := hp.at_ b
    rw [hat3, hrm2]
    split <;> omega) h4
  exact
    { freeOk := hp.freeOk
      total := hp.total
      count := hp.count
      at_ := hp.at_
      agLength := hp.agLength
      inoLength := hp.inoLength
      rmapOk := hr4
      mapped := fun q b => by rw [hat4, hat3, hrm2]
      separate := hp.separate
      same := hp.same }

theorem settle_placed {sb : Superblock} {base : Ag} {inoBlocks : Nat} (hf : FreeOk base.free)
    (ht : base.freeTotal = base.free.values.sum) :
    ∀ {tries need : Nat} {ag ag' : Ag} {runs : List (Nat × Nat) × List (Nat × Nat)},
      SameButSpace base ag → settle sb base inoBlocks tries need ag = .ok runs ag' →
      Placed base ag' runs.1 runs.2
        (agNeed sb ag'.free.entries.length (merged ag'.rmap).length) inoBlocks := by
  intro tries
  induction tries with
  | zero =>
    intro need ag ag' runs _ h
    simp [settle] at h
  | succ tries ih =>
    intro need ag ag' runs hsame h
    unfold settle at h
    obtain ⟨r, ag1, h1, h⟩ := bind_eq_ok.mp h
    have hs := tryCarve_placed hf ht hsame h1
    simp only [get_bind_apply] at h
    obtain ⟨m, ag2, hlift, h⟩ := bind_eq_ok.mp h
    obtain ⟨hm, rfl⟩ := liftE_eq_ok.mp hlift
    obtain ⟨-, rfl⟩ := mergedRmap_eq_ok.mp hm
    split at h
    · rename_i hneed
      simp only [pure_apply, EStateM.Result.ok.injEq] at h
      obtain ⟨rfl, rfl⟩ := h
      rw [hneed]
      exact hs
    · exact ih hs.same h

theorem settle_ok {sb : Superblock} {base : Ag} {inoBlocks : Nat} (hf : FreeOk base.free)
    (ht : base.freeTotal = base.free.values.sum) (hr : RmapOk base.rmap) (hx : Exclusive base) :
    ∀ {tries need : Nat} {ag ag' : Ag} {runs : List (Nat × Nat) × List (Nat × Nat)},
      SameButSpace base ag → settle sb base inoBlocks tries need ag = .ok runs ag' →
      Settled sb base ag' runs.1 runs.2
        (agNeed sb ag'.free.entries.length (merged ag'.rmap).length) inoBlocks := by
  intro tries
  induction tries with
  | zero =>
    intro need ag ag' runs _ h
    simp [settle] at h
  | succ tries ih =>
    intro need ag ag' runs hsame h
    unfold settle at h
    obtain ⟨r, ag1, h1, h⟩ := bind_eq_ok.mp h
    have hs := tryCarve_ok hf ht hr hx hsame h1
    simp only [get_bind_apply] at h
    obtain ⟨m, ag2, hlift, h⟩ := bind_eq_ok.mp h
    obtain ⟨hm, rfl⟩ := liftE_eq_ok.mp hlift
    obtain ⟨-, rfl⟩ := mergedRmap_eq_ok.mp hm
    split at h
    · rename_i hneed
      simp only [pure_apply, EStateM.Result.ok.injEq] at h
      obtain ⟨rfl, rfl⟩ := h
      rw [hneed]
      exact hs
    · exact ih hs.same h

/-- The mappings of what it settles on were merged. -/
theorem settle_merges {sb : Superblock} {base : Ag} {inoBlocks : Nat} :
    ∀ {tries need : Nat} {ag ag' : Ag} {runs : List (Nat × Nat) × List (Nat × Nat)},
      settle sb base inoBlocks tries need ag = .ok runs ag' →
      ∃ ms, mergedRmap ag'.rmap = .ok ms := by
  intro tries
  induction tries with
  | zero =>
    intro need ag ag' runs h
    simp [settle] at h
  | succ tries ih =>
    intro need ag ag' runs h
    unfold settle at h
    obtain ⟨r, ag1, h1, h⟩ := bind_eq_ok.mp h
    simp only [get_bind_apply] at h
    obtain ⟨m, ag2, hlift, h⟩ := bind_eq_ok.mp h
    obtain ⟨hm, rfl⟩ := liftE_eq_ok.mp hlift
    split at h
    · simp only [pure_apply, EStateM.Result.ok.injEq] at h
      exact ⟨m, h.2 ▸ hm⟩
    · exact ih h

/-! ## Giving the old trees back -/

/-- What giving the old trees' blocks back leaves of the space. -/
structure GaveBack (ag base : Ag) : Prop where
  freeOk : FreeOk base.free
  total : base.freeTotal = base.free.values.sum
  count : base.freeTotal = ag.freeTotal + ag.oldTreeBlocks.length
  at_ : ∀ b, freeAt base.free b = freeAt ag.free b + ag.oldTreeBlocks.count b
  inside : ∀ b ∈ ag.oldTreeBlocks, b < ag.len
  separate : Separate ag.free → Separate base.free
  same : SameButSpace { ag with oldTreeBlocks := [] } base

theorem giveBack_space {sb : Superblock} {ag base : Ag} {u : Unit} (hf : FreeOk ag.free)
    (ht : ag.freeTotal = ag.free.values.sum) (h : giveBack sb ag = .ok u base) :
    GaveBack ag base := by
  unfold giveBack at h
  simp only [get_bind_apply, set_bind_apply] at h
  obtain ⟨_, ag1, h1, h⟩ := bind_eq_ok.mp h
  obtain ⟨_, ag2, h2, h⟩ := bind_eq_ok.mp h
  simp only [modify_apply, EStateM.Result.ok.injEq] at h2
  obtain ⟨_, rfl⟩ := h2
  obtain ⟨hf1, ht1, hn1, hat1, hin1, hsep1, hs1, -⟩ := freeAll_ok (by exact hf) (by exact ht) h1
  obtain ⟨hs2, hfree, htotal⟩ := rmapAddAll_space h
  have hs : SameButSpace ag1 { ag1 with
      rmap := ag1.rmap.filter fun e => e.1.owner != OWN_AG && e.1.owner != OWN_INOBT } := rfl
  exact
    { freeOk := hfree ▸ hf1
      total := by rw [htotal, hfree]; exact ht1
      count := by rw [htotal]; exact hn1
      at_ := fun b => by rw [hfree]; exact hat1 b
      inside := hin1
      separate := fun h => by rw [hfree]; exact hsep1 h
      same := hs1.trans (hs.trans hs2) }

/-! ## Taking `rebuild` apart -/

/-- What `rebuild` leaves of the group it settled on. -/
def finished (sb : Superblock) (ag : Ag) (t : Trees) (old : List Nat) : Ag :=
  { ag with
    agf := newAgf ag t
    agi := newAgi sb ag t
    oldTreeBlocks := old
    reserve := reserveFor old.length ag.len
    dirty := false }

section
variable (sb : Superblock) (ag : Ag) (t : Trees) (old : List Nat)

@[simp] theorem finished_free : (finished sb ag t old).free = ag.free := by
  simp only [finished]
@[simp] theorem finished_freeTotal : (finished sb ag t old).freeTotal = ag.freeTotal := by
  simp only [finished]
@[simp] theorem finished_rmap : (finished sb ag t old).rmap = ag.rmap := by
  simp only [finished]
@[simp] theorem finished_len : (finished sb ag t old).len = ag.len := by
  simp only [finished]
@[simp] theorem finished_agfl : (finished sb ag t old).agfl = ag.agfl := by
  simp only [finished]
@[simp] theorem finished_old : (finished sb ag t old).oldTreeBlocks = old := by
  simp only [finished]
@[simp] theorem finished_chunks : (finished sb ag t old).chunks = ag.chunks := by
  simp only [finished]
@[simp] theorem finished_agf : (finished sb ag t old).agf = newAgf ag t := by
  simp only [finished]
@[simp] theorem finished_agi : (finished sb ag t old).agi = newAgi sb ag t := by
  simp only [finished]
@[simp] theorem finished_agno : (finished sb ag t old).agno = ag.agno := by
  simp only [finished]
@[simp] theorem finished_dirty : (finished sb ag t old).dirty = false := by
  simp only [finished]

end

/-- What `rebuild` writes. -/
def rebuildWrites (sb : Superblock) (ag : Ag) (t : Trees) : List (Nat × Bytes) :=
  t.blocks.map (fun b => (sb.agbToByte ag.agno b.1, b.2)) ++
    [(headerAt sb ag.agno 1, newAgf ag t), (headerAt sb ag.agno 2, newAgi sb ag t)]

/-- Everything a successful rebuild did. -/
structure RebuildRun (sb : Superblock) (ag ag' : Ag) (writes : List (Nat × Bytes)) where
  base : Ag
  first : Nat
  settled : Ag
  agRun : List (Nat × Nat)
  inoRun : List (Nat × Nat)
  trees : Trees
  gave : giveBack sb ag = .ok () base
  tried : firstNeed sb base = .ok first
  settles : settle sb base (inoNeed sb base.chunks) 32 first base = .ok (agRun, inoRun) settled
  built : buildTrees sb settled (expand agRun) (expand inoRun) = .ok trees
  agiLength : ¬((sb.hasFinobt ∧ settled.agi.length < 336) ∨
    (sb.hasInobtcount ∧ settled.agi.length < 344))
  counts : ¬(2 ^ 32 ≤ (settled.chunks.values.map (·.count)).sum ∨
    2 ^ 32 ≤ (settled.chunks.values.map (·.freeCount)).sum)
  out : ag' = finished sb settled trees (expand agRun ++ expand inoRun)
  writes_eq : writes = rebuildWrites sb settled trees

theorem rebuild_ok {sb : Superblock} {ag ag' : Ag} {writes : List (Nat × Bytes)}
    (h : rebuild sb ag = .ok writes ag') : Nonempty (RebuildRun sb ag ag' writes) := by
  unfold rebuild at h
  obtain ⟨_, base, h1, h⟩ := bind_eq_ok.mp h
  simp only [get_bind_apply] at h
  obtain ⟨first, ag1, hlift, h⟩ := bind_eq_ok.mp h
  obtain ⟨hfirst, rfl⟩ := liftE_eq_ok.mp hlift
  obtain ⟨⟨agRun, inoRun⟩, settled, h2, h⟩ := bind_eq_ok.mp h
  simp only [get_bind_apply] at h
  obtain ⟨t, ag3, h3, h⟩ := bind_eq_ok.mp h
  obtain ⟨hbuilt, rfl⟩ := liftE_eq_ok.mp h3
  obtain ⟨h4, h⟩ := act_throwIf_bind_eq_ok.mp h
  obtain ⟨h5, h⟩ := act_throwIf_bind_eq_ok.mp h
  simp only [set_bind_apply, pure_apply, EStateM.Result.ok.injEq] at h
  exact ⟨⟨base, first, _, agRun, inoRun, t, h1, hfirst, h2, hbuilt, h4, h5, h.2.symm, h.1.symm⟩⟩

end FioXfs.Alloc
