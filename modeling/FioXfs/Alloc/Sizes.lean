import FioXfs.Alloc.Carve
import FioXfs.Lib.Settling
set_option autoImplicit false

/-!
# The sizes a rebuild tries

A size is carved off the ends of the longest extents, and what is then left to record needs a
next one.  The need changes by little from one size to the next, so that after 32 sizes that
can be carved one has come twice: the loop ends, or it would go round for ever.
-/

namespace FioXfs.Alloc

open FioXfs.Lib FioXfs.Btree

/-! ## Runs recorded -/

/-- A set of mappings with a run of `owner`'s for each of `runs`. -/
def addRuns (rmap : OrdSet Rmap) (owner : Nat) (runs : List (Nat × Nat)) : OrdSet Rmap :=
  runs.foldl (fun m r => m.insert ⟨r.1, owner, 0, r.2⟩ ()) rmap

theorem mem_addRuns {owner : Nat} {x : Rmap × Unit} : ∀ {runs : List (Nat × Nat)}
    {rmap : OrdSet Rmap}, x ∈ (addRuns rmap owner runs).entries ↔
      x ∈ rmap.entries ∨ ∃ r ∈ runs, x.1 = ⟨r.1, owner, 0, r.2⟩ := by
  intro runs
  induction runs with
  | nil => intro rmap; simp [addRuns]
  | cons r runs ih =>
      intro rmap
      change x ∈ (addRuns (rmap.insert ⟨r.1, owner, 0, r.2⟩ ()) owner runs).entries ↔ _
      rw [ih, OrdMap.mem_insert]
      by_cases hx : x.1 = ⟨r.1, owner, 0, r.2⟩
      · have hxx : x = (⟨r.1, owner, 0, r.2⟩, ()) := Prod.ext hx rfl
        simp [hxx]
      · have hxx : x ≠ (⟨r.1, owner, 0, r.2⟩, ()) := fun h => hx (congrArg Prod.fst h)
        simp [hx, hxx]

section
variable {sb : Superblock} {base : Ag}

/-- The order of the runs does not matter. -/
theorem addRuns_congr {owner : Nat} {runs runs' : List (Nat × Nat)} (h : runs.Perm runs')
    (rmap : OrdSet Rmap) : addRuns rmap owner runs = addRuns rmap owner runs' :=
  OrdMap.ext_mem fun x => by simp only [mem_addRuns, h.mem_iff]

/-- Recording runs always succeeds. -/
theorem rmapAddAll_eq {owner : Nat} : ∀ {runs : List (Nat × Nat)} {ag : Ag},
    ∃ ag', rmapAddAll sb owner runs ag = .ok () ag' ∧ ag'.free = ag.free ∧
      ag'.rmap = if sb.hasRmapbt then addRuns ag.rmap owner runs else ag.rmap := by
  intro runs
  induction runs with
  | nil => exact fun {ag} => ⟨ag, rfl, rfl, by split <;> rfl⟩
  | cons r runs ih =>
      intro ag
      cases hrm : sb.hasRmapbt with
      | true =>
          obtain ⟨ag', h1, h2, h3⟩ := @ih
            { ag with rmap := ag.rmap.insert ⟨r.1, owner, 0, r.2⟩ (), dirty := true }
          refine ⟨ag', ?_, h2, by rw [h3, hrm]; rfl⟩
          simp only [rmapAddAll, rmapAdd, hrm, if_true]
          rw [bind_of_ok (modify_apply _ _)]
          exact h1
      | false =>
          obtain ⟨ag', h1, h2, h3⟩ := @ih ag
          refine ⟨ag', ?_, h2, by rw [h3, hrm]; rfl⟩
          simp only [rmapAddAll, rmapAdd, hrm, Bool.false_eq_true, if_false]
          rw [bind_of_ok (pure_apply _ _)]
          exact h1

/-! ## What a size leaves -/

/-- The inode trees' blocks come first: their runs, and the extents left. -/
def inoCarved (sb : Superblock) (base : Ag) : List (Nat × Nat) × List (Nat × Nat) :=
  offEnds (inoNeed sb base.chunks) (longestFirst base.free.entries)

/-- Then `k` blocks for the other trees. -/
def agCarved (sb : Superblock) (base : Ag) (k : Nat) : List (Nat × Nat) × List (Nat × Nat) :=
  offEnds k (longestFirst (inoCarved sb base).2)

/-- The mappings with those of some runs for the AG and for the inode trees. -/
def recorded (sb : Superblock) (base : Ag) (agRun inoRun : List (Nat × Nat)) : OrdSet Rmap :=
  if sb.hasRmapbt then addRuns (addRuns base.rmap OWN_AG agRun) OWN_INOBT inoRun else base.rmap

/-- The mappings when `k` blocks are carved. -/
def rmapAfter (sb : Superblock) (base : Ag) (k : Nat) : OrdSet Rmap :=
  recorded sb base (agCarved sb base k).1 (inoCarved sb base).1

/-- The blocks that the trees of what is then left to record take. -/
def needAfter (sb : Superblock) (base : Ag) (k : Nat) : Nat :=
  agNeed sb (agCarved sb base k).2.length (merged (rmapAfter sb base k)).length

/-- The size tried first: what the records before carving need, and two mappings more. -/
def firstSize (sb : Superblock) (base : Ag) : Nat :=
  agNeed sb base.free.entries.length ((merged base.rmap).length + 2)

/-- A size can be carved beside the inode trees' blocks, and the ends of the mappings to merge
then fit 32 bits. -/
def Carvable (sb : Superblock) (base : Ag) (k : Nat) : Prop :=
  inoNeed sb base.chunks + k ≤ base.freeTotal ∧ EndsFit (rmapAfter sb base k).keys

/-- A size that can be carved is followed by what is needed then. -/
def Follows (sb : Superblock) (base : Ag) (p q : Nat) : Prop :=
  Carvable sb base p ∧ q = needAfter sb base p

/-- A size that comes of the first. -/
def Comes (sb : Superblock) (base : Ag) (p : Nat) : Prop :=
  EndsFit base.rmap.keys ∧ Relation.ReflTransGen (Follows sb base) (firstSize sb base) p

theorem comes_iff {p : Nat} : Comes sb base p ↔ EndsFit base.rmap.keys ∧
    ∃ n, p = (needAfter sb base)^[n] (firstSize sb base) ∧
      ∀ m < n, Carvable sb base ((needAfter sb base)^[m] (firstSize sb base)) :=
  and_congr_right fun _ => comes_iff_iterate

theorem firstNeed_eq_ok {n : Nat} :
    firstNeed sb base = .ok n ↔ EndsFit base.rmap.keys ∧ n = firstSize sb base := by
  unfold firstNeed
  simp only [except_bind_eq_ok, mergedRmap_eq_ok]
  constructor
  · rintro ⟨_, ⟨hfit, rfl⟩, h⟩
    exact ⟨hfit, (Except.ok.inj h).symm⟩
  · rintro ⟨hfit, rfl⟩
    exact ⟨_, ⟨hfit, rfl⟩, rfl⟩

/-- The blocks of the extents, as counted. -/
theorem sum_longestFirst {es : List (Nat × Nat)} :
    ((longestFirst es).map (·.2)).sum = (es.map (·.2)).sum :=
  ((List.perm_insertionSort _ es).map _).sum_eq

theorem pos_longestFirst {es : List (Nat × Nat)} (h : ∀ e ∈ es, 0 < e.2) :
    ∀ e ∈ longestFirst es, 0 < e.2 :=
  fun e he => h e ((List.mem_insertionSort _).mp he)

theorem length_longestFirst {es : List (Nat × Nat)} : (longestFirst es).length = es.length :=
  List.length_insertionSort _ _

/-- The extents that the inode trees leave. -/
theorem inoCarved_left (hf : FreeOk base.free) (ht : base.freeTotal = base.free.values.sum)
    (h : inoNeed sb base.chunks ≤ base.freeTotal) : (∀ e ∈ (inoCarved sb base).2, 0 < e.2) ∧
    ((inoCarved sb base).2.map (·.2)).sum + inoNeed sb base.chunks = base.freeTotal := by
  obtain ⟨h1, h2⟩ := @offEnds_left (longestFirst base.free.entries) (inoNeed sb base.chunks)
    (pos_longestFirst hf.pos)
  rw [sum_longestFirst] at h2
  rw [ht] at h ⊢
  exact ⟨h1, h2 h⟩

/-- No try leaves more extents than there were. -/
theorem length_agCarved_le (k : Nat) : (agCarved sb base k).2.length ≤ base.free.entries.length :=
  calc (agCarved sb base k).2.length ≤ (longestFirst (inoCarved sb base).2).length := length_offEnds_le
    _ = (inoCarved sb base).2.length := length_longestFirst
    _ ≤ (longestFirst base.free.entries).length := length_offEnds_le
    _ = base.free.entries.length := length_longestFirst

/-- Whatever group it is made in, a try with room leaves what it should. -/
theorem tryCarve_of_room {k : Nat} (hf : FreeOk base.free)
    (ht : base.freeTotal = base.free.values.sum) (h : inoNeed sb base.chunks + k ≤ base.freeTotal)
    (ag : Ag) : ∃ runs ag', tryCarve sb base (inoNeed sb base.chunks) k ag = .ok runs ag' ∧
      ag'.free.entries.length = (agCarved sb base k).2.length ∧ ag'.rmap = rmapAfter sb base k := by
  unfold tryCarve
  rw [bind_of_ok (modify_apply _ _)]
  obtain ⟨inoRun, ag1, h1, hruns1, hleft1⟩ := @carve_of_room { ag with
    free := base.free, freeTotal := base.freeTotal, rmap := base.rmap } (inoNeed sb base.chunks)
    hf ht (Nat.le_of_add_right_le h)
  have hc1 := carve_ok (by exact hf) (by exact ht) h1
  have hcount := hc1.count
  simp only at hcount
  obtain ⟨agRun, ag2, h2, hruns2, hleft2⟩ := @carve_of_room ag1 k hc1.freeOk hc1.total (by omega)
  rw [longestFirst_congr hleft1] at hruns2 hleft2
  have hrmap : ag2.rmap = base.rmap := by
    rw [(carve_ok hc1.freeOk hc1.total h2).rmap, hc1.rmap]
  obtain ⟨ag3, h3, hfree3, hrmap3⟩ := @rmapAddAll_eq sb OWN_AG agRun ag2
  obtain ⟨ag4, h4, hfree4, hrmap4⟩ := @rmapAddAll_eq sb OWN_INOBT inoRun ag3
  rw [bind_of_ok h1, bind_of_ok h2, bind_of_ok h3, bind_of_ok h4]
  refine ⟨_, ag4, rfl, ?_, ?_⟩
  · rw [hfree4, hfree3]
    exact hleft2.length_eq
  · rw [hrmap4, hrmap3, hrmap]
    unfold rmapAfter recorded
    split
    · rw [addRuns_congr hruns2, addRuns_congr hruns1]
      rfl
    · rfl

/-- A try without room finds no space. -/
theorem tryCarve_of_short {k : Nat} (hf : FreeOk base.free)
    (ht : base.freeTotal = base.free.values.sum) (h : base.freeTotal < inoNeed sb base.chunks + k)
    (ag : Ag) : ∃ e s, tryCarve sb base (inoNeed sb base.chunks) k ag = .error e s ∧
      e.isNoSpace = true := by
  unfold tryCarve
  rw [bind_of_ok (modify_apply _ _)]
  cases h1 : carve (inoNeed sb base.chunks) { ag with
      free := base.free, freeTotal := base.freeTotal, rmap := base.rmap } with
  | error e s => exact ⟨e, s, bind_of_error h1, (carve_error (by exact hf) (by exact ht) h1).1⟩
  | ok inoRun ag1 =>
      have hc1 := carve_ok (by exact hf) (by exact ht) h1
      have hcount := hc1.count
      simp only at hcount
      obtain ⟨e, s, h2, he⟩ := @carve_of_short ag1 k hc1.freeOk hc1.total (by omega)
      exact ⟨e, s, by rw [bind_of_ok h1, bind_of_error h2], he⟩

/-! ## Sizes near each other -/

/-- One run more or less is at most one mapping more in the set. -/
theorem recorded_append (common : List (Nat × Nat)) {tail inoRun : List (Nat × Nat)}
    (htail : tail.length ≤ 1) :
    recorded sb base (common ++ tail) inoRun = recorded sb base common inoRun ∨
      ∃ x, recorded sb base (common ++ tail) inoRun =
        (recorded sb base common inoRun).insert x () := by
  unfold recorded
  cases sb.hasRmapbt with
  | false => exact Or.inl rfl
  | true =>
      simp only [if_true]
      cases tail with
      | nil => exact Or.inl (by rw [List.append_nil])
      | cons r tail =>
          obtain rfl : tail = [] := List.eq_nil_of_length_eq_zero (by simpa using htail)
          refine Or.inr ⟨⟨r.1, OWN_AG, 0, r.2⟩, OrdMap.ext_mem fun x => ?_⟩
          have hx : x = (⟨r.1, OWN_AG, 0, r.2⟩, ()) ↔ x.1 = ⟨r.1, OWN_AG, 0, r.2⟩ :=
            ⟨fun h => congrArg Prod.fst h, fun h => Prod.ext h rfl⟩
          simp only [mem_addRuns, List.mem_append, List.mem_singleton, OrdMap.mem_insert, hx,
            or_and_right, exists_or, exists_eq_left]
          grind

/-- The counts after a try: free extents, and merged mappings. -/
def extentsAfter (sb : Superblock) (base : Ag) (k : Nat) : Nat := (agCarved sb base k).2.length
def mappingsAfter (sb : Superblock) (base : Ag) (k : Nat) : Nat := (merged (rmapAfter sb base k)).length

/-- One block more to carve: at most one extent fewer, and the mappings hardly differ. -/
theorem countsAfter_succ {k : Nat} (hf : FreeOk base.free)
    (ht : base.freeTotal = base.free.values.sum)
    (h : inoNeed sb base.chunks + (k + 1) ≤ base.freeTotal) :
    extentsAfter sb base (k + 1) ≤ extentsAfter sb base k ∧
      extentsAfter sb base k ≤ extentsAfter sb base (k + 1) + 1 ∧
      mappingsAfter sb base (k + 1) ≤ mappingsAfter sb base k + 3 ∧
      mappingsAfter sb base k ≤ mappingsAfter sb base (k + 1) + 3 := by
  obtain ⟨hpos, hsum⟩ := inoCarved_left hf ht (Nat.le_of_add_right_le h)
  obtain ⟨common, last, more, h1, h2, hlast, hmore, hle, hge⟩ :=
    @offEnds_succ (longestFirst (inoCarved sb base).2) k (pos_longestFirst hpos)
      (by rw [sum_longestFirst]; omega)
  refine ⟨hle, hge, ?_⟩
  have hbound : ∀ {tail}, tail.length ≤ 1 →
      (merged (recorded sb base (common ++ tail) (inoCarved sb base).1)).length ≤
        (merged (recorded sb base common (inoCarved sb base).1)).length + 2 ∧
      (merged (recorded sb base common (inoCarved sb base).1)).length ≤
        (merged (recorded sb base (common ++ tail) (inoCarved sb base).1)).length + 1 := by
    intro tail htail
    rcases @recorded_append sb base common tail (inoCarved sb base).1 htail with heq | ⟨x, heq⟩
    · rw [heq]
      omega
    · rw [heq]
      exact length_merged_insert _ x
  have hb1 := hbound hlast
  have hb2 := hbound hmore
  rw [← h1] at hb1
  rw [← h2] at hb2
  unfold mappingsAfter rmapAfter agCarved
  omega

/-- The counts of sizes apart. -/
theorem countsAfter_add {k : Nat} (hf : FreeOk base.free)
    (ht : base.freeTotal = base.free.values.sum) : ∀ {d : Nat},
    inoNeed sb base.chunks + (k + d) ≤ base.freeTotal →
    extentsAfter sb base (k + d) ≤ extentsAfter sb base k ∧
      extentsAfter sb base k ≤ extentsAfter sb base (k + d) + d ∧
      mappingsAfter sb base (k + d) ≤ mappingsAfter sb base k + 3 * d ∧
      mappingsAfter sb base k ≤ mappingsAfter sb base (k + d) + 3 * d := by
  intro d
  induction d with
  | zero => exact fun _ => ⟨le_refl _, le_refl _, le_refl _, le_refl _⟩
  | succ d ih =>
      intro h
      have h1 := ih (by omega)
      have h2 := @countsAfter_succ sb base (k + d) hf ht h
      rw [Nat.add_assoc] at h2
      omega

end

/-! ## How the need changes -/

/-- The leaves of a tree of `n` records. -/
def leavesOf (spec : AgSpec) (bs n : Nat) : Nat := max (divCeil n (spec.leafMax bs)) 1

/-- The blocks above `leaves` leaves. -/
def aboveLeaves (spec : AgSpec) (bs leaves : Nat) : Nat :=
  ((levelsAbove 1 (spec.nodeMax bs) leaves leaves).getD []).sum

section
variable {spec : AgSpec} {sb : Superblock} {base : Ag} {bs : Nat}

theorem blocks_eq (n : Nat) :
    spec.blocks n bs = leavesOf spec bs n + aboveLeaves spec bs (leavesOf spec bs n) := by
  unfold AgSpec.blocks blocksFor levelSizes
  rw [List.sum_cons]
  rfl

theorem leavesOf_mono {n m : Nat} (h : n ≤ m) : leavesOf spec bs n ≤ leavesOf spec bs m := by
  have := @divCeil_mono n m (spec.leafMax bs) h
  unfold leavesOf
  omega

/-- `m` records more are at most a leaf for each `L`. -/
theorem leavesOf_add {L n m : Nat} (hL : 0 < L) (hmax : L ≤ spec.leafMax bs) :
    leavesOf spec bs (n + m) ≤ leavesOf spec bs n + divCeil m L := by
  have hstep : divCeil (n + m) (spec.leafMax bs) ≤ divCeil n (spec.leafMax bs) + divCeil m L := by
    rw [divCeil_le_iff (by omega), Nat.add_mul]
    have h1 := @le_divCeil_mul n (spec.leafMax bs) (by omega)
    have h2 := @le_divCeil_mul m L hL
    have h3 : divCeil m L * L ≤ divCeil m L * spec.leafMax bs := Nat.mul_le_mul_left _ hmax
    omega
  unfold leavesOf
  omega

theorem levelsAbove_leaves (hnode : 10 ≤ spec.nodeMax bs) (c : Nat) :
    ∃ ls, levelsAbove 1 (spec.nodeMax bs) c c = some ls ∧ aboveLeaves spec bs c = ls.sum := by
  obtain ⟨ls, hls⟩ := Option.isSome_iff_exists.mp
    (@levelsAbove_isSome 1 (spec.nodeMax bs) (by omega) (le_refl 1) c c (le_refl c))
  exact ⟨ls, hls, by unfold aboveLeaves; rw [hls]; rfl⟩

theorem blocks_mono (hnode : 10 ≤ spec.nodeMax bs) {n m : Nat} (h : n ≤ m) :
    spec.blocks n bs ≤ spec.blocks m bs := by
  rw [blocks_eq, blocks_eq]
  obtain ⟨ls, hls, h1⟩ := levelsAbove_leaves hnode (leavesOf spec bs n)
  obtain ⟨ls', hls', h2⟩ := levelsAbove_leaves hnode (leavesOf spec bs m)
  have := sum_levelsAbove_mono (leavesOf_mono h) hls hls'
  have := @leavesOf_mono spec bs n m h
  omega

/-- Blocks for at most `m` records more, in a tree of at most `l` levels above its leaves. -/
theorem blocks_le_add {L n n' m l : Nat} (hL : 0 < L) (hmax : L ≤ spec.leafMax bs)
    (hnode : 10 ≤ spec.nodeMax bs) (hle : n' ≤ n + m) (hl : leavesOf spec bs n' ≤ 10 ^ l) :
    9 * spec.blocks n' bs ≤ 9 * spec.blocks n bs + 10 * divCeil m L + 9 * l := by
  by_cases hlt : n' ≤ n
  · have := @blocks_mono spec bs hnode n' n hlt
    omega
  have hmono := @leavesOf_mono spec bs n n' (by omega)
  have hadd := @leavesOf_add spec bs L n m hL hmax
  have hto := @leavesOf_mono spec bs n' (n + m) hle
  obtain ⟨d, hd⟩ : ∃ d, leavesOf spec bs n' = leavesOf spec bs n + d :=
    ⟨_, (Nat.add_sub_cancel' hmono).symm⟩
  rw [blocks_eq, blocks_eq]
  obtain ⟨ls, hls, h1⟩ := levelsAbove_leaves hnode (leavesOf spec bs n)
  obtain ⟨ls', hls', h2⟩ := levelsAbove_leaves hnode (leavesOf spec bs n')
  rw [hd] at hls' hl
  have := sum_levelsAbove_le hnode hls hls' hl
  omega

/-- How far needs can be apart for sizes up to `w` apart. -/
def apart (w : Nat) : Nat := (20 * divCeil w 57 + 144 + (10 * divCeil (3 * w) 19 + 90)) / 9

/-- The leaf counts the need is told by. -/
def bnoLeaves (sb : Superblock) (base : Ag) (k : Nat) : Nat :=
  leavesOf BNO sb.blockSize (extentsAfter sb base k)
def rmapLeaves (sb : Superblock) (base : Ag) (k : Nat) : Nat :=
  leavesOf RMAP sb.blockSize (mappingsAfter sb base k)

theorem caps (hs : sb.Sound) : 57 ≤ BNO.leafMax sb.blockSize ∧ 10 ≤ BNO.nodeMax sb.blockSize ∧
    19 ≤ RMAP.leafMax sb.blockSize ∧ 10 ≤ RMAP.nodeMax sb.blockSize := by
  have hbs := hs.blockSize_ge
  change 57 ≤ (sb.blockSize - 56) / 8 ∧ 10 ≤ (sb.blockSize - 56) / 12 ∧
    19 ≤ (sb.blockSize - 56) / 24 ∧ 10 ≤ (sb.blockSize - 56) / 44
  omega

/-- The needs of sizes near each other are near each other. -/
theorem need_near {p q w : Nat} (hs : sb.Sound) (hf : FreeOk base.free)
    (ht : base.freeTotal = base.free.values.sum) (hshort : base.freeTotal ≤ 2 ^ 31)
    (hp : inoNeed sb base.chunks + p ≤ base.freeTotal)
    (hq : inoNeed sb base.chunks + q ≤ base.freeTotal) (hpq : p ≤ q + w)
    (hqp : q ≤ p + w) (hneed : needAfter sb base p ≤ 2 ^ 31) :
    extentsAfter sb base p ≤ extentsAfter sb base q + w ∧
      mappingsAfter sb base p ≤ mappingsAfter sb base q + 3 * w ∧
      needAfter sb base p ≤ needAfter sb base q + apart w := by
  have hcounts : extentsAfter sb base p ≤ extentsAfter sb base q + w ∧
      mappingsAfter sb base p ≤ mappingsAfter sb base q + 3 * w := by
    rcases Nat.le_total p q with hle | hle
    · obtain ⟨d, rfl⟩ := Nat.exists_eq_add_of_le hle
      have := @countsAfter_add sb base p hf ht d hq
      omega
    · obtain ⟨d, rfl⟩ := Nat.exists_eq_add_of_le hle
      have := @countsAfter_add sb base q hf ht d hp
      omega
  refine ⟨hcounts.1, hcounts.2, ?_⟩
  obtain ⟨hbl, hbn, hrl, hrn⟩ := caps hs
  -- Every free extent has a block.
  have hfew : extentsAfter sb base p ≤ 2 ^ 31 := by
    have hlen := List.length_le_sum_of_one_le base.free.values fun n hn => by
      obtain ⟨e, he, rfl⟩ := List.mem_map.mp hn
      exact hf.pos e he
    rw [← ht, OrdMap.values, List.length_map] at hlen
    exact (length_agCarved_le p).trans (hlen.trans hshort)
  have hbno : leavesOf BNO sb.blockSize (extentsAfter sb base p) ≤ 10 ^ 8 := by
    have : divCeil (extentsAfter sb base p) (BNO.leafMax sb.blockSize) ≤ 10 ^ 8 := by
      rw [divCeil_le_iff (by omega)]
      calc extentsAfter sb base p ≤ 10 ^ 8 * 57 := hfew.trans (by norm_num)
        _ ≤ 10 ^ 8 * BNO.leafMax sb.blockSize := Nat.mul_le_mul_left _ hbl
    unfold leavesOf
    omega
  have h1 := @blocks_le_add BNO sb.blockSize 57 _ _ w 8 (by omega) hbl hbn hcounts.1 hbno
  have hcnt : ∀ n, CNT.blocks n sb.blockSize = BNO.blocks n sb.blockSize := fun _ => rfl
  change agNeed sb (extentsAfter sb base p) (mappingsAfter sb base p) ≤
    agNeed sb (extentsAfter sb base q) (mappingsAfter sb base q) + apart w
  change agNeed sb (extentsAfter sb base p) (mappingsAfter sb base p) ≤ 2 ^ 31 at hneed
  unfold agNeed at hneed ⊢
  rw [hcnt] at hneed ⊢
  rw [hcnt]
  unfold apart
  cases hrm : sb.hasRmapbt with
  | false =>
      simp only [Bool.false_eq_true, if_false]
      omega
  | true =>
      simp only [hrm, if_true] at hneed ⊢
      have hrmap : leavesOf RMAP sb.blockSize (mappingsAfter sb base p) ≤ 10 ^ 10 := by
        have := @blocks_eq RMAP sb.blockSize (mappingsAfter sb base p)
        omega
      have h2 := @blocks_le_add RMAP sb.blockSize 19 _ _ (3 * w) 10 (by omega) hrl hrn hcounts.2 hrmap
      omega

/-- The need is told by the two leaf counts. -/
theorem needAfter_eq_of_leaves {p q : Nat} (hX : bnoLeaves sb base p = bnoLeaves sb base q)
    (hY : rmapLeaves sb base p = rmapLeaves sb base q) : needAfter sb base p = needAfter sb base q := by
  have hcnt : ∀ n, CNT.blocks n sb.blockSize = BNO.blocks n sb.blockSize := fun _ => rfl
  change agNeed sb (extentsAfter sb base p) (mappingsAfter sb base p) =
    agNeed sb (extentsAfter sb base q) (mappingsAfter sb base q)
  unfold bnoLeaves at hX
  unfold rmapLeaves at hY
  unfold agNeed
  rw [hcnt, hcnt]
  simp only [blocks_eq]
  rw [hX, hY]

/-- Of 32 sizes that can be carved, each the need of the one before, two are the same: they are
soon close together, and then there are few needs for them to have. -/
theorem exists_size_twice {x : Nat} (hs : sb.Sound) (hf : FreeOk base.free)
    (ht : base.freeTotal = base.free.values.sum) (hshort : base.freeTotal ≤ 2 ^ 31)
    (hfit : ∀ i < 32, inoNeed sb base.chunks + (needAfter sb base)^[i] x ≤ base.freeTotal) :
    ∃ i j, i < j ∧ j < 32 ∧ (needAfter sb base)^[i] x = (needAfter sb base)^[j] x := by
  generalize hg : needAfter sb base = g at hfit
  have hnear : ∀ a b w, a < 31 → b < 31 → g^[a] x ≤ g^[b] x + w → g^[b] x ≤ g^[a] x + w →
      extentsAfter sb base (g^[a] x) ≤ extentsAfter sb base (g^[b] x) + w ∧
      mappingsAfter sb base (g^[a] x) ≤ mappingsAfter sb base (g^[b] x) + 3 * w ∧
      g (g^[a] x) ≤ g (g^[b] x) + apart w := by
    intro a b w ha hb hab hba
    have hneed : needAfter sb base (g^[a] x) ≤ 2 ^ 31 := by
      have := hfit (a + 1) (by omega)
      rw [Function.iterate_succ_apply'] at this
      rw [hg]
      omega
    have := need_near hs hf ht hshort (hfit a (by omega)) (hfit b (by omega)) hab hba hneed
    rwa [hg] at this
  have hwithin : ∀ i, Within g x 31 i (apart^[i] (2 ^ 31)) := by
    intro i
    induction i with
    | zero =>
        intro a b _ ha _ _
        have := hfit a (by omega)
        simp only [Function.iterate_zero, id_eq]
        omega
    | succ i ih =>
        rw [Function.iterate_succ_apply']
        exact ih.step fun a b ha hb hab hba => (hnear a b _ ha hb hab hba).2.2
  have hclose : Within g x 31 13 38 := by
    have := hwithin 13
    rwa [show apart^[13] (2 ^ 31) = 38 by decide +kernel] at this
  obtain ⟨hbl, -, hrl, -⟩ := caps hs
  obtain ⟨i, hi, j, hj, hij, hX, hY⟩ := @exists_repeat (Finset.Icc 13 30)
    (fun i => bnoLeaves sb base (g^[i] x)) (fun i => rmapLeaves sb base (g^[i] x)) 1 6
    (fun a ha b hb => by
      rw [Finset.mem_Icc] at ha hb
      have h1 := (hnear a b 38 (by omega) (by omega) (hclose a b ha.1 (by omega) hb.1 (by omega))
        (hclose b a hb.1 (by omega) ha.1 (by omega))).1
      exact (leavesOf_mono h1).trans (@leavesOf_add BNO sb.blockSize 57 _ 38 (by omega) hbl))
    (fun a ha b hb => by
      rw [Finset.mem_Icc] at ha hb
      have h1 := (hnear a b 38 (by omega) (by omega) (hclose a b ha.1 (by omega) hb.1 (by omega))
        (hclose b a hb.1 (by omega) ha.1 (by omega))).2.1
      exact (leavesOf_mono h1).trans (@leavesOf_add RMAP sb.blockSize 19 _ (3 * 38) (by omega) hrl))
    (by decide)
  rw [Finset.mem_Icc] at hi hj
  refine ⟨i + 1, j + 1, by omega, by omega, ?_⟩
  have hsame := needAfter_eq_of_leaves hX hY
  rw [hg] at hsame
  rw [Function.iterate_succ_apply', Function.iterate_succ_apply', hsame]

/-- Runs recorded are at most two merged mappings each. -/
theorem length_merged_addRuns {owner : Nat} : ∀ {runs : List (Nat × Nat)} {rmap : OrdSet Rmap},
    (merged (addRuns rmap owner runs)).length ≤ (merged rmap).length + 2 * runs.length := by
  intro runs
  induction runs with
  | nil => exact fun {rmap} => le_refl _
  | cons r runs ih =>
      intro rmap
      have h1 := @ih (rmap.insert ⟨r.1, owner, 0, r.2⟩ ())
      have h2 := (length_merged_insert rmap ⟨r.1, owner, 0, r.2⟩).1
      rw [List.length_cons]
      change (merged (addRuns (rmap.insert ⟨r.1, owner, 0, r.2⟩ ()) owner runs)).length ≤ _
      omega

/-- No size that comes is more than the records before carving need, with four mappings more for
each free extent. -/
theorem Comes.le {p : Nat} (hs : sb.Sound) (h : Comes sb base p) :
    p ≤ agNeed sb base.free.entries.length
      ((merged base.rmap).length + 4 * base.free.entries.length + 2) := by
  obtain ⟨hbl, hbn, hrl, hrn⟩ := caps hs
  have hmono : ∀ {f m f' m'}, f ≤ f' → m ≤ m' → agNeed sb f m ≤ agNeed sb f' m' := by
    intro f m f' m' hf hm
    have h1 := @blocks_mono BNO sb.blockSize hbn f f' hf
    have h2 := @blocks_mono RMAP sb.blockSize hrn m m' hm
    have hcnt : ∀ n, CNT.blocks n sb.blockSize = BNO.blocks n sb.blockSize := fun _ => rfl
    unfold agNeed
    rw [hcnt, hcnt]
    split <;> omega
  obtain ⟨-, hcomes⟩ := h
  rcases hcomes.cases_tail with rfl | ⟨q, -, -, rfl⟩
  · exact hmono (le_refl _) (by omega)
  refine hmono (length_agCarved_le q) ?_
  have hino : (inoCarved sb base).1.length ≤ base.free.entries.length := by
    rw [← @length_longestFirst base.free.entries]
    exact length_offEnds_runs
  have hag : (agCarved sb base q).1.length ≤ base.free.entries.length := by
    refine length_offEnds_runs.trans ?_
    rw [length_longestFirst, ← @length_longestFirst base.free.entries]
    exact length_offEnds_le
  unfold rmapAfter recorded
  split
  · have h1 := @length_merged_addRuns OWN_INOBT (inoCarved sb base).1
      (addRuns base.rmap OWN_AG (agCarved sb base q).1)
    have h2 := @length_merged_addRuns OWN_AG (agCarved sb base q).1 base.rmap
    omega
  · omega

/-! ## The loop -/

/-- What `settle` says when the tries are used up. -/
def notSettled (agno : Nat) : Error := .corrupt s!"AG {agno}: B+tree sizes do not settle"

/-- One turn at a size that can be carved: it ends when the size is its own need. -/
theorem settle_turn {k : Nat} (hf : FreeOk base.free) (ht : base.freeTotal = base.free.values.sum)
    (h : Carvable sb base k) {ag : Ag} (hsame : SameButSpace base ag) :
    ∃ runs ag', SameButSpace base ag' ∧ ∀ tries,
      settle sb base (inoNeed sb base.chunks) (tries + 1) k ag =
        if needAfter sb base k = k then .ok runs ag'
        else settle sb base (inoNeed sb base.chunks) tries (needAfter sb base k) ag' := by
  obtain ⟨runs, ag', h1, hlen, hrmap⟩ := @tryCarve_of_room sb base k hf ht h.1 ag
  refine ⟨runs, ag', (tryCarve_placed hf ht hsame h1).same, fun tries => ?_⟩
  have hmerge : mergedRmap ag'.rmap = .ok (merged (rmapAfter sb base k)) :=
    mergedRmap_eq_ok.mpr ⟨hrmap ▸ h.2, hrmap ▸ rfl⟩
  rw [settle, bind_of_ok h1]
  simp only [get_bind_apply]
  have hneed : agNeed sb (agCarved sb base k).2.length (merged (rmapAfter sb base k)).length =
      needAfter sb base k := rfl
  rw [bind_of_ok (liftE_eq_ok.mpr ⟨hmerge, rfl⟩), hlen, hneed]
  split <;> rfl

/-- How the loop ends: at a size that is its own need, at one there is no room for, at one whose
mappings do not add up, or with the tries used up. -/
theorem settle_outcome (hf : FreeOk base.free) (ht : base.freeTotal = base.free.values.sum) :
    ∀ {tries x : Nat} {ag : Ag}, SameButSpace base ag →
    (∃ i < tries, (∀ m ≤ i, Carvable sb base ((needAfter sb base)^[m] x)) ∧
      needAfter sb base ((needAfter sb base)^[i] x) = (needAfter sb base)^[i] x ∧
      ∃ runs ag', settle sb base (inoNeed sb base.chunks) tries x ag = .ok runs ag') ∨
    (∃ i < tries, (∀ m < i, Carvable sb base ((needAfter sb base)^[m] x)) ∧
      ¬Carvable sb base ((needAfter sb base)^[i] x) ∧
      ∃ e s, settle sb base (inoNeed sb base.chunks) tries x ag = .error e s ∧
        (e.isNoSpace = true ↔
          base.freeTotal < inoNeed sb base.chunks + (needAfter sb base)^[i] x)) ∨
    (∀ m < tries, Carvable sb base ((needAfter sb base)^[m] x) ∧
      needAfter sb base ((needAfter sb base)^[m] x) ≠ (needAfter sb base)^[m] x) ∧
      ∃ s, settle sb base (inoNeed sb base.chunks) tries x ag = .error (notSettled base.agno) s := by
  intro tries
  induction tries with
  | zero =>
      intro x ag hsame
      refine Or.inr (Or.inr ⟨fun m hm => absurd hm (Nat.not_lt_zero m), ag, ?_⟩)
      have hagno : ag.agno = base.agno := by rw [hsame]
      simp only [settle, get_bind_apply, throw_apply, hagno]
      rfl
  | succ tries ih =>
      intro x ag hsame
      by_cases hx : Carvable sb base x
      · obtain ⟨runs, ag', hsame', hturn⟩ := settle_turn hf ht hx hsame
        by_cases hown : needAfter sb base x = x
        · refine Or.inl ⟨0, Nat.succ_pos _, fun m hm => ?_, hown, runs, ag', ?_⟩
          · obtain rfl := Nat.le_zero.mp hm
            exact hx
          · rw [hturn, if_pos hown]
        rw [hturn, if_neg hown]
        have hall : ∀ {n}, (∀ m < n, Carvable sb base ((needAfter sb base)^[m] (needAfter sb base x))) →
            ∀ m < n + 1, Carvable sb base ((needAfter sb base)^[m] x) := fun hn m hm => by
          cases m with
          | zero => exact hx
          | succ m => exact hn m (Nat.succ_lt_succ_iff.mp hm)
        rcases @ih (needAfter sb base x) ag' hsame' with ⟨i, hi, hgo, hfix, hrun⟩ | ⟨i, hi, hgo, hno, hrun⟩ |
          ⟨hgo, hrun⟩
        · exact Or.inl ⟨i + 1, Nat.succ_lt_succ hi, fun m hm => hall
            (fun m hm => hgo m (Nat.lt_succ_iff.mp hm)) m (Nat.lt_succ_of_le hm), hfix, hrun⟩
        · exact Or.inr (Or.inl ⟨i + 1, Nat.succ_lt_succ hi, hall hgo, hno, hrun⟩)
        · refine Or.inr (Or.inr ⟨fun m hm => ⟨hall (fun m hm => (hgo m hm).1) m hm, ?_⟩, hrun⟩)
          cases m with
          | zero => exact hown
          | succ m => exact (hgo m (Nat.succ_lt_succ_iff.mp hm)).2
      · refine Or.inr (Or.inl ⟨0, Nat.succ_pos _, fun m hm => absurd hm (Nat.not_lt_zero m), hx, ?_⟩)
        rw [Function.iterate_zero, id]
        by_cases hroom : inoNeed sb base.chunks + x ≤ base.freeTotal
        · -- The mappings' ends do not fit.
          obtain ⟨runs, ag', h1, -, hrmap⟩ := @tryCarve_of_room sb base x hf ht hroom ag
          obtain ⟨e, hmerge⟩ : ∃ e, mergedRmap ag'.rmap = .error e := by
            cases hm : mergedRmap ag'.rmap with
            | error e => exact ⟨e, rfl⟩
            | ok rs => exact absurd ⟨hroom, hrmap ▸ (mergedRmap_eq_ok.mp hm).1⟩ hx
          obtain ⟨-, rfl⟩ := mergedRmap_eq_error hmerge
          refine ⟨.panic "attempt to add with overflow", ag', ?_,
            iff_of_false Bool.false_ne_true (not_lt.mpr hroom)⟩
          rw [settle, bind_of_ok h1]
          simp only [get_bind_apply]
          rw [bind_of_error (liftE_eq_error.mpr ⟨hmerge, rfl⟩)]
        · obtain ⟨e, s, h1, he⟩ := @tryCarve_of_short sb base x hf ht (not_le.mp hroom) ag
          exact ⟨e, s, by rw [settle, bind_of_error h1], iff_of_true he (not_le.mp hroom)⟩

end

end FioXfs.Alloc
