import FioXfs.Alloc.ReadBack
import FioXfs.Lib.Layers
set_option autoImplicit false

/-!
# AG B+trees as search trees

What `build_ag` lays out is one tree of even depth, told from its blocks alone: each level is linked
in order, each entry of a node has the keys of what is under its child, and no block but the root is
less than half full.
-/

namespace FioXfs.Btree

open FioXfs.Lib FioXfs.Alloc

/-! ## A search tree in blocks -/

/-- A block of a tree with its address, and the records under it. -/
abbrev TreeBlock : Type := Item Below Bytes Rec

/-- A leaf holds the records under it, in order. -/
structure Leaf (spec : AgSpec) (bs : Nat) (x : TreeBlock) : Prop where
  count : be16 x.block 6 = x.under.length
  fits : x.under.length ≤ spec.leafMax bs
  recs : ∀ i (hi : i < x.under.length),
    slice x.block (SHORT_HDR + i * spec.recLen) spec.recLen = x.under[i].data

/-- A node has an entry for each of its children: the low key of the first record under it, in an
overlapping tree the highest high key of a record under it, and its address. -/
structure Interior (spec : AgSpec) (bs : Nat) (x : TreeBlock) (children : List TreeBlock) : Prop where
  under : x.under = children.flatMap (·.under)
  count : be16 x.block 6 = children.length
  fits : children.length ≤ spec.nodeMax bs
  low : ∀ i (hi : i < children.length), ∃ r rest, children[i].under = r :: rest ∧
    slice x.block (SHORT_HDR + i * (spec.keyLen * spec.slots)) spec.keyLen = r.low
  high : spec.overlapping = true → ∀ i (hi : i < children.length), ∃ r ∈ children[i].under,
    slice x.block (SHORT_HDR + i * (spec.keyLen * spec.slots) + spec.keyLen) spec.keyLen = r.high ∧
      ∀ r' ∈ children[i].under, spec.cmp r'.high r.high ≠ .gt
  child : ∀ i (hi : i < children.length), be32 x.block (spec.ptrsAt bs + i * 4) = children[i].seen.block

/-- The blocks of a level name their siblings, and say what tree and level they are of. -/
structure Linked (spec : AgSpec) (level : Nat) (xs : List TreeBlock) : Prop where
  chained : Chained NULL_AGBLOCK (fun x => be32 x.block 8) (fun x => be32 x.block 12)
    (fun x => x.seen.block) NULL_AGBLOCK xs
  magic : ∀ x ∈ xs, be32 x.block 0 = spec.magic
  height : ∀ x ∈ xs, be16 x.block 4 = level % 256 ^ 2

/-- Levels one over the other, from `lo`, whose blocks hold at most `max`, up to a single root: every
block below it is at least half full, and is a child of exactly one block of the next level. -/
def Rises (spec : AgSpec) (bs : Nat) : Nat → Nat → List TreeBlock → List (List TreeBlock) → Prop
  | _, _, lo, [] => lo.length = 1
  | level, max, lo, hi :: his =>
      (∀ x ∈ lo, max / 2 ≤ be16 x.block 6) ∧
      (∃ parts, parts.flatten = lo ∧ List.Forall₂ (Interior spec bs) hi parts) ∧
      Linked spec (level + 1) hi ∧ Rises spec bs (level + 1) (spec.nodeMax bs) hi his

/-- The blocks of a tree, taken by level from the leaves up, are a search tree over its records in
the addresses given. -/
structure SearchTree (spec : AgSpec) (bs : Nat) (recs : List Rec) (agbnos : List Nat) (t : Built)
    (leaves : List TreeBlock) (his : List (List TreeBlock)) : Prop where
  blocks : t.blocks = (leaves :: his).flatten.map fun x => (x.seen.block, x.block)
  addrs : t.blocks.map (·.1) = agbnos
  depth : t.levels = his.length + 1
  root : (his.getLastD leaves).map (·.seen.block) = [t.root]
  records : leaves.flatMap (·.under) = recs
  leaf : ∀ x ∈ leaves, Leaf spec bs x
  linked : Linked spec 0 leaves
  rises : Rises spec bs 0 (spec.leafMax bs) leaves his

/-! ## Keys -/

/-- The keys a level above sees of a block are those of the records under it. -/
structure KeysOf (spec : AgSpec) (seen : Below) (under : List Rec) : Prop where
  low : ∃ r rest, under = r :: rest ∧ seen.low = r.low
  high : spec.overlapping = true → ∃ r ∈ under, seen.high = r.high ∧
    ∀ r' ∈ under, spec.cmp r'.high r.high ≠ .gt

/-- A key by which the keys of an overlapping tree are in order. -/
def Ranked (spec : AgSpec) : Prop :=
  spec.overlapping = true → ∃ rank : Bytes → ℕ ×ₗ ℕ ×ₗ ℕ, ∀ a b, spec.cmp a b = .gt ↔ rank b < rank a

/-- Where a reverse-mapping key stands. -/
def rmapRank (key : Bytes) : ℕ ×ₗ ℕ ×ₗ ℕ :=
  toLex (be32 key 0, toLex (be64 key 4, be64 key 12 % OFF_LIMIT))

theorem rmapKeyCmp_eq_gt (a b : Bytes) : rmapKeyCmp a b = .gt ↔ rmapRank b < rmapRank a := by
  rw [rmapKeyCmp, rmapRank, rmapRank, Ordering.then_eq_gt, Ordering.then_eq_gt, Nat.compare_eq_gt,
    Nat.compare_eq_gt, Nat.compare_eq_gt, Nat.compare_eq_eq, Nat.compare_eq_eq,
    Prod.Lex.toLex_lt_toLex, Prod.Lex.toLex_lt_toLex, @eq_comm _ (be32 a 0), @eq_comm _ (be64 a 4)]

theorem ranked_of_mem {spec : AgSpec} (h : spec ∈ [BNO, CNT, RMAP, INOBT, FINOBT]) : Ranked spec := by
  simp only [List.mem_cons, List.not_mem_nil, or_false] at h
  rcases h with rfl | rfl | rfl | rfl | rfl <;> intro hov
  · cases hov
  · cases hov
  · exact ⟨rmapRank, rmapKeyCmp_eq_gt⟩
  · cases hov
  · cases hov

section
variable {spec : AgSpec}

/-- The highest of high keys is one of them, and no other is higher. -/
theorem highest_foldl {rank : Bytes → ℕ ×ₗ ℕ ×ₗ ℕ}
    (hrank : ∀ a b, spec.cmp a b = .gt ↔ rank b < rank a) (best : Bytes) (es : List (Bytes × Bytes)) :
    ((es.foldl (fun best e => if spec.cmp e.2 best == .gt then e.2 else best) best) ∈
        best :: es.map Prod.snd) ∧
      ∀ k ∈ best :: es.map Prod.snd,
        rank k ≤ rank (es.foldl (fun best e => if spec.cmp e.2 best == .gt then e.2 else best) best) := by
  induction es generalizing best with
  | nil => exact ⟨List.mem_cons_self, fun k hk => by rw [List.mem_singleton.mp hk]; rfl⟩
  | cons e es ih =>
    rw [List.foldl_cons, List.map_cons]
    by_cases hgt : spec.cmp e.2 best = .gt
    · rw [if_pos (beq_iff_eq.mpr hgt)]
      obtain ⟨hmem, hle⟩ := ih e.2
      refine ⟨List.mem_cons_of_mem _ hmem, List.forall_mem_cons.mpr ⟨?_, hle⟩⟩
      exact ((hrank _ _).mp hgt).le.trans (hle _ List.mem_cons_self)
    · rw [if_neg (mt beq_iff_eq.mp hgt)]
      obtain ⟨hmem, hle⟩ := ih best
      have hbest := hle _ List.mem_cons_self
      refine ⟨?_, List.forall_mem_cons.mpr ⟨hbest, List.forall_mem_cons.mpr ⟨?_, ?_⟩⟩⟩
      · rcases List.mem_cons.mp hmem with heq | hin
        · rw [heq]
          exact List.mem_cons_self
        · exact List.mem_cons_of_mem _ (List.mem_cons_of_mem _ hin)
      · exact (not_lt.mp (mt (hrank _ _).mpr hgt)).trans hbest
      · exact fun k hk => hle k (List.mem_cons_of_mem _ hk)

/-- The keys of entries, each with the keys of the records under it, are those of all the records. -/
theorem keysOf_flatMap {α : Type} (hspec : Ranked spec) {p : List α} {keys : α → Bytes × Bytes}
    {under : α → List Rec} {block : Nat} (hp : p ≠ [])
    (h : ∀ x ∈ p, KeysOf spec ⟨(keys x).1, (keys x).2, block⟩ (under x)) :
    KeysOf spec ⟨(keysOf spec (p.map keys)).1, (keysOf spec (p.map keys)).2, block⟩ (p.flatMap under) := by
  obtain ⟨x, xs, rfl⟩ := List.exists_cons_of_ne_nil hp
  refine ⟨?_, fun hov => ?_⟩
  · obtain ⟨r, rest, hunder, hlow⟩ := (h x List.mem_cons_self).low
    exact ⟨r, rest ++ xs.flatMap under, by rw [List.flatMap_cons, hunder, List.cons_append], hlow⟩
  · obtain ⟨rank, hrank⟩ := hspec hov
    obtain ⟨hmem, hle⟩ := highest_foldl hrank (keys x).2 (xs.map keys)
    have hkeys : (keys x).2 :: (xs.map keys).map Prod.snd = (x :: xs).map fun y => (keys y).2 := by
      simp
    rw [hkeys] at hmem hle
    obtain ⟨y, hy, hyk⟩ := List.mem_map.mp hmem
    obtain ⟨r, hr, hhigh, hmax⟩ := (h y hy).high hov
    refine ⟨r, List.mem_flatMap.mpr ⟨y, hy, hr⟩, hyk.symm.trans hhigh, fun r' hr' => ?_⟩
    obtain ⟨z, hz, hr'⟩ := List.mem_flatMap.mp hr'
    obtain ⟨q, hq, hzhigh, hzmax⟩ := (h z hz).high hov
    have h1 : rank r'.high ≤ rank q.high := not_lt.mp (mt (hrank _ _).mpr (hzmax r' hr'))
    have h2 := hle _ (List.mem_map_of_mem hz)
    rw [← hyk] at h2
    have h3 : rank r'.high ≤ rank r.high := by
      rw [← hzhigh] at h1
      rw [← hhigh]
      exact h1.trans h2
    exact fun hgt => absurd ((hrank _ _).mp hgt) (not_lt.mpr h3)

/-! ## One level -/

variable {sb : Superblock} {agno : Nat}

theorem height_agHeader (h : Layout sb spec) (level take left right addr : Nat) :
    be16 (agHeader sb agno spec level take left right addr) 4 = level % 256 ^ 2 := by
  rw [agHeader_eq]
  exact (congrArg beNat (slice_patch [_] (fits_agHeader h) (length_toBe _ _) (by simp [Clear]))).trans
    (beNat_toBe_mod _ _)

/-- Blocks with their headers filled in, in addresses that fit, are linked. -/
theorem linked_linkLevel {ι : Type} (h : Layout sb spec) {mk : Nat → Nat → Nat → ι → TreeBlock}
    {level : Nat} {take : ι → Nat} {as all : List Nat} {ps : List ι} (hall : as ⊆ all)
    (haddr : ∀ a ∈ all, a < 2 ^ 32) (hlen : as.length = ps.length)
    (hseen : ∀ l r a p, (mk l r a p).seen.block = a)
    (hhead : ∀ l r a, ∀ p ∈ ps, ∀ w o, o + w ≤ 52 → getBe w (mk l r a p).block o =
      getBe w (agHeader sb agno spec level (take p) l r a) o) :
    Linked spec level (linkLevel NULL_AGBLOCK mk NULL_AGBLOCK as ps) := by
  have hfit : ∀ l, l = NULL_AGBLOCK ∨ l ∈ all → l < 256 ^ 4 := by
    rintro l (rfl | hl)
    · decide
    · exact haddr l hl
  refine ⟨?_, fun x hx => ?_, fun x hx => ?_⟩
  · refine @chained_linkLevel _ _ _ NULL_AGBLOCK mk _ _ (fun x => x.seen.block) all hseen as ps _ hlen
      hall (Or.inl rfl) fun l r a p hp hl hr => ⟨?_, ?_⟩
    · exact (hhead l r a p hp 4 8 (by omega)).trans (left_agHeader h (hfit l hl))
    · exact (hhead l r a p hp 4 12 (by omega)).trans (right_agHeader h (hfit r hr))
  · obtain ⟨l, r, a, p, hap, rfl⟩ := mem_linkLevel hx
    exact (hhead l r a p (List.of_mem_zip hap).2 4 0 (by omega)).trans (magic_agHeader h)
  · obtain ⟨l, r, a, p, hap, rfl⟩ := mem_linkLevel hx
    exact (hhead l r a p (List.of_mem_zip hap).2 2 4 (by omega)).trans (height_agHeader h ..)

theorem leaf_leafItem {l r a : Nat} {p : List Rec} (h : Layout sb spec) (hrec : ∀ x ∈ p, RecOk spec x)
    (hmax : p.length ≤ spec.leafMax sb.blockSize) :
    Leaf spec sb.blockSize (leafItem (agLeaf sb agno spec) l r a p) := by
  obtain ⟨-, -, hhead, hslot⟩ :=
    @agLeaf_block sb agno spec l r a p h (fun x hx => (hrec x hx).1) hmax
  exact ⟨(hhead 2 6 (by omega)).trans (take_agHeader h (lt_of_le_of_lt hmax h.leafMax_lt)), hmax, hslot⟩

theorem keysOf_leafItem {l r a : Nat} {p : List Rec} (hspec : Ranked spec) (hp : p ≠ []) :
    KeysOf spec (leafItem (agLeaf sb agno spec) l r a p).seen p := by
  have hone : ∀ x ∈ p, KeysOf spec ⟨x.low, x.high, a⟩ [x] := fun x _ =>
    ⟨⟨x, [], rfl, rfl⟩, fun hov => ⟨x, List.mem_cons_self, rfl, fun y hy => ?_⟩⟩
  · have hall := @keysOf_flatMap spec _ hspec p (fun x => (x.low, x.high)) (fun x => [x]) a hp hone
    rwa [List.flatMap_singleton'] at hall
  · obtain ⟨rank, hrank⟩ := hspec hov
    rw [List.mem_singleton.mp hy]
    exact fun hgt => absurd ((hrank _ _).mp hgt) (lt_irrefl _)

/-- The low key of a slot, and the high key after it. -/
theorem slice_keySlot {b : Bytes} {o : Nat} {e : Below} (he : EntryOk spec e)
    (hs : slice b o (spec.keyLen * spec.slots) = keySlot spec e) :
    slice b o spec.keyLen = e.low ∧
      (spec.overlapping = true → slice b (o + spec.keyLen) spec.keyLen = e.high) := by
  obtain ⟨hlow, hhigh, -⟩ := he
  unfold keySlot AgSpec.slots at hs
  cases hov : spec.overlapping with
  | false =>
    rw [hov, if_neg (by simp), if_neg (by simp), Nat.mul_one] at hs
    exact ⟨hs, fun h => by cases h⟩
  | true =>
    rw [hov, if_pos rfl, if_pos rfl] at hs
    have h1 := @slice_slice _ b o (spec.keyLen * 2) 0 spec.keyLen (by omega)
    have h2 := @slice_slice _ b o (spec.keyLen * 2) spec.keyLen spec.keyLen (by omega)
    rw [hs] at h1 h2
    have hfirst : slice (e.low ++ e.high) 0 e.low.length = e.low := by
      rw [slice_append_left (by omega), slice_zero_length]
    have hsecond : slice (e.low ++ e.high) (e.low.length + 0) e.high.length = e.high := by
      rw [slice_append_right, slice_zero_length]
    rw [hlow] at hfirst hsecond
    rw [hhigh, Nat.add_zero] at hsecond
    exact ⟨h1.symm.trans hfirst, fun _ => h2.symm.trans hsecond⟩

/-- A node over children whose keys are those of what is under them. -/
theorem interior_nodeItem {level l r a : Nat} {p : List TreeBlock} (h : Layout sb spec)
    (hentry : ∀ x ∈ p, EntryOk spec x.seen) (hkeys : ∀ x ∈ p, KeysOf spec x.seen x.under)
    (hmax : p.length ≤ spec.nodeMax sb.blockSize) :
    Interior spec sb.blockSize (nodeItem (agNode sb agno spec level) l r a p) p := by
  have hlen : (p.map (·.seen)).length = p.length := List.length_map _
  have hslots : ∀ e ∈ p.map (·.seen), (keySlot spec e).length = spec.keyLen * spec.slots := by
    intro e he
    obtain ⟨x, hx, rfl⟩ := List.mem_map.mp he
    exact length_keySlot (hentry x hx)
  obtain ⟨-, -, hhead, hkey, hptr⟩ :=
    @agNode_block sb agno spec level l r a (p.map (·.seen)) h hslots (hlen ▸ hmax)
  have hslot : ∀ i (hi : i < p.length),
      slice (nodeItem (agNode sb agno spec level) l r a p).block
        (SHORT_HDR + i * (spec.keyLen * spec.slots)) (spec.keyLen * spec.slots) =
          keySlot spec p[i].seen := by
    intro i hi
    have := hkey i (hlen ▸ hi)
    rwa [List.getElem_map] at this
  refine ⟨rfl, ?_, hmax, fun i hi => ?_, fun hov i hi => ?_, fun i hi => ?_⟩
  · refine (hhead 2 6 (by omega)).trans ?_
    rw [hlen]
    exact take_agHeader h (lt_of_le_of_lt hmax h.nodeMax_lt)
  · obtain ⟨hlow, -⟩ := slice_keySlot (hentry _ (List.getElem_mem hi)) (hslot i hi)
    obtain ⟨x, rest, hunder, hfirst⟩ := (hkeys _ (List.getElem_mem hi)).low
    exact ⟨x, rest, hunder, hlow.trans hfirst⟩
  · obtain ⟨-, hhigh⟩ := slice_keySlot (hentry _ (List.getElem_mem hi)) (hslot i hi)
    obtain ⟨x, hx, hbest, hall⟩ := (hkeys _ (List.getElem_mem hi)).high hov
    exact ⟨x, hx, (hhigh hov).trans hbest, hall⟩
  · have := hptr i (hlen ▸ hi)
    rw [List.getElem_map] at this
    exact (congrArg beNat this).trans (beNat_toBe (hentry _ (List.getElem_mem hi)).2.2)

theorem keysOf_nodeItem {level l r a : Nat} {p : List TreeBlock} (hspec : Ranked spec) (hp : p ≠ [])
    (hkeys : ∀ x ∈ p, KeysOf spec x.seen x.under) :
    KeysOf spec (nodeItem (agNode sb agno spec level) l r a p).seen (p.flatMap (·.under)) := by
  have hall := @keysOf_flatMap spec _ hspec p (fun x => (x.seen.low, x.seen.high)) (·.under) a hp
    fun x hx => ⟨(hkeys x hx).low, (hkeys x hx).high⟩
  have hmap : (p.map (·.seen)).map (fun e => (e.low, e.high)) =
      p.map fun x => (x.seen.low, x.seen.high) := List.map_map ..
  rw [← hmap] at hall
  exact hall

/-! ## The whole tree -/

/-- What the level above a level relies on. -/
structure LevelOk (spec : AgSpec) (max : Nat) (xs : List TreeBlock) : Prop where
  nonempty : 0 < xs.length
  entries : ∀ x ∈ xs, EntryOk spec x.seen
  keys : 1 < xs.length → ∀ x ∈ xs, KeysOf spec x.seen x.under
  half : 1 < xs.length → ∀ x ∈ xs, max / 2 ≤ be16 x.block 6

/-- What a level's parts are like. -/
theorem parts_of_level {lo part : List TreeBlock} {cap k : Nat} (hcap : 2 ≤ cap) (hmore : 1 < lo.length)
    (hk : k = divCeil lo.length cap) (hp : part ∈ (spread lo.length k).splitLengths lo) :
    part ≠ [] ∧ part.length ≤ cap ∧ (∀ x ∈ part, x ∈ lo) ∧ (1 < k → cap / 2 ≤ part.length) := by
  subst hk
  have hpos : 0 < divCeil lo.length cap := divCeil_pos (by omega) (by omega)
  have hlen := length_mem_spread hpos hp
  refine ⟨?_, length_le_of_mem_splitLengths_spread (le_divCeil_mul (by omega)) hp,
    fun x hx => mem_of_mem_splitLengths hp hx, fun h => half_le_of_mem_spread (by omega) h hlen⟩
  rintro rfl
  obtain ⟨i, -, hi⟩ := List.mem_map.mp hlen
  have hle : 1 ≤ lo.length / divCeil lo.length cap :=
    Nat.div_pos (divCeil_lt hcap hmore).le hpos
  simp only [List.length_nil] at hi
  omega

/-- The level over a level that is not the root. -/
theorem LevelOk.next {max level : Nat} {as all : List Nat} {lo : List TreeBlock} (h : Layout sb spec)
    (hspec : Ranked spec) (hnode : 2 ≤ spec.nodeMax sb.blockSize) (hlo : LevelOk spec max lo)
    (haddr : ∀ a ∈ all, a < 2 ^ 32) (hmore : 1 < lo.length)
    (has : as.length = divCeil lo.length (spec.nodeMax sb.blockSize)) (hall : as ⊆ all) :
    LevelOk spec (spec.nodeMax sb.blockSize)
        (layerOver NULL_AGBLOCK (agNode sb agno spec level) as lo) ∧
      (∃ parts, parts.flatten = lo ∧ List.Forall₂ (Interior spec sb.blockSize)
        (layerOver NULL_AGBLOCK (agNode sb agno spec level) as lo) parts) ∧
      Linked spec level (layerOver NULL_AGBLOCK (agNode sb agno spec level) as lo) := by
  have hpos : 0 < as.length := has ▸ divCeil_pos (by omega) (by omega)
  have hparts := fun part => @parts_of_level lo part (spec.nodeMax sb.blockSize) as.length hnode hmore has
  have hlen : as.length = ((spread lo.length as.length).splitLengths lo).length := by
    rw [List.length_splitLengths, length_spread]
  have hkeys := hlo.keys hmore
  have hinterior : ∀ l r a, ∀ p ∈ (spread lo.length as.length).splitLengths lo,
      Interior spec sb.blockSize (nodeItem (agNode sb agno spec level) l r a p) p := by
    intro l r a p hp
    obtain ⟨-, hmax, hin, -⟩ := hparts p hp
    exact interior_nodeItem h (fun x hx => hlo.entries x (hin x hx)) (fun x hx => hkeys x (hin x hx)) hmax
  refine ⟨⟨?_, fun x hx => ?_, fun _ x hx => ?_, fun hroot x hx => ?_⟩,
    ⟨_, flatten_splitLengths_spread lo hpos, ?_⟩, ?_⟩
  · rw [length_layerOver]
    exact hpos
  · obtain ⟨l, r, a, p, hap, rfl⟩ := mem_linkLevel hx
    obtain ⟨ha, hp⟩ := List.of_mem_zip hap
    refine @entryOk_node sb agno spec level l r a (p.map (·.seen)) (haddr a (hall ha)) fun e he => ?_
    obtain ⟨y, hy, rfl⟩ := List.mem_map.mp he
    exact hlo.entries y ((hparts p hp).2.2.1 y hy)
  · obtain ⟨l, r, a, p, hap, rfl⟩ := mem_linkLevel hx
    obtain ⟨hne, -, hin, -⟩ := hparts p (List.of_mem_zip hap).2
    exact keysOf_nodeItem hspec hne fun y hy => hkeys y (hin y hy)
  · obtain ⟨l, r, a, p, hap, rfl⟩ := mem_linkLevel hx
    have hp := (List.of_mem_zip hap).2
    rw [length_layerOver] at hroot
    rw [(hinterior l r a p hp).count]
    exact (hparts p hp).2.2.2 hroot
  · exact forall₂_linkLevel_parts hlen fun l r a p hp _ => hinterior l r a p hp
  · refine @linked_linkLevel spec sb agno _ h _ _ (fun p => (p.map (·.seen)).length) as all _ hall haddr hlen
      (fun _ _ _ _ => rfl) fun l r a p hp => ?_
    obtain ⟨-, hmax, hin, -⟩ := hparts p hp
    have hslots : ∀ e ∈ p.map (·.seen), (keySlot spec e).length = spec.keyLen * spec.slots := by
      intro e he
      obtain ⟨x, hx, rfl⟩ := List.mem_map.mp he
      exact length_keySlot (hlo.entries x (hin x hx))
    exact (agNode_block h hslots (by rwa [List.length_map])).2.2.1

/-- The layers over a level rise to a root. -/
theorem rises_of_layers {max level : Nat} {all : List Nat} {lo : List TreeBlock}
    {his : List (List TreeBlock)} (h : Layout sb spec) (hspec : Ranked spec)
    (hnode : 2 ≤ spec.nodeMax sb.blockSize) (haddr : ∀ a ∈ all, a < 2 ^ 32)
    (hlayers : Layers NULL_AGBLOCK (agNode sb agno spec) (spec.nodeMax sb.blockSize) all (level + 1)
      lo his)
    (hlo : LevelOk spec max lo) : Rises spec sb.blockSize level max lo his := by
  generalize hl : level + 1 = above at hlayers
  induction hlayers generalizing level max with
  | top hle =>
    have := hlo.nonempty
    exact le_antisymm hle this
  | layer hmore has hall hrest ih =>
    subst hl
    obtain ⟨hok, hparts, hlinked⟩ := hlo.next h hspec hnode haddr hmore has hall
    exact ⟨hlo.half hmore, hparts, hlinked, ih hok rfl⟩

/-- The leaves of a tree. -/
theorem LevelOk.leaves {as all : List Nat} {recs : List Rec} {leaves : Nat} (h : Layout sb spec)
    (hspec : Ranked spec) (hmax : 0 < spec.leafMax sb.blockSize) (hrec : ∀ r ∈ recs, RecOk spec r)
    (haddr : ∀ a ∈ all, a < 2 ^ 32) (hall : as ⊆ all) (has : as.length = leaves)
    (hleaves : leaves = max (divCeil recs.length (spec.leafMax sb.blockSize)) 1)
    {bottom : List TreeBlock} (hbottom : bottom = linkLevel NULL_AGBLOCK
      (leafItem (agLeaf sb agno spec)) NULL_AGBLOCK as ((spread recs.length leaves).splitLengths recs)) :
    LevelOk spec (spec.leafMax sb.blockSize) bottom ∧ (∀ x ∈ bottom, Leaf spec sb.blockSize x) ∧
      Linked spec 0 bottom ∧ bottom.flatMap (·.under) = recs := by
  have hpos : 0 < leaves := by omega
  have henough : recs.length ≤ leaves * spec.leafMax sb.blockSize :=
    (divCeil_le_iff hmax).mp (by omega)
  have hlen : as.length = ((spread recs.length leaves).splitLengths recs).length := by
    rw [List.length_splitLengths, length_spread, has]
  have hfew : ∀ p ∈ (spread recs.length leaves).splitLengths recs,
      p.length ≤ spec.leafMax sb.blockSize := fun p hp =>
    length_le_of_mem_splitLengths_spread henough hp
  have hin : ∀ p ∈ (spread recs.length leaves).splitLengths recs, ∀ r ∈ p, RecOk spec r :=
    fun p hp r hr => hrec r (mem_of_mem_splitLengths hp hr)
  -- With more than one leaf, the leaves are as few as will do.
  have hhalf : 1 < leaves → ∀ p ∈ (spread recs.length leaves).splitLengths recs,
      p ≠ [] ∧ spec.leafMax sb.blockSize / 2 ≤ p.length := by
    intro hmore p hp
    have hexact : leaves = divCeil recs.length (spec.leafMax sb.blockSize) := by omega
    have hsize := length_mem_spread hpos hp
    refine ⟨?_, ?_⟩
    · rintro rfl
      obtain ⟨i, -, hi⟩ := List.mem_map.mp hsize
      have hle : leaves ≤ recs.length := by
        rw [hexact, divCeil_le_iff hmax]
        exact Nat.le_mul_of_pos_right _ hmax
      have := Nat.div_pos hle hpos
      simp only [List.length_nil] at hi
      omega
    · rw [hexact] at hsize hmore
      exact half_le_of_mem_spread hmax hmore hsize
  have hblen : bottom.length = leaves := by rw [hbottom, length_linkLevel hlen, has]
  have hleaf : ∀ x ∈ bottom, Leaf spec sb.blockSize x := by
    intro x hx
    obtain ⟨l, r, a, p, hap, rfl⟩ := mem_linkLevel (hbottom ▸ hx)
    have hp := (List.of_mem_zip hap).2
    exact leaf_leafItem h (hin p hp) (hfew p hp)
  refine ⟨⟨hblen ▸ hpos, fun x hx => ?_, fun hroot x hx => ?_, fun hroot x hx => ?_⟩, hleaf, ?_, ?_⟩
  · obtain ⟨l, r, a, p, hap, rfl⟩ := mem_linkLevel (hbottom ▸ hx)
    obtain ⟨ha, hp⟩ := List.of_mem_zip hap
    exact @entryOk_leaf sb agno spec l r a p (haddr a (hall ha)) (hin p hp)
  · obtain ⟨l, r, a, p, hap, rfl⟩ := mem_linkLevel (hbottom ▸ hx)
    exact keysOf_leafItem hspec (hhalf (hblen ▸ hroot) p (List.of_mem_zip hap).2).1
  · have hcount := (hleaf x hx).count
    obtain ⟨l, r, a, p, hap, rfl⟩ := mem_linkLevel (hbottom ▸ hx)
    rw [hcount]
    exact (hhalf (hblen ▸ hroot) p (List.of_mem_zip hap).2).2
  · rw [hbottom]
    refine @linked_linkLevel spec sb agno _ h _ _ List.length as all _ hall haddr hlen
      (fun _ _ _ _ => rfl) fun l r a p hp => ?_
    exact (agLeaf_block h (fun x hx => (hin p hp x hx).1) (hfew p hp)).2.2.1
  · have hunder : List.Forall₂ (fun (x : TreeBlock) p => x.under = p) bottom
        ((spread recs.length leaves).splitLengths recs) := by
      rw [hbottom]
      exact forall₂_linkLevel_parts hlen fun _ _ _ _ _ _ => rfl
    have hmap : bottom.map (·.under) = (spread recs.length leaves).splitLengths recs := by
      have := List.forall₂_map_left_iff.mpr hunder
      rwa [List.forall₂_eq_eq_eq] at this
    rw [List.flatMap_def, hmap, flatten_splitLengths_spread recs hpos]

end

/-- Over any records, `build_ag` builds, in as many blocks as the tree takes, a search tree: its
leaves hold the records in order, its levels are linked, its keys are those of the records under
them, and no block is too full or, but for the root, less than half full. -/
theorem search_tree_built {sector : Bytes} {sb : Superblock} (hsb : Superblock.parse sector = .ok sb)
    {spec : AgSpec} (hspec : spec ∈ [BNO, CNT, RMAP, INOBT, FINOBT]) (agno : Nat) {recs : List Rec}
    (hrec : ∀ r ∈ recs, RecOk spec r) {agbnos : List Nat} (haddr : ∀ a ∈ agbnos, a < 2 ^ 32)
    (hlen : agbnos.length = spec.blocks recs.length sb.blockSize) :
    ∃ t leaves his, buildAg sb agno spec recs agbnos = .ok t ∧
      SearchTree spec sb.blockSize recs agbnos t leaves his := by
  obtain ⟨h, hmax, hnode⟩ := layout_of_sound (Superblock.sound_of_parse hsb) hspec
  obtain ⟨leaves, ls, hleaves, hls, hsizes⟩ :=
    @levelSizes_eq recs.length (spec.leafMax sb.blockSize) _ hnode
  have hsum : agbnos.length = leaves + ls.sum := by
    rw [hlen, AgSpec.blocks, blocksFor, hsizes, List.sum_cons]
  obtain ⟨as, bottom, his, has, hall, hbottom, hlayers, hlevels, hblocks, htop⟩ :=
    @layers_buildTree _ _ _ _ NULL_AGBLOCK (agNode sb agno spec) Below.block
      (spec.nodeMax sb.blockSize) (agLeaf sb agno spec) leaves leaves ls agbnos recs hls hsum
  obtain ⟨hok, hleaf, hlinked, hunder⟩ :=
    LevelOk.leaves h (ranked_of_mem hspec) hmax hrec haddr hall has hleaves hbottom
  have haddrs := @addrs_buildTree Nat Below Bytes Rec NULL_AGBLOCK (agLeaf sb agno spec)
    (agNode sb agno spec) Below.block leaves ls agbnos recs (fun _ _ _ _ => rfl)
    (fun _ _ _ _ _ => rfl) hsum
  obtain ⟨hle, hne⟩ := @length_buildTree Nat Below Bytes Rec NULL_AGBLOCK (agLeaf sb agno spec)
    (agNode sb agno spec) Below.block leaves ls agbnos recs 1 (spec.nodeMax sb.blockSize) leaves
    (by omega) (by omega) hls hsum
  have hbuild : buildAg sb agno spec recs agbnos = .ok
      { blocks := (buildTree NULL_AGBLOCK (agLeaf sb agno spec) (agNode sb agno spec) Below.block leaves
          ls agbnos recs).2
        root := ((buildTree NULL_AGBLOCK (agLeaf sb agno spec) (agNode sb agno spec) Below.block leaves
          ls agbnos recs).1.map (·.block)).headD 0
        levels := (leaves :: ls).length
        rootEntries := [] } := by
    unfold buildAg
    rw [hsizes]
    simp only [List.sum_cons, List.headD_cons, List.tail_cons]
    exact except_throwIf_bind_of_not (not_not.mpr hsum.symm)
  generalize buildTree NULL_AGBLOCK (agLeaf sb agno spec) (agNode sb agno spec) Below.block leaves
    ls agbnos recs = tree at *
  refine ⟨_, bottom, his, hbuild, ?_⟩
  obtain ⟨e, he⟩ := List.length_eq_one_iff.mp (le_antisymm hle hne)
  refine ⟨hblocks, haddrs, by rw [List.length_cons, hlevels], ?_, hunder, hleaf, hlinked, ?_⟩
  · have hseen := congrArg (List.map Below.block) htop
    rw [List.map_map, he] at hseen
    rw [he]
    exact hseen.symm
  · exact rises_of_layers h (ranked_of_mem hspec) hnode haddr hlayers hok

/-- Twenty mappings take two leaves and a root. -/
theorem search_tree_twenty : ∃ t leaves his,
    buildAg (freshSb 16 true) 0 RMAP
      ((List.range 20).map fun i => Rmap.record ⟨i, OWN_AG, 0, 1⟩) [5, 6, 7] = .ok t ∧
    SearchTree RMAP 512 ((List.range 20).map fun i => Rmap.record ⟨i, OWN_AG, 0, 1⟩) [5, 6, 7] t leaves
      his := by
  refine search_tree_built parse_fresh (by simp) 0 (fun r hr => ?_) (by decide) (by decide)
  obtain ⟨i, -, rfl⟩ := List.mem_map.mp hr
  exact ⟨rfl, rfl, rfl⟩

end FioXfs.Btree
