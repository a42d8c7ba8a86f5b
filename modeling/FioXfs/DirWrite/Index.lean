import FioXfs.DirWrite.ReadBack
import FioXfs.Lib.Layers
import Mathlib.Data.List.Flatten
set_option autoImplicit false

/-!
# The hash index of a directory

The index is written for the kernel, and nothing here reads it.  In each form its entries are those
of the names, in order: at the end of a single block, in one leaf block, or in a tree of leaf and
node blocks told from the blocks alone.
-/

namespace FioXfs.DirWrite

open FioXfs.Lib FioXfs.Dir

/-! ## Leaf and node blocks -/

/-- A block of the index with what the level above sees of it, and the entries under it. -/
abbrev IndexBlock : Type := Item Below DirBlock (Nat × Nat)

/-- Entries that a leaf or node block holds at most. -/
def perBlock (dbs : Nat) : Nat := (dbs - HDR) / 8

/-- A leaf holds the entries under it in order, one at least. -/
structure IndexLeaf (dbs : Nat) (x : IndexBlock) : Prop where
  magic : be16 x.block.data 8 = LEAFN
  count : be16 x.block.data 56 = x.under.length
  some : 1 ≤ x.under.length
  fits : x.under.length ≤ perBlock dbs
  entries : IndexAt x.block.data HDR x.under

/-- A node has an entry for each of its children, one at least: the highest hash under the child, and
where it is. -/
structure IndexNode (dbs level : Nat) (x : IndexBlock) (children : List IndexBlock) : Prop where
  magic : be16 x.block.data 8 = NODE
  level : be16 x.block.data 58 = level
  count : be16 x.block.data 56 = children.length
  some : 1 ≤ children.length
  fits : children.length ≤ perBlock dbs
  under : x.under = children.flatMap (·.under)
  child : ∀ i (hi : i < children.length), ∃ e ∈ children[i].under,
    indexAt x.block.data HDR i = (e.1, children[i].block.lblk) ∧ ∀ e' ∈ children[i].under, e'.1 ≤ e.1

/-- The blocks of a level name their siblings, with `0` past the ends. -/
def Siblings (xs : List IndexBlock) : Prop :=
  Chained 0 (fun x => be32 x.block.data 4) (fun x => be32 x.block.data 0) (fun x => x.block.lblk) 0 xs

/-- Levels one over the other, from `lo`, up to a single root: every block below it is a child of
exactly one block of the next level. -/
def IndexRises (dbs : Nat) : Nat → List IndexBlock → List (List IndexBlock) → Prop
  | _, lo, [] => lo.length = 1
  | level, lo, hi :: his =>
      (∃ parts, parts.flatten = lo ∧ List.Forall₂ (IndexNode dbs level) hi parts) ∧ Siblings hi ∧
        IndexRises dbs (level + 1) hi his

section
variable {sb : Superblock} {ino dbs magic forw back addr : Nat} {more : List (Nat × Bytes)}
  {part : List (Nat × Nat)}

/-- What is written in the header of a leaf or node block. -/
def daFields (sb : Superblock) (ino magic forw back : Nat) (more : List (Nat × Bytes)) :
    List (Nat × Bytes) :=
  [(0, toBe 4 forw), (4, toBe 4 back), (8, toBe 2 magic), (32, sb.metaUuid), (48, toBe 8 ino)] ++ more

/-- A leaf or node block from its header and its entries. -/
def daBlock (sb : Superblock) (ino dbs magic forw back : Nat) (more : List (Nat × Bytes))
    (part : List (Nat × Nat)) : Bytes :=
  putIndex (patch (List.replicate dbs 0) (daFields sb ino magic forw back more)) HDR part

/-- A leaf or node block as it reads: its siblings, its magic number, what else is in its header, and
its entries. -/
theorem daBlock_reads (hs : sb.Sound) (hlen : HDR + part.length * 8 ≤ dbs)
    (hmore : ∀ f ∈ more, 56 ≤ f.1 ∧ f.1 + f.2.length ≤ HDR) (hmagic : magic < 2 ^ 16)
    (hpart : ∀ e ∈ part, EntryFits e) :
    (daBlock sb ino dbs magic forw back more part).length = dbs ∧
      (forw < 2 ^ 32 → be32 (daBlock sb ino dbs magic forw back more part) 0 = forw) ∧
      (back < 2 ^ 32 → be32 (daBlock sb ino dbs magic forw back more part) 4 = back) ∧
      be16 (daBlock sb ino dbs magic forw back more part) 8 = magic ∧
      IndexAt (daBlock sb ino dbs magic forw back more part) HDR part ∧
      ∀ i x o, more[i]? = some (o, toBe 2 x) → x < 2 ^ 16 → Clear o 2 (more.drop (i + 1)) →
        be16 (daBlock sb ino dbs magic forw back more part) o = x := by
  have huuid := hs.metaUuid_len
  have hfits : Fits (List.replicate dbs (0 : UInt8)).length (daFields sb ino magic forw back more) := by
    intro f hf
    rw [List.length_replicate]
    unfold HDR at hlen hmore
    rcases List.mem_append.mp hf with hf | hf
    · simp only [List.mem_cons, List.not_mem_nil, or_false] at hf
      rcases hf with rfl | rfl | rfl | rfl | rfl <;> simp only [length_toBe] <;> omega
    · have := hmore f hf
      omega
  have hplen := length_patch hfits
  rw [List.length_replicate] at hplen
  have hclear : ∀ {o n : Nat}, o + n ≤ 56 → Clear o n more := fun h f hf => Or.inl (by
    have := hmore f hf
    omega)
  have hhead : ∀ {o w : Nat}, o + w ≤ HDR → getBe w (daBlock sb ino dbs magic forw back more part) o =
      getBe w (patch (List.replicate dbs 0) (daFields sb ino magic forw back more)) o := fun h =>
    congrArg beNat (slice_putIndex (by rw [hplen]; exact hlen) (Or.inl h))
  have hget : ∀ {i o w v : Nat}, (daFields sb ino magic forw back more)[i]? = some (o, toBe w v) →
      v < 256 ^ w → o + w ≤ HDR → Clear o w ((daFields sb ino magic forw back more).drop (i + 1)) →
      getBe w (daBlock sb ino dbs magic forw back more part) o = v := fun hi hv ho hc =>
    (hhead ho).trans (getBe_patch_get hi hfits hv hc)
  have hfirst : ∀ {o n : Nat} {fs : List (Nat × Bytes)}, o + n ≤ 56 → Clear o n fs →
      Clear o n (fs ++ more) := fun ho hc f hf => by
    rcases List.mem_append.mp hf with hf | hf
    · exact hc f hf
    · exact hclear ho f hf
  refine ⟨(length_putIndex (by rw [hplen]; exact hlen)).trans hplen, fun hforw => ?_, fun hback => ?_, ?_,
    indexAt_putIndex hpart (by rw [hplen]; exact hlen), fun i x o hi hx hc => ?_⟩
  · refine @hget 0 0 4 forw rfl (hforw.trans_eq (by norm_num)) (by decide)
      (hfirst (by norm_num) ?_)
    simp [Clear]
  · refine @hget 1 4 4 back rfl (hback.trans_eq (by norm_num)) (by decide)
      (hfirst (by norm_num) ?_)
    simp [Clear]
  · refine @hget 2 8 2 magic rfl (hmagic.trans_eq (by norm_num)) (by decide)
      (hfirst (by norm_num) ?_)
    simp [Clear]
  · have hin := (hmore _ (List.mem_of_getElem? hi)).2
    rw [length_toBe] at hin
    have hat : (daFields sb ino magic forw back more)[5 + i]? = some (o, toBe 2 x) := by
      unfold daFields
      rw [List.getElem?_append_right (by simp)]
      simpa using hi
    refine hget hat (hx.trans_eq (by norm_num)) hin ?_
    have hdrop : (daFields sb ino magic forw back more).drop (5 + i + 1) = more.drop (i + 1) := by
      unfold daFields
      rw [List.drop_append, List.drop_eq_nil_of_le (by simp; omega), List.nil_append]
      congr 1
      simp
      omega
    rwa [hdrop]

end

/-! ## Levels of the tree -/

/-- What the level above sees of a block: the highest hash under it, and where it is. -/
structure Seen (x : IndexBlock) : Prop where
  place : x.seen.2 = x.block.lblk
  fits : EntryFits x.seen
  high : ∃ e ∈ x.under, x.seen.1 = e.1 ∧ ∀ e' ∈ x.under, e'.1 ≤ e.1

/-- By hash. -/
abbrev ByHash (ents : List (Nat × Nat)) : Prop := ents.Pairwise fun a b => a.1 ≤ b.1

/-- What a level relies on of the level below it. -/
structure IndexLevel (index : List (Nat × Nat)) (xs : List IndexBlock) : Prop where
  nonempty : 0 < xs.length
  under : xs.flatMap (·.under) = index
  seen : ∀ x ∈ xs, Seen x

section
variable {sb : Superblock} {ino dbs : Nat} {index part : List (Nat × Nat)} {all as : List Nat}

/-- The last of entries in order is the highest. -/
theorem high_last (hne : part ≠ []) (hsorted : ByHash part) :
    ∃ e ∈ part, highHash part = e.1 ∧ ∀ e' ∈ part, e'.1 ≤ e.1 := by
  obtain rfl | ⟨init, e, rfl⟩ := List.eq_nil_or_concat' part
  · exact absurd rfl hne
  · refine ⟨e, by simp, by simp [highHash], fun e' he' => ?_⟩
    rcases List.mem_append.mp he' with he' | he'
    · exact (List.pairwise_append.mp hsorted).2.2 e' he' e List.mem_cons_self
    · rw [List.mem_singleton.mp he']

/-- The last of blocks in order is over the highest. -/
theorem high_last_child {p : List IndexBlock} (hne : p ≠ []) (hsorted : ByHash (p.flatMap (·.under)))
    (hseen : ∀ x ∈ p, Seen x) : ∃ e ∈ p.flatMap (·.under), highHash (p.map (·.seen)) = e.1 ∧
      ∀ e' ∈ p.flatMap (·.under), e'.1 ≤ e.1 := by
  obtain rfl | ⟨init, x, rfl⟩ := List.eq_nil_or_concat' p
  · exact absurd rfl hne
  · obtain ⟨e, he, hhigh, hall⟩ := (hseen x (by simp)).high
    rw [List.flatMap_append, List.flatMap_singleton] at hsorted ⊢
    refine ⟨e, List.mem_append_right _ he, by simpa [highHash] using hhigh, fun e' he' => ?_⟩
    rcases List.mem_append.mp he' with he' | he'
    · exact (List.pairwise_append.mp hsorted).2.2 e' he' e he
    · exact hall e' he'

theorem perBlock_le (hdbs : DirBlockSize dbs) {n : Nat} (h : n ≤ perBlock dbs) :
    HDR + n * 8 ≤ dbs ∧ n < 2 ^ 16 := by
  have hge := hdbs.ge
  have hle := hdbs.le
  unfold perBlock HDR at *
  omega

/-- The neighbours a block names. -/
def Names (x : IndexBlock) (l r : Nat) : Prop :=
  (l < 2 ^ 32 → be32 x.block.data 4 = l) ∧ (r < 2 ^ 32 → be32 x.block.data 0 = r)

theorem indexLeaf_leafItem (hs : sb.Sound) (hdbs : DirBlockSize dbs) (hne : part ≠ [])
    (hpart : ∀ e ∈ part, EntryFits e) (hfew : part.length ≤ perBlock dbs) (l r a : Nat) :
    IndexLeaf dbs (leafItem (leafBlock sb ino dbs) l r a part) ∧
      Names (leafItem (leafBlock sb ino dbs) l r a part) l r ∧
      (leafItem (leafBlock sb ino dbs) l r a part).block.data.length = dbs := by
  obtain ⟨hroom, hcount⟩ := perBlock_le hdbs hfew
  obtain ⟨hlen, hforw, hback, hmagic, hents, hword⟩ := @daBlock_reads sb ino dbs LEAFN r l
    [(56, toBe 2 part.length)] part hs hroom (by simp [HDR]) (by decide) hpart
  exact ⟨⟨hmagic, hword 0 _ _ rfl hcount (by simp [Clear]), List.length_pos_iff.mpr hne, hfew, hents⟩,
    ⟨hback, hforw⟩, hlen⟩

theorem seen_leafItem {l r a : Nat} (hne : part ≠ []) (hsorted : ByHash part) (ha : a < 2 ^ 32)
    (hpart : ∀ e ∈ part, EntryFits e) : Seen (leafItem (leafBlock sb ino dbs) l r a part) := by
  obtain ⟨e, he, hhigh, hall⟩ := high_last hne hsorted
  exact ⟨rfl, ⟨hhigh.trans_lt (hpart e he).1, ha⟩, e, he, hhigh, hall⟩

theorem indexNode_nodeItem {level : Nat} {p : List IndexBlock} (hs : sb.Sound)
    (hdbs : DirBlockSize dbs) (hlevel : level < 2 ^ 16) (hne : p ≠ []) (hseen : ∀ x ∈ p, Seen x)
    (hfew : p.length ≤ perBlock dbs) (l r a : Nat) :
    IndexNode dbs level (nodeItem (nodeBlock sb ino dbs level) l r a p) p ∧
      Names (nodeItem (nodeBlock sb ino dbs level) l r a p) l r ∧
      (nodeItem (nodeBlock sb ino dbs level) l r a p).block.data.length = dbs := by
  have hplen : (p.map (·.seen)).length = p.length := List.length_map _
  obtain ⟨hroom, hcount⟩ := perBlock_le hdbs hfew
  have hents : ∀ e ∈ p.map (·.seen), EntryFits e := fun e he => by
    obtain ⟨x, hx, rfl⟩ := List.mem_map.mp he
    exact (hseen x hx).fits
  obtain ⟨hlen, hforw, hback, hmagic, hat, hword⟩ := @daBlock_reads sb ino dbs NODE r l
    [(56, toBe 2 (p.map (·.seen)).length), (58, toBe 2 level)] (p.map (·.seen)) hs
    (by rw [hplen]; exact hroom) (by simp [HDR]) (by decide) hents
  refine ⟨⟨hmagic, hword 1 _ _ rfl hlevel (by simp [Clear]), ?_, List.length_pos_iff.mpr hne, hfew, rfl,
    fun i hi => ?_⟩, ⟨hback, hforw⟩, hlen⟩
  · rw [← hplen]
    exact hword 0 _ _ rfl (by rw [hplen]; exact hcount) (by simp [Clear])
  · obtain ⟨e, he, hhigh, hall⟩ := (hseen p[i] (List.getElem_mem hi)).high
    have hi' := hat i (by rw [hplen]; exact hi)
    rw [List.getElem_map] at hi'
    exact ⟨e, he, hi'.trans (Prod.ext hhigh (hseen p[i] (List.getElem_mem hi)).place), hall⟩

theorem seen_nodeItem {level l r a : Nat} {p : List IndexBlock} (hne : p ≠ [])
    (hsorted : ByHash (p.flatMap (·.under))) (ha : a < 2 ^ 32) (hseen : ∀ x ∈ p, Seen x)
    (hents : ∀ e ∈ p.flatMap (·.under), EntryFits e) :
    Seen (nodeItem (nodeBlock sb ino dbs level) l r a p) := by
  obtain ⟨e, he, hhigh, hall⟩ := high_last_child hne hsorted hseen
  exact ⟨rfl, ⟨hhigh.trans_lt (hents e he).1, ha⟩, e, he, hhigh, hall⟩

/-- A part of a level spread over as few blocks as will do is not empty, and fits. -/
theorem part_of_spread {ι : Type} {items p : List ι} {cap : Nat} (hcap : 0 < cap) (hne : items ≠ [])
    (hp : p ∈ (spread items.length (divCeil items.length cap)).splitLengths items) :
    p ≠ [] ∧ p.length ≤ cap := by
  have hpos := List.length_pos_iff.mpr hne
  have hk : 0 < divCeil items.length cap := divCeil_pos hcap hpos
  refine ⟨?_, length_le_of_mem_splitLengths_spread (le_divCeil_mul hcap) hp⟩
  rintro rfl
  obtain ⟨i, -, hi⟩ := List.mem_map.mp (length_mem_spread hk hp)
  have hle : divCeil items.length cap ≤ items.length := by
    rw [divCeil_le_iff hcap]
    exact Nat.le_mul_of_pos_right _ hcap
  have := Nat.div_pos hle hk
  simp only [List.length_nil] at hi
  omega

/-- The parts come one after another in what was split. -/
theorem sublist_of_splitLengths {ι : Type} {items p : List ι} {k : Nat} (hk : 0 < k)
    (hp : p ∈ (spread items.length k).splitLengths items) : p.Sublist items := by
  have hsub := List.sublist_flatten_of_mem hp
  rwa [flatten_splitLengths_spread items hk] at hsub

theorem flatten_map_flatMap {ι κ : Type} (f : ι → List κ) (parts : List (List ι)) :
    (parts.map (List.flatMap f)).flatten = parts.flatten.flatMap f := by
  induction parts with
  | nil => rfl
  | cons p parts ih => rw [List.map_cons, List.flatten_cons, ih, List.flatten_cons, List.flatMap_append]

/-- The level over a level of more than one block. -/
theorem IndexLevel.next {lo : List IndexBlock} {level : Nat} (h : IndexLevel index lo) (hs : sb.Sound)
    (hdbs : DirBlockSize dbs) (hlevel : level < 2 ^ 16) (hsorted : ByHash index)
    (hents : ∀ e ∈ index, EntryFits e) (haddr : ∀ a ∈ all, a < 2 ^ 32)
    (has : as.length = divCeil lo.length (perBlock dbs)) (hall : as ⊆ all) :
    IndexLevel index (layerOver 0 (nodeBlock sb ino dbs level) as lo) ∧
      (∃ parts, parts.flatten = lo ∧ List.Forall₂ (IndexNode dbs level)
        (layerOver 0 (nodeBlock sb ino dbs level) as lo) parts) ∧
      Siblings (layerOver 0 (nodeBlock sb ino dbs level) as lo) ∧
      ∀ x ∈ layerOver 0 (nodeBlock sb ino dbs level) as lo, x.block.data.length = dbs := by
  have hge := hdbs.ge
  have hcap : 0 < perBlock dbs := by unfold perBlock HDR; omega
  have hne : lo ≠ [] := List.length_pos_iff.mp h.nonempty
  have hpos : 0 < as.length := has ▸ divCeil_pos hcap h.nonempty
  have hlen : as.length = ((spread lo.length as.length).splitLengths lo).length := by
    rw [List.length_splitLengths, length_spread]
  have hflat := flatten_splitLengths_spread lo hpos
  have hpart : ∀ p ∈ (spread lo.length as.length).splitLengths lo, p ≠ [] ∧
      p.length ≤ perBlock dbs ∧ (∀ x ∈ p, Seen x) ∧ (p.flatMap (·.under)).Sublist index := by
    intro p hp
    have hsub := sublist_of_splitLengths hpos hp
    obtain ⟨h1, h2⟩ := part_of_spread hcap hne (has ▸ hp)
    refine ⟨h1, h2, fun x hx => h.seen x (hsub.subset hx), ?_⟩
    rw [← h.under]
    exact hsub.flatMap _
  have hnull : ∀ a, a = 0 ∨ a ∈ all → a < 2 ^ 32 := fun a ha => by
    rcases ha with rfl | ha
    · norm_num
    · exact haddr a ha
  have hnode := fun p hp => @indexNode_nodeItem sb ino dbs level p hs hdbs hlevel (hpart p hp).1
    (hpart p hp).2.2.1 (hpart p hp).2.1
  refine ⟨⟨?_, ?_, fun x hx => ?_⟩, ⟨_, hflat, forall₂_linkLevel_parts hlen fun l r a p hp _ =>
    (hnode p hp l r a).1⟩, ?_, fun x hx => ?_⟩
  · rw [length_layerOver]
    exact hpos
  · have hunder : List.Forall₂ (fun (x : IndexBlock) p => x.under = p.flatMap (·.under))
        (layerOver 0 (nodeBlock sb ino dbs level) as lo) ((spread lo.length as.length).splitLengths lo) :=
      forall₂_linkLevel_parts hlen fun _ _ _ _ _ _ => rfl
    rw [← List.forall₂_map_right_iff, ← List.forall₂_map_left_iff, List.forall₂_eq_eq_eq] at hunder
    rw [List.flatMap_def, hunder, ← h.under, flatten_map_flatMap, hflat]
  · obtain ⟨l, r, a, p, hap, rfl⟩ := mem_linkLevel hx
    obtain ⟨ha, hp⟩ := List.of_mem_zip hap
    obtain ⟨h1, -, h3, h4⟩ := hpart p hp
    exact seen_nodeItem h1 (hsorted.sublist h4) (haddr a (hall ha)) h3 fun e he => hents e (h4.subset he)
  · refine chained_linkLevel (fun _ _ _ _ => rfl) hlen hall (Or.inl rfl) fun l r a p hp hl hr => ?_
    obtain ⟨h1, h2⟩ := (hnode p hp l r a).2.1
    exact ⟨h1 (hnull l hl), h2 (hnull r hr)⟩
  · obtain ⟨l, r, a, p, hap, rfl⟩ := mem_linkLevel hx
    exact (hnode p (List.of_mem_zip hap).2 l r a).2.2

/-- The layers over a level rise to a root. -/
theorem rises_of_layers {lo : List IndexBlock} {his : List (List IndexBlock)} {level : Nat}
    (hlayers : Layers 0 (nodeBlock sb ino dbs) (perBlock dbs) all level lo his)
    (h : IndexLevel index lo) (hs : sb.Sound) (hdbs : DirBlockSize dbs)
    (hlevel : level + his.length ≤ 2 ^ 16) (hsorted : ByHash index)
    (hents : ∀ e ∈ index, EntryFits e) (haddr : ∀ a ∈ all, a < 2 ^ 32) :
    IndexRises dbs level lo his ∧
      ∀ x ∈ his.flatten, Seen x ∧ x.block.data.length = dbs := by
  induction hlayers with
  | top hle =>
    have := h.nonempty
    exact ⟨le_antisymm hle this, fun x hx => by simp at hx⟩
  | @layer level lo as his hmore has hall hrest ih =>
    rw [List.length_cons] at hlevel
    have hstep : level < 2 ^ 16 := by omega
    obtain ⟨hnext, hparts, hsib, hlen⟩ := h.next hs hdbs hstep hsorted hents haddr has hall
    obtain ⟨hrises, hseen⟩ := ih hnext (by omega)
    refine ⟨⟨hparts, hsib, hrises⟩, fun x hx => ?_⟩
    rcases List.mem_append.mp hx with hx | hx
    · exact ⟨hnext.seen x hx, hlen x hx⟩
    · exact hseen x hx

/-- The leaves of the index. -/
theorem IndexLevel.leaves {bottom : List IndexBlock} (hs : sb.Sound) (hdbs : DirBlockSize dbs)
    (hne : index ≠ []) (hsorted : ByHash index) (hents : ∀ e ∈ index, EntryFits e)
    (haddr : ∀ a ∈ all, a < 2 ^ 32) (hall : as ⊆ all)
    (has : as.length = divCeil index.length (perBlock dbs))
    (hbottom : bottom = linkLevel 0 (leafItem (leafBlock sb ino dbs)) 0 as
      ((spread index.length (divCeil index.length (perBlock dbs))).splitLengths index)) :
    IndexLevel index bottom ∧ (∀ x ∈ bottom, IndexLeaf dbs x) ∧ Siblings bottom ∧
      ∀ x ∈ bottom, x.block.data.length = dbs := by
  have hge := hdbs.ge
  have hcap : 0 < perBlock dbs := by unfold perBlock HDR; omega
  have hpos : 0 < divCeil index.length (perBlock dbs) :=
    divCeil_pos hcap (List.length_pos_iff.mpr hne)
  rw [← has] at hpos hbottom
  have hlen : as.length = ((spread index.length as.length).splitLengths index).length := by
    rw [List.length_splitLengths, length_spread]
  have hflat := flatten_splitLengths_spread index hpos
  have hpart : ∀ p ∈ (spread index.length as.length).splitLengths index, p ≠ [] ∧
      p.length ≤ perBlock dbs ∧ p.Sublist index := by
    intro p hp
    obtain ⟨h1, h2⟩ := part_of_spread hcap hne (has ▸ hp)
    exact ⟨h1, h2, sublist_of_splitLengths hpos hp⟩
  have hleaf := fun p hp => @indexLeaf_leafItem sb ino dbs p hs hdbs (hpart p hp).1
    (fun e he => hents e ((hpart p hp).2.2.subset he)) (hpart p hp).2.1
  have hnull : ∀ a, a = 0 ∨ a ∈ all → a < 2 ^ 32 := fun a ha => by
    rcases ha with rfl | ha
    · norm_num
    · exact haddr a ha
  subst hbottom
  refine ⟨⟨?_, ?_, fun x hx => ?_⟩, fun x hx => ?_, ?_, fun x hx => ?_⟩
  · rw [length_linkLevel hlen]
    exact hpos
  · have hunder : List.Forall₂ (fun (x : IndexBlock) p => x.under = p)
        (linkLevel 0 (leafItem (leafBlock sb ino dbs)) 0 as
          ((spread index.length as.length).splitLengths index))
        ((spread index.length as.length).splitLengths index) :=
      forall₂_linkLevel_parts hlen fun _ _ _ _ _ _ => rfl
    rw [← List.forall₂_map_left_iff, List.forall₂_eq_eq_eq] at hunder
    rw [List.flatMap_def, hunder, hflat]
  · obtain ⟨l, r, a, p, hap, rfl⟩ := mem_linkLevel hx
    obtain ⟨ha, hp⟩ := List.of_mem_zip hap
    obtain ⟨h1, -, h3⟩ := hpart p hp
    exact seen_leafItem h1 (hsorted.sublist h3) (haddr a (hall ha)) fun e he => hents e (h3.subset he)
  · obtain ⟨l, r, a, p, hap, rfl⟩ := mem_linkLevel hx
    exact (hleaf p (List.of_mem_zip hap).2 l r a).1
  · refine chained_linkLevel (fun _ _ _ _ => rfl) hlen hall (Or.inl rfl) fun l r a p hp hl hr => ?_
    obtain ⟨h1, h2⟩ := (hleaf p hp l r a).2.1
    exact ⟨h1 (hnull l hl), h2 (hnull r hr)⟩
  · obtain ⟨l, r, a, p, hap, rfl⟩ := mem_linkLevel hx
    exact (hleaf p (List.of_mem_zip hap).2 l r a).2.2

end

/-! ## The whole tree -/

/-- Blocks, taken by level from the leaves up, are a search tree over the entries of the index, in the
places given, with its root at the last of them. -/
structure IndexTree (dbs : Nat) (index : List (Nat × Nat)) (places : List Nat) (root : Nat)
    (blocks : List DirBlock) (leaves : List IndexBlock) (his : List (List IndexBlock)) : Prop where
  made : blocks = (leaves :: his).flatten.map (·.block)
  lengths : ∀ b ∈ blocks, b.data.length = dbs
  placed : blocks.map (·.lblk) = places
  top : (his.getLastD leaves).map (·.block.lblk) = [root]
  entries : leaves.flatMap (·.under) = index
  leaf : ∀ x ∈ leaves, IndexLeaf dbs x
  siblings : Siblings leaves
  rises : IndexRises dbs 1 leaves his

section
variable {sb : Superblock} {ino dbs fsbPer leafFirst : Nat} {index : List (Nat × Nat)}

theorem length_positions {total : Nat} (h : 0 < total) :
    (positions leafFirst fsbPer total).length = total := by
  unfold positions
  simp only [List.length_append, List.length_map, List.length_tail, List.length_range,
    List.length_singleton]
  omega

/-- The top of a tree that rises is a single block, and the last. -/
theorem IndexRises.root {level : Nat} {lo : List IndexBlock} {his : List (List IndexBlock)}
    (h : IndexRises dbs level lo his) :
    ∃ r pre, his.getLastD lo = [r] ∧ (lo :: his).flatten = pre ++ [r] := by
  induction his generalizing level lo with
  | nil =>
    obtain ⟨r, rfl⟩ := List.length_eq_one_iff.mp h
    exact ⟨r, [], rfl, rfl⟩
  | cons hi his ih =>
    obtain ⟨r, pre, hlast, hflat⟩ := ih h.2.2
    refine ⟨r, lo ++ pre, ?_, ?_⟩
    · rw [List.getLastD_cons]
      exact hlast
    · rw [List.flatten_cons, hflat, List.append_assoc]

/-- The sizes of the levels of an index that is not empty. -/
theorem treeSizes_eq (hdbs : DirBlockSize dbs) {n : Nat} (hn : 0 < n) :
    ∃ ls, treeSizes dbs n = divCeil n (perBlock dbs) :: ls ∧ 0 < divCeil n (perBlock dbs) ∧
      levelsAbove 1 (perBlock dbs) (divCeil n (perBlock dbs)) (divCeil n (perBlock dbs)) = some ls := by
  have hge := hdbs.ge
  have hcap : 2 ≤ perBlock dbs := by unfold perBlock HDR; omega
  obtain ⟨ls, hls⟩ := Option.isSome_iff_exists.mp
    (@levelsAbove_isSome 1 (perBlock dbs) hcap (le_refl 1) _ _ (le_refl (divCeil n (perBlock dbs))))
  refine ⟨ls, ?_, divCeil_pos (by omega) hn, hls⟩
  unfold treeSizes
  change _ :: (levelsAbove 1 (perBlock dbs) (divCeil n (perBlock dbs)) (divCeil n (perBlock dbs))).getD []
    = _
  rw [hls]
  rfl

/-- What is laid out over an index in order is a search tree. -/
theorem indexTree_treeBlocks (hs : sb.Sound) (hdbs : DirBlockSize dbs) (hne : index ≠ [])
    (hfew : index.length ≤ 2 ^ 32) (hsorted : ByHash index) (hents : ∀ e ∈ index, EntryFits e)
    (hplaces : ∀ a ∈ positions leafFirst fsbPer (treeSizes dbs index.length).sum, a < 2 ^ 32) :
    ∃ leaves his, IndexTree dbs index (positions leafFirst fsbPer (treeSizes dbs index.length).sum)
      leafFirst (treeBlocks sb ino dbs fsbPer leafFirst index) leaves his := by
  obtain ⟨ls, hsizes, hpos, hls⟩ := @treeSizes_eq dbs hdbs index.length (List.length_pos_iff.mpr hne)
  have hge := hdbs.ge
  have hcap : 2 ≤ perBlock dbs := by unfold perBlock HDR; omega
  have hsum : (treeSizes dbs index.length).sum = divCeil index.length (perBlock dbs) + ls.sum := by
    rw [hsizes, List.sum_cons]
  rw [hsum] at hplaces ⊢
  have hplen := @length_positions fsbPer leafFirst (divCeil index.length (perBlock dbs) + ls.sum) (by omega)
  have hfewer : divCeil index.length (perBlock dbs) ≤ 2 ^ 32 := by
    refine le_trans ?_ hfew
    rw [divCeil_le_iff (by omega)]
    exact Nat.le_mul_of_pos_right _ (by omega)
  have hdepth := length_levelsAbove_le hcap (le_refl 1) hfewer hls
  have haddrs := @addrs_buildTree Nat Below DirBlock (Nat × Nat) 0 (leafBlock sb ino dbs)
    (nodeBlock sb ino dbs) Prod.snd (divCeil index.length (perBlock dbs)) ls
    (positions leafFirst fsbPer (divCeil index.length (perBlock dbs) + ls.sum)) index
    (fun _ _ _ _ => rfl) (fun _ _ _ _ _ => rfl) hplen
  obtain ⟨as, bottom, his, has, hall, hbottom, hlayers, hlevels, hblocks, -⟩ :=
    @layers_buildTree Nat Below DirBlock (Nat × Nat) 0 (nodeBlock sb ino dbs) Prod.snd (perBlock dbs)
      (leafBlock sb ino dbs) (divCeil index.length (perBlock dbs)) _ ls _ index hls hplen
  have hmade : treeBlocks sb ino dbs fsbPer leafFirst index = (bottom :: his).flatten.map (·.block) := by
    unfold treeBlocks
    simp only [hsizes, List.headD_cons, List.tail_cons, List.sum_cons]
    rw [hblocks, List.map_map]
    rfl
  obtain ⟨hlevel, hleaf, hsib, hlens⟩ :=
    IndexLevel.leaves hs hdbs hne hsorted hents hplaces hall has hbottom
  obtain ⟨hrises, hseen⟩ :=
    rises_of_layers hlayers hlevel hs hdbs (by omega) hsorted hents hplaces
  -- each block is where the level above says it is
  have hplaced : ((bottom :: his).flatten.map (·.block)).map (·.lblk) =
      positions leafFirst fsbPer (divCeil index.length (perBlock dbs) + ls.sum) := by
    rw [hblocks, List.map_map] at haddrs
    rw [← haddrs, List.map_map]
    refine List.map_congr_left fun x hx => ?_
    rcases List.mem_append.mp hx with hx | hx
    · exact (hlevel.seen x hx).place.symm
    · exact (hseen x hx).1.place.symm
  obtain ⟨r, pre, htop, hflat⟩ := hrises.root
  refine ⟨bottom, his, hmade, fun b hb => ?_, hmade ▸ hplaced, ?_, hlevel.under, hleaf, hsib, hrises⟩
  · rw [hmade] at hb
    obtain ⟨x, hx, rfl⟩ := List.mem_map.mp hb
    rcases List.mem_append.mp hx with hx | hx
    · exact hlens x hx
    · exact (hseen x hx).2
  · rw [hflat, List.map_append, List.map_append] at hplaced
    rw [htop]
    exact (List.append_inj' hplaced rfl).2

end

end FioXfs.DirWrite
