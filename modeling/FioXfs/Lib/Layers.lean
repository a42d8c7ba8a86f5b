import FioXfs.Lib.Levels
set_option autoImplicit false

/-!
# Lib: the layers of a tree built whole

A tree laid out level by level is a stack of layers, each spread evenly over the one below and
linked.  Every node is taken with the items under it, which its block alone does not tell, so what a
layer's nodes say of what is under them is shown one layer at a time.
-/

namespace FioXfs.Lib

/-! ## Even parts -/

/-- Spread over as few nodes as will do, and more than one, every node is at least half full. -/
theorem half_le_of_mem_spread {n cap c : Nat} (hcap : 0 < cap) (h : 1 < divCeil n cap)
    (hc : c ∈ spread n (divCeil n cap)) : cap / 2 ≤ c := by
  obtain ⟨i, -, rfl⟩ := List.mem_map.mp hc
  obtain ⟨k, hk⟩ : ∃ k, divCeil n cap = k + 2 := ⟨divCeil n cap - 2, by omega⟩
  rw [hk]
  have hmore : (k + 1) * cap < n := by
    by_contra hle
    have := (divCeil_le_iff hcap).mpr (Nat.le_of_not_lt hle)
    omega
  have hhalf : cap / 2 * (k + 2) ≤ n := by
    calc cap / 2 * (k + 2) ≤ cap / 2 * (2 * (k + 1)) := Nat.mul_le_mul_left _ (by omega)
      _ = cap / 2 * 2 * (k + 1) := (Nat.mul_assoc _ _ _).symm
      _ ≤ cap * (k + 1) := Nat.mul_le_mul_right _ (Nat.div_mul_le_self cap 2)
      _ = (k + 1) * cap := Nat.mul_comm _ _
      _ ≤ n := hmore.le
  have hdiv : cap / 2 ≤ n / (k + 2) := (Nat.le_div_iff_mul_le (by omega)).mpr hhalf
  exact hdiv.trans (Nat.le_add_right _ _)

/-- The parts have the sizes asked for. -/
theorem length_mem_spread {ι : Type} {items part : List ι} {k : Nat} (hk : 0 < k)
    (hp : part ∈ (spread items.length k).splitLengths items) :
    part.length ∈ spread items.length k := by
  have hsum : (spread items.length k).sum ≤ items.length := (sum_spread hk).le
  have hmap := List.map_splitLengths_length items _ hsum
  rw [← hmap]
  exact List.mem_map_of_mem hp

theorem splitLengths_map {ι κ : Type} (f : ι → κ) (sizes : List Nat) (items : List ι) :
    sizes.splitLengths (items.map f) = (sizes.splitLengths items).map (List.map f) := by
  induction sizes generalizing items with
  | nil => rfl
  | cons n sizes ih =>
    rw [List.splitLengths_cons, List.splitLengths_cons, List.map_cons, ← List.map_take,
      ← List.map_drop, ih]

/-! ## A linked layer -/

section
variable {A ι κ β γ : Type} {null : A}

theorem linkLevel_map (g : β → γ) (f : ι → κ) {mk : A → A → A → ι → β} {mk' : A → A → A → κ → γ}
    (h : ∀ l r a p, g (mk l r a p) = mk' l r a (f p)) {left : A} {as : List A} {ps : List ι} :
    (linkLevel null mk left as ps).map g = linkLevel null mk' left as (ps.map f) := by
  induction as generalizing left ps with
  | nil => rfl
  | cons a as ih =>
    cases ps with
    | nil => rfl
    | cons p ps => rw [linkLevel, List.map_cons, List.map_cons, linkLevel, h, ih]

/-- What holds of every node made over a part holds of the layer and its parts. -/
theorem forall₂_linkLevel_parts {mk : A → A → A → ι → β} {Q : β → ι → Prop} {left : A} {as : List A}
    {ps : List ι} (hlen : as.length = ps.length)
    (h : ∀ l r a, ∀ p ∈ ps, mk l r a p ∈ linkLevel null mk left as ps → Q (mk l r a p) p) :
    List.Forall₂ Q (linkLevel null mk left as ps) ps := by
  induction as generalizing left ps with
  | nil =>
    obtain rfl : ps = [] := List.length_eq_zero_iff.mp hlen.symm
    exact .nil
  | cons a as ih =>
    cases ps with
    | nil => simp at hlen
    | cons p ps =>
      refine .cons (h left (as.headD null) a p List.mem_cons_self List.mem_cons_self) ?_
      exact ih (by simpa using hlen) fun l r a' p' hp hm =>
        h l r a' p' (List.mem_cons_of_mem _ hp) (List.mem_cons_of_mem _ hm)

/-- Each node names the node before it and the one after, `null` past the ends. -/
def Chained (null : A) (left right addr : β → A) : A → List β → Prop
  | _, [] => True
  | prev, b :: bs =>
      left b = prev ∧ right b = (bs.map addr).headD null ∧ Chained null left right addr (addr b) bs

theorem chained_linkLevel {mk : A → A → A → ι → β} {left right addr : β → A} {all : List A}
    (haddr : ∀ l r a p, addr (mk l r a p) = a) {as : List A} {ps : List ι} {prev : A}
    (hlen : as.length = ps.length) (hall : as ⊆ all) (hprev : prev = null ∨ prev ∈ all)
    (h : ∀ l r a, ∀ p ∈ ps, l = null ∨ l ∈ all → r = null ∨ r ∈ all →
      left (mk l r a p) = l ∧ right (mk l r a p) = r) :
    Chained null left right addr prev (linkLevel null mk prev as ps) := by
  induction as generalizing ps prev with
  | nil => trivial
  | cons a as ih =>
    cases ps with
    | nil => simp at hlen
    | cons p ps =>
      have hlen' : as.length = ps.length := by simpa using hlen
      have hhead : as.headD null = null ∨ as.headD null ∈ all := by
        cases as with
        | nil => exact Or.inl rfl
        | cons b bs => exact Or.inr (hall (by simp))
      obtain ⟨hl, hr⟩ := h prev (as.headD null) a p List.mem_cons_self hprev hhead
      have hrest := ih hlen' (fun x hx => hall (List.mem_cons_of_mem _ hx))
        (Or.inr (hall List.mem_cons_self)) fun l r b q hq => h l r b q (List.mem_cons_of_mem _ hq)
      refine ⟨hl, ?_, ?_⟩
      · rw [hr, addrs_linkLevel haddr hlen']
      · rw [haddr]
        exact hrest

end

/-! ## Layers -/

/-- A node made: what the level above sees of it, its block, and the items under it. -/
structure Item (B K ι : Type) where
  seen : B
  block : K
  under : List ι

section
variable {A B K ι : Type}

/-- A leaf over items. -/
def leafItem (mkLeaf : A → A → A → List ι → B × K) (l r a : A) (p : List ι) : Item B K ι :=
  ⟨(mkLeaf l r a p).1, (mkLeaf l r a p).2, p⟩

/-- A node over nodes. -/
def nodeItem (mk : A → A → A → List B → B × K) (l r a : A) (p : List (Item B K ι)) : Item B K ι :=
  ⟨(mk l r a (p.map (·.seen))).1, (mk l r a (p.map (·.seen))).2, p.flatMap (·.under)⟩

/-- The layer of nodes at `as` over a layer. -/
def layerOver (null : A) (mk : A → A → A → List B → B × K) (as : List A) (lo : List (Item B K ι)) :
    List (Item B K ι) :=
  linkLevel null (nodeItem mk) null as ((spread lo.length as.length).splitLengths lo)

/-- The layers over `lo`, whose nodes are made by `mk` from `level` on, in addresses of `all`: as
few nodes in each as will do, up to a single one. -/
inductive Layers (null : A) (mk : Nat → A → A → A → List B → B × K) (cap : Nat) (all : List A) :
    Nat → List (Item B K ι) → List (List (Item B K ι)) → Prop
  | top {level : Nat} {lo : List (Item B K ι)} : lo.length ≤ 1 → Layers null mk cap all level lo []
  | layer {level : Nat} {lo : List (Item B K ι)} {as : List A} {his : List (List (Item B K ι))} :
      1 < lo.length → as.length = divCeil lo.length cap → as ⊆ all →
      Layers null mk cap all (level + 1) (layerOver null (mk level) as lo) his →
      Layers null mk cap all level lo (layerOver null (mk level) as lo :: his)

variable {null : A} {mk : Nat → A → A → A → List B → B × K} {addr : B → A} {cap : Nat} {all : List A}

theorem length_layerOver {mk : A → A → A → List B → B × K} (as : List A) (lo : List (Item B K ι)) :
    (layerOver null mk as lo).length = as.length :=
  length_linkLevel (by rw [List.length_splitLengths, length_spread])

/-- What building upwards makes of a layer. -/
theorem layers_buildUp {fuel level : Nat} {sizes : List Nat} {addrs : List A}
    {lo : List (Item B K ι)} (hlv : levelsAbove 1 cap fuel lo.length = some sizes)
    (hlen : addrs.length = sizes.sum) (hall : addrs ⊆ all) :
    ∃ his, Layers null mk cap all level lo his ∧ his.length = sizes.length ∧
      (buildUp null mk addr level sizes addrs (lo.map (·.seen))).2 =
        his.flatten.map (fun x => (addr x.seen, x.block)) ∧
      (buildUp null mk addr level sizes addrs (lo.map (·.seen))).1 =
        (his.getLastD lo).map (·.seen) := by
  induction fuel generalizing level sizes addrs lo with
  | zero =>
    unfold levelsAbove at hlv
    split at hlv
    · rename_i hb
      obtain rfl := Option.some.inj hlv
      exact ⟨[], .top hb, rfl, rfl, rfl⟩
    · cases hlv
  | succ fuel ih =>
    unfold levelsAbove at hlv
    split at hlv
    · rename_i hb
      obtain rfl := Option.some.inj hlv
      exact ⟨[], .top hb, rfl, rfl, rfl⟩
    · rename_i hb
      obtain ⟨rest, hr, rfl⟩ := Option.map_eq_some_iff.mp hlv
      rw [List.sum_cons] at hlen
      have has : (addrs.take (divCeil lo.length cap)).length = divCeil lo.length cap := by
        rw [List.length_take]
        omega
      have hhi := @length_layerOver _ _ _ _ null (mk level) (addrs.take (divCeil lo.length cap)) lo
      have hmade : (layerOver null (mk level) (addrs.take (divCeil lo.length cap)) lo).map
            (fun x => (x.seen, x.block)) =
          linkLevel null (mk level) null (addrs.take (divCeil lo.length cap))
            ((spread (lo.map (·.seen)).length (divCeil lo.length cap)).splitLengths
              (lo.map (·.seen))) := by
        rw [layerOver, @linkLevel_map _ _ _ _ _ null (fun x : Item B K ι => (x.seen, x.block))
          (List.map (·.seen)) (nodeItem (mk level)) (mk level) (fun l r a p => rfl), has,
          List.length_map, splitLengths_map]
      obtain ⟨his, hlayers, hlength, hblocks, htop⟩ := @ih (level + 1) rest
        (addrs.drop (divCeil lo.length cap)) (layerOver null (mk level)
          (addrs.take (divCeil lo.length cap)) lo) (by rw [hhi, has]; exact hr)
        (by rw [List.length_drop]; omega) fun x hx => hall (List.mem_of_mem_drop hx)
      have hseen : (linkLevel null (mk level) null (addrs.take (divCeil lo.length cap))
          ((spread (lo.map (·.seen)).length (divCeil lo.length cap)).splitLengths
            (lo.map (·.seen)))).map (·.1) =
          (layerOver null (mk level) (addrs.take (divCeil lo.length cap)) lo).map (·.seen) := by
        rw [← hmade, List.map_map]
        rfl
      refine ⟨_ :: his, .layer (by omega) has (fun x hx => hall (List.mem_of_mem_take hx)) hlayers,
        by rw [List.length_cons, List.length_cons, hlength], ?_, ?_⟩
      · simp only [buildUp]
        rw [hseen, hblocks, ← hmade, List.map_map, List.flatten_cons, List.map_append]
        rfl
      · simp only [buildUp]
        rw [hseen, htop, List.getLastD_cons]

/-- What building a whole tree makes: its leaves, and the layers over them. -/
theorem layers_buildTree {mkLeaf : A → A → A → List ι → B × K} {leaves fuel : Nat} {sizes : List Nat}
    {addrs : List A} {items : List ι} (hlv : levelsAbove 1 cap fuel leaves = some sizes)
    (hlen : addrs.length = leaves + sizes.sum) :
    ∃ as bottom his, as.length = leaves ∧ as ⊆ addrs ∧
      bottom = linkLevel null (leafItem mkLeaf) null as
        ((spread items.length leaves).splitLengths items) ∧
      Layers null mk cap addrs 1 bottom his ∧ his.length = sizes.length ∧
      (buildTree null mkLeaf mk addr leaves sizes addrs items).2 =
        (bottom :: his).flatten.map (fun x => (addr x.seen, x.block)) ∧
      (buildTree null mkLeaf mk addr leaves sizes addrs items).1 =
        (his.getLastD bottom).map (·.seen) := by
  have has : (addrs.take leaves).length = leaves := by
    rw [List.length_take]
    omega
  have hmade := @linkLevel_map _ _ _ _ _ null (fun x : Item B K ι => (x.seen, x.block)) id
    (leafItem mkLeaf) mkLeaf (fun l r a p => rfl) null (addrs.take leaves)
    ((spread items.length leaves).splitLengths items)
  rw [List.map_id] at hmade
  generalize hbottom : linkLevel null (leafItem mkLeaf) null (addrs.take leaves)
    ((spread items.length leaves).splitLengths items) = bottom at hmade
  have hblen : bottom.length = leaves := by
    rw [← hbottom, length_linkLevel, has]
    rw [has, List.length_splitLengths, length_spread]
  obtain ⟨his, hlayers, hlength, hblocks, htop⟩ := @layers_buildUp _ _ _ _ null mk addr cap addrs fuel
    1 sizes (addrs.drop leaves) bottom (by rw [hblen]; exact hlv)
    (by rw [List.length_drop]; omega) (fun x hx => List.mem_of_mem_drop hx)
  have hseen : (linkLevel null mkLeaf null (addrs.take leaves)
      ((spread items.length leaves).splitLengths items)).map (·.1) = bottom.map (·.seen) := by
    rw [← hmade, List.map_map]
    rfl
  refine ⟨_, bottom, his, has, fun x hx => List.mem_of_mem_take hx, hbottom.symm, hlayers, hlength, ?_, ?_⟩
  · simp only [buildTree]
    rw [hseen, hblocks, ← hmade, List.map_map, List.flatten_cons, List.map_append]
    rfl
  · simp only [buildTree]
    rw [hseen, htop]

end

end FioXfs.Lib
