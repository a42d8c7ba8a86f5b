import Mathlib.Algebra.BigOperators.Group.List.Basic
import Mathlib.Data.List.Forall2
import Mathlib.Data.List.SplitLengths
import Mathlib.Logic.Function.Iterate
import Mathlib.Tactic.NormNum
set_option autoImplicit false

/-!
# Lib: trees built whole, level by level

A bulk-loaded search tree is laid out from its leaves up: the items of a level
are spread over the nodes above them until few enough are left.  This module has
what such a layout needs whatever the nodes look like: how many nodes a level
has, a doubly linked level, and the recursive traversal (`collect`) that a level
built over a traversable level inherits.
-/

namespace FioXfs.Lib

/-! ## Level sizes -/

/-- `a / b` rounded up. -/
def divCeil (a b : Nat) : Nat := (a + b - 1) / b

/-- Node counts above a level of `below` nodes, each node over at most `cap`,
until a level has at most `stop`; `none` when `fuel` levels do not get there. -/
def levelsAbove (stop cap : Nat) : Nat → Nat → Option (List Nat)
  | fuel, below =>
      if below ≤ stop then some []
      else
        match fuel with
        | 0 => none
        | fuel + 1 => (levelsAbove stop cap fuel (divCeil below cap)).map (divCeil below cap :: ·)

theorem divCeil_lt {a b : Nat} (hb : 2 ≤ b) (ha : 2 ≤ a) : divCeil a b < a := by
  unfold divCeil
  rw [Nat.div_lt_iff_lt_mul (by omega)]
  have h : a * 2 ≤ a * b := Nat.mul_le_mul_left a hb
  have h2 : (a - 1) * 2 ≤ (a - 1) * b := Nat.mul_le_mul_left _ hb
  obtain ⟨c, rfl⟩ : ∃ c, a = c + 1 := ⟨a - 1, by omega⟩
  rw [Nat.add_sub_cancel] at h2
  rw [Nat.succ_mul]
  omega

theorem divCeil_pos {a b : Nat} (hb : 0 < b) (ha : 0 < a) : 0 < divCeil a b :=
  Nat.div_pos (by omega) hb

theorem le_divCeil_mul {a b : Nat} (hb : 0 < b) : a ≤ divCeil a b * b := by
  unfold divCeil
  have h := Nat.div_add_mod (a + b - 1) b
  have hm := Nat.mod_lt (a + b - 1) hb
  rw [Nat.mul_comm] at h
  omega

theorem divCeil_mono {a a' b : Nat} (h : a ≤ a') : divCeil a b ≤ divCeil a' b :=
  Nat.div_le_div_right (by omega)

theorem divCeil_le_iff {a b c : Nat} (hb : 0 < b) : divCeil a b ≤ c ↔ a ≤ c * b := by
  constructor
  · intro h
    exact (le_divCeil_mul hb).trans (Nat.mul_le_mul_right b h)
  · intro h
    unfold divCeil
    rw [Nat.div_le_iff_le_mul_add_pred hb, Nat.mul_comm b c]
    omega

/-- With room for two under each node, levels shrink until one is small enough. -/
theorem levelsAbove_isSome {stop cap : Nat} (hcap : 2 ≤ cap) (hstop : 1 ≤ stop) :
    ∀ {fuel below : Nat}, below ≤ fuel → (levelsAbove stop cap fuel below).isSome := by
  intro fuel
  induction fuel with
  | zero =>
    intro below h
    unfold levelsAbove
    simp [show below ≤ stop by omega]
  | succ fuel ih =>
    intro below h
    unfold levelsAbove
    split
    · rfl
    · have hlt := divCeil_lt hcap (show 2 ≤ below by omega)
      simpa using ih (show divCeil below cap ≤ fuel by omega)

/-- The rounds come down to `stop`, whatever the fuel. -/
def LevelsEnd (stop cap below : Nat) : Prop := ∃ rounds, (divCeil · cap)^[rounds] below ≤ stop

/-- A level of at least one node never shrinks to none. -/
theorem one_le_iterate_divCeil {cap : Nat} (hcap : 0 < cap) :
    ∀ {below : Nat} (rounds : Nat), 1 ≤ below → 1 ≤ (divCeil · cap)^[rounds] below := by
  intro below rounds
  induction rounds generalizing below with
  | zero => exact id
  | succ rounds ih => exact fun h => ih (divCeil_pos hcap h)

theorem levelsEnd_of_isSome {stop cap : Nat} :
    ∀ {fuel below : Nat}, (levelsAbove stop cap fuel below).isSome → LevelsEnd stop cap below := by
  intro fuel
  induction fuel with
  | zero =>
    intro below h
    unfold levelsAbove at h
    split at h
    · exact ⟨0, by assumption⟩
    · simp at h
  | succ fuel ih =>
    intro below h
    unfold levelsAbove at h
    split at h
    · exact ⟨0, by assumption⟩
    · obtain ⟨rounds, hr⟩ := ih (by simpa using h)
      exact ⟨rounds + 1, hr⟩

/-- Levels end exactly when one node is few enough to stop at, and fuel for each node is then
enough to see it. -/
theorem levelsEnd_iff {stop cap below : Nat} (hcap : 2 ≤ cap) (hb : 1 ≤ below) :
    LevelsEnd stop cap below ↔ 1 ≤ stop := by
  constructor
  · rintro ⟨rounds, hr⟩
    exact (one_le_iterate_divCeil (by omega) rounds hb).trans hr
  · exact fun hstop => levelsEnd_of_isSome (levelsAbove_isSome hcap hstop (le_refl below))

theorem levelsAbove_isSome_iff {stop cap below : Nat} (hcap : 2 ≤ cap) (hb : 1 ≤ below) :
    (levelsAbove stop cap below below).isSome ↔ LevelsEnd stop cap below :=
  ⟨levelsEnd_of_isSome, fun h => levelsAbove_isSome hcap ((levelsEnd_iff hcap hb).mp h) (le_refl _)⟩

/-- The last level is small enough to stop at. -/
theorem getLast_levelsAbove_le {stop cap : Nat} :
    ∀ {fuel below : Nat} {ls : List Nat}, levelsAbove stop cap fuel below = some ls →
      ∃ last, (below :: ls).getLast? = some last ∧ last ≤ stop := by
  intro fuel
  induction fuel with
  | zero =>
    intro below ls h
    unfold levelsAbove at h
    split at h
    · rename_i hb
      obtain rfl : [] = ls := by simpa using h
      exact ⟨below, rfl, hb⟩
    · cases h
  | succ fuel ih =>
    intro below ls h
    unfold levelsAbove at h
    split at h
    · rename_i hb
      obtain rfl : [] = ls := by simpa using h
      exact ⟨below, rfl, hb⟩
    · obtain ⟨rest, hr, rfl⟩ := Option.map_eq_some_iff.mp h
      obtain ⟨last, hlast, hle⟩ := ih hr
      exact ⟨last, by rwa [List.getLast?_cons_cons], hle⟩

/-- Every level is a `base`th of the one below at most, so there are few of them. -/
theorem length_levelsAbove_le_pow {stop cap base : Nat} (hbase : 0 < base) (hcap : base ≤ cap)
    (hstop : 1 ≤ stop) : ∀ {k fuel below : Nat} {ls : List Nat}, below ≤ base ^ k →
      levelsAbove stop cap fuel below = some ls → ls.length ≤ k := by
  intro k
  induction k with
  | zero =>
    intro fuel below ls hb h
    rw [pow_zero] at hb
    unfold levelsAbove at h
    rw [if_pos (by omega)] at h
    obtain rfl : [] = ls := by simpa using h
    exact le_refl 0
  | succ k ih =>
    intro fuel below ls hb h
    unfold levelsAbove at h
    split at h
    · obtain rfl : [] = ls := by simpa using h
      exact Nat.zero_le _
    · cases fuel with
      | zero => simp at h
      | succ fuel =>
        obtain ⟨rest, hr, rfl⟩ := Option.map_eq_some_iff.mp h
        have hpart : divCeil below cap ≤ base ^ k := by
          rw [divCeil_le_iff (by omega)]
          calc below ≤ base ^ k * base := by rw [← pow_succ]; exact hb
            _ ≤ base ^ k * cap := Nat.mul_le_mul_left _ hcap
        rw [List.length_cons]
        exact Nat.succ_le_succ (ih hpart hr)

/-- Every level at least halves the one below. -/
theorem length_levelsAbove_le {stop cap : Nat} (hcap : 2 ≤ cap) (hstop : 1 ≤ stop) {k fuel below : Nat}
    {ls : List Nat} (hb : below ≤ 2 ^ k) (h : levelsAbove stop cap fuel below = some ls) :
    ls.length ≤ k :=
  length_levelsAbove_le_pow Nat.two_pos hcap hstop hb h

/-! ## How a tree grows -/

theorem divCeil_one_le {a b : Nat} (ha : a ≤ 1) (hb : 0 < b) : divCeil a b = a := by
  rcases Nat.le_one_iff_eq_zero_or_eq_one.mp ha with rfl | rfl
  · unfold divCeil
    exact Nat.div_eq_of_lt (by omega)
  · unfold divCeil
    rw [Nat.add_sub_cancel_left]
    exact Nat.div_self hb

/-- Rounding up loses at most one in each of two parts. -/
theorem divCeil_add_le {a m b c : Nat} (hc : 0 < c) (hb : c ≤ b) :
    c * divCeil (a + m) b ≤ c * divCeil a b + m + (c - 1) := by
  have hstep : divCeil (a + m) b ≤ divCeil a b + divCeil m c := by
    rw [divCeil_le_iff (by omega), Nat.add_mul]
    have h1 := @le_divCeil_mul a b (by omega)
    have h2 := @le_divCeil_mul m c hc
    have h3 : divCeil m c * c ≤ divCeil m c * b := Nat.mul_le_mul_left _ hb
    omega
  have hm : c * divCeil m c ≤ m + (c - 1) := by
    unfold divCeil
    have := Nat.mul_div_le (m + c - 1) c
    omega
  calc c * divCeil (a + m) b ≤ c * (divCeil a b + divCeil m c) := Nat.mul_le_mul_left _ hstep
    _ = c * divCeil a b + c * divCeil m c := Nat.mul_add _ _ _
    _ ≤ c * divCeil a b + m + (c - 1) := by omega

/-- More nodes below never means fewer above. -/
theorem sum_levelsAbove_mono {stop cap : Nat} : ∀ {fuel fuel' a b : Nat} {ls ls' : List Nat}, a ≤ b →
    levelsAbove stop cap fuel a = some ls → levelsAbove stop cap fuel' b = some ls' →
    ls.sum ≤ ls'.sum := by
  intro fuel
  induction fuel with
  | zero =>
      intro fuel' a b ls ls' hab h h'
      unfold levelsAbove at h
      split at h
      · obtain rfl := Option.some.inj h
        exact Nat.zero_le _
      · cases h
  | succ fuel ih =>
      intro fuel' a b ls ls' hab h h'
      unfold levelsAbove at h
      split at h
      · obtain rfl := Option.some.inj h
        exact Nat.zero_le _
      · rename_i hstop
        obtain ⟨rest, hr, rfl⟩ := Option.map_eq_some_iff.mp h
        unfold levelsAbove at h'
        rw [if_neg (by omega)] at h'
        cases fuel' with
        | zero => cases h'
        | succ fuel' =>
            obtain ⟨rest', hr', rfl⟩ := Option.map_eq_some_iff.mp h'
            have hmono := @divCeil_mono a b cap hab
            have := ih hmono hr hr'
            simp only [List.sum_cons]
            omega

/-- `m` nodes more below are at most a ninth as many above, and one for each level. -/
theorem sum_levelsAbove_le {cap : Nat} (hcap : 10 ≤ cap) : ∀ {l fuel fuel' c m : Nat}
    {ls ls' : List Nat}, levelsAbove 1 cap fuel c = some ls →
    levelsAbove 1 cap fuel' (c + m) = some ls' → c + m ≤ 10 ^ l →
    9 * ls'.sum ≤ 9 * ls.sum + m + 9 * l := by
  intro l
  induction l with
  | zero =>
      intro fuel fuel' c m ls ls' _ h' hle
      unfold levelsAbove at h'
      rw [if_pos (by simpa using hle)] at h'
      obtain rfl := Option.some.inj h'
      simp
  | succ l ih =>
      intro fuel fuel' c m ls ls' h h' hle
      unfold levelsAbove at h'
      split at h'
      · obtain rfl := Option.some.inj h'
        simp
      · cases fuel' with
        | zero => cases h'
        | succ fuel' =>
            obtain ⟨rest', hr', rfl⟩ := Option.map_eq_some_iff.mp h'
            have hgrow := @divCeil_add_le c m cap 10 (by omega) hcap
            have hmono := @divCeil_mono c (c + m) cap (by omega)
            have hsmall : divCeil (c + m) cap ≤ 10 ^ l := by
              rw [divCeil_le_iff (by omega)]
              calc c + m ≤ 10 ^ l * 10 := by rw [← pow_succ]; exact hle
                _ ≤ 10 ^ l * cap := Nat.mul_le_mul_left _ hcap
            obtain ⟨d, hd⟩ : ∃ d, divCeil (c + m) cap = divCeil c cap + d :=
              ⟨_, (Nat.add_sub_cancel' hmono).symm⟩
            rw [hd] at hr' hsmall hgrow
            by_cases hc : c ≤ 1
            · -- Nothing above the smaller level, nor above what would be over it.
              unfold levelsAbove at h
              rw [if_pos hc] at h
              obtain rfl := Option.some.inj h
              have hroot : levelsAbove 1 cap 0 (divCeil c cap) = some [] := by
                unfold levelsAbove
                rw [divCeil_one_le hc (by omega), if_pos hc]
              have := ih hroot hr' hsmall
              have heq := divCeil_one_le hc (show 0 < cap by omega)
              have hall := @divCeil_add_le 0 (c + m) cap 10 (by omega) hcap
              rw [Nat.zero_add, hd, divCeil_one_le (Nat.zero_le 1) (by omega)] at hall
              rw [hd]
              simp only [List.sum_cons, List.sum_nil] at this ⊢
              omega
            · unfold levelsAbove at h
              rw [if_neg hc] at h
              cases fuel with
              | zero => cases h
              | succ fuel =>
                  obtain ⟨rest, hr, rfl⟩ := Option.map_eq_some_iff.mp h
                  have := ih hr hr' hsmall
                  rw [hd]
                  simp only [List.sum_cons]
                  omega

/-! ## Spreading evenly -/

/-- Counts for `n` items spread as evenly as possible over `k` nodes. -/
def spread (n k : Nat) : List Nat :=
  (List.range k).map fun i => n / k + if i < n % k then 1 else 0

@[simp] theorem length_spread (n k : Nat) : (spread n k).length = k := by
  simp [spread]

theorem sum_map_lt_range (m k : Nat) :
    ((List.range k).map fun i => if i < m then 1 else 0).sum = min m k := by
  induction k with
  | zero => simp
  | succ k ih =>
    rw [List.range_succ, List.map_append, List.sum_append, ih]
    simp only [List.map_cons, List.map_nil, List.sum_cons, List.sum_nil]
    split_ifs <;> omega

/-- Nothing is left out. -/
theorem sum_spread {n k : Nat} (hk : 0 < k) : (spread n k).sum = n := by
  unfold spread
  rw [List.sum_map_add, sum_map_lt_range]
  simp only [List.map_const', List.length_range, List.sum_replicate_nat]
  have := Nat.div_add_mod n k
  have := Nat.mod_lt n hk
  omega

/-- No node gets more than its capacity when there are enough nodes. -/
theorem le_of_mem_spread {n k cap c : Nat} (h : n ≤ k * cap) (hc : c ∈ spread n k) :
    c ≤ cap := by
  obtain ⟨i, _, rfl⟩ := List.mem_map.mp hc
  have hdm := Nat.div_add_mod n k
  have hdiv : n / k ≤ cap := Nat.div_le_of_le_mul h
  split
  · rename_i hi
    -- A node with one more than the quotient: the quotient is below the capacity.
    by_contra hgt
    have heq : n / k = cap := by omega
    rw [heq] at hdm
    omega
  · omega

/-- The items of each node, when there are enough nodes: no one too full, in order. -/
theorem flatten_splitLengths_spread {ι : Type} (items : List ι) {k : Nat} (hk : 0 < k) :
    ((spread items.length k).splitLengths items).flatten = items :=
  List.flatten_splitLengths _ _ (le_of_eq (sum_spread hk).symm)

theorem length_le_of_mem_splitLengths_spread {ι : Type} {items : List ι} {k cap : Nat}
    (h : items.length ≤ k * cap) {part : List ι}
    (hp : part ∈ (spread items.length k).splitLengths items) : part.length ≤ cap :=
  List.length_mem_splitLengths _ _ cap (fun _ hn => le_of_mem_spread h hn) part hp

theorem mem_of_mem_splitLengths {ι : Type} {sizes : List Nat} {items part : List ι} {x : ι}
    (hp : part ∈ sizes.splitLengths items) (hx : x ∈ part) : x ∈ items := by
  induction sizes generalizing items with
  | nil => simp at hp
  | cons n sizes ih =>
    rw [List.splitLengths_cons, List.mem_cons] at hp
    rcases hp with rfl | hp
    · exact List.mem_of_mem_take hx
    · exact List.mem_of_mem_drop (ih hp)

/-! ## Linked levels -/

/-- The nodes of one level, each made from its left and right neighbours'
addresses (`null` at the ends), its own address and its items. -/
def linkLevel {A ι β : Type} (null : A) (mk : A → A → A → ι → β) :
    A → List A → List ι → List β
  | left, a :: as, p :: ps => mk left (as.headD null) a p :: linkLevel null mk a as ps
  | _, _, _ => []

theorem length_linkLevel {A ι β : Type} {null : A} {mk : A → A → A → ι → β} :
    ∀ {as : List A} {ps : List ι} {left : A}, as.length = ps.length →
      (linkLevel null mk left as ps).length = as.length := by
  intro as
  induction as with
  | nil => intro ps left _; rfl
  | cons a as ih =>
    intro ps left h
    cases ps with
    | nil => simp at h
    | cons p ps =>
      rw [linkLevel, List.length_cons, List.length_cons, ih (by simpa using h)]

/-- Each node made from an address knows it. -/
theorem addrs_linkLevel {A ι β : Type} {null : A} {mk : A → A → A → ι → β} {addr : β → A}
    (haddr : ∀ l r a p, addr (mk l r a p) = a) :
    ∀ {as : List A} {ps : List ι} {left : A}, as.length = ps.length →
      (linkLevel null mk left as ps).map addr = as := by
  intro as
  induction as with
  | nil => intro ps left _; rfl
  | cons a as ih =>
    intro ps left h
    cases ps with
    | nil => simp at h
    | cons p ps => rw [linkLevel, List.map_cons, haddr, ih (by simpa using h)]

theorem mem_linkLevel {A ι β : Type} {null : A} {mk : A → A → A → ι → β} {b : β} :
    ∀ {as : List A} {ps : List ι} {left : A}, b ∈ linkLevel null mk left as ps →
      ∃ l r a p, (a, p) ∈ as.zip ps ∧ b = mk l r a p := by
  intro as
  induction as with
  | nil => intro ps left h; simp [linkLevel] at h
  | cons a as ih =>
    intro ps left h
    cases ps with
    | nil => simp [linkLevel] at h
    | cons p ps =>
      rw [linkLevel, List.mem_cons] at h
      rcases h with rfl | h
      · exact ⟨left, _, a, p, by simp, rfl⟩
      · obtain ⟨l, r, a', p', hm, he⟩ := ih h
        exact ⟨l, r, a', p', by simp [hm], he⟩

/-- What holds of every node made from an address and its items holds pointwise. -/
theorem forall₂_linkLevel {A ι β : Type} {null : A} {mk : A → A → A → ι → β} {Q : A → ι → Prop} :
    ∀ {as : List A} {ps : List ι} {left : A}, as.length = ps.length →
      (∀ l r a, ∀ p ∈ ps, mk l r a p ∈ linkLevel null mk left as ps → Q a p) →
      List.Forall₂ Q as ps := by
  intro as
  induction as with
  | nil =>
    intro ps left hlen _
    obtain rfl : ps = [] := List.length_eq_zero_iff.mp hlen.symm
    exact .nil
  | cons a as ih =>
    intro ps left hlen h
    cases ps with
    | nil => simp at hlen
    | cons p ps =>
      refine .cons (h left (as.headD null) a p List.mem_cons_self List.mem_cons_self) ?_
      exact ih (by simpa using hlen) fun l r a' p' hp hm =>
        h l r a' p' (List.mem_cons_of_mem _ hp) (List.mem_cons_of_mem _ hm)

/-! ## Traversal -/

/-- What a block of a tree holds: records, or the addresses of its children. -/
inductive Node (A R : Type) where
  | leaf (recs : List R)
  | node (children : List A)

/-- Put the traversals of several subtrees one after another. -/
def collectList {A B R : Type} (f : B → Option (List R × List A)) :
    List B → Option (List R × List A)
  | [] => some ([], [])
  | a :: as =>
      match f a, collectList f as with
      | some (rs, bs), some (rs', bs') => some (rs ++ rs', bs ++ bs')
      | _, _ => none

/-- The records under the block at `a`, `level` levels above the leaves, in order,
and the blocks of that subtree, each before its children. -/
def collect {A R : Type} (read : A → Nat → Option (Node A R)) :
    Nat → A → Option (List R × List A)
  | 0, a =>
      match read a 0 with
      | some (.leaf rs) => some (rs, [a])
      | _ => none
  | level + 1, a =>
      match read a (level + 1) with
      | some (.node cs) => (collectList (collect read level) cs).map fun p => (p.1, a :: p.2)
      | _ => none

section
variable {A B R : Type} {f : B → Option (List R × List A)}

theorem collectList_cons {a : B} {as : List B} {rs : List R} {bs : List A} :
    collectList f (a :: as) = some (rs, bs) ↔
      ∃ r b rs' bs', f a = some (r, b) ∧ collectList f as = some (rs', bs') ∧
        rs = r ++ rs' ∧ bs = b ++ bs' := by
  rw [collectList]
  cases f a with
  | none => simp
  | some p =>
    obtain ⟨r, b⟩ := p
    cases collectList f as with
    | none => simp
    | some q =>
      obtain ⟨r', b'⟩ := q
      simp [eq_comm]

theorem collectList_append {as as' : List B} {rs : List R} {bs : List A} :
    collectList f (as ++ as') = some (rs, bs) ↔
      ∃ r b r' b', collectList f as = some (r, b) ∧ collectList f as' = some (r', b') ∧
        rs = r ++ r' ∧ bs = b ++ b' := by
  induction as generalizing rs bs with
  | nil => simp [collectList, eq_comm]
  | cons a as ih =>
    rw [List.cons_append, collectList_cons]
    constructor
    · rintro ⟨r, b, rs', bs', ha, hrest, rfl, rfl⟩
      obtain ⟨r1, b1, r2, b2, h1, h2, rfl, rfl⟩ := ih.mp hrest
      exact ⟨r ++ r1, b ++ b1, r2, b2, collectList_cons.mpr ⟨r, b, r1, b1, ha, h1, rfl, rfl⟩,
        h2, by simp, by simp⟩
    · rintro ⟨r1, b1, r2, b2, h1, h2, rfl, rfl⟩
      obtain ⟨r, b, r1', b1', ha, h1', rfl, rfl⟩ := collectList_cons.mp h1
      exact ⟨r, b, r1' ++ r2, b1' ++ b2, ha, ih.mpr ⟨r1', b1', r2, b2, h1', h2, rfl, rfl⟩,
        by simp, by simp⟩

end

section
variable {A R : Type} {read : A → Nat → Option (Node A R)}

/-- A subtree's blocks include its own root. -/
theorem mem_of_collect {level : Nat} {a : A} {rs : List R} {bs : List A}
    (h : collect read level a = some (rs, bs)) : a ∈ bs := by
  cases level with
  | zero =>
    rw [collect] at h
    split at h
    · obtain ⟨_, rfl⟩ := Prod.mk.inj (Option.some.inj h)
      exact List.mem_singleton_self a
    · simp at h
  | succ level =>
    rw [collect] at h
    split at h
    · obtain ⟨p, _, hp⟩ := Option.map_eq_some_iff.mp h
      obtain ⟨_, rfl⟩ := Prod.mk.inj hp
      exact List.mem_cons_self
    · simp at h

/-- A level of leaves traverses to its records. -/
theorem collectList_leaves :
    ∀ {as : List A} {ps : List (List R)},
      List.Forall₂ (fun a p => read a 0 = some (.leaf p)) as ps →
      collectList (collect read 0) as = some (ps.flatten, as) := by
  intro as ps h
  induction h with
  | nil => rfl
  | @cons a p as ps hap _ ih =>
    rw [collectList_cons]
    exact ⟨p, [a], ps.flatten, as, by simp [collect, hap], ih, by simp, by simp⟩

/-- A level built over a traversable level traverses to the same records. -/
theorem collectList_nodes {level : Nat} :
    ∀ {as : List A} {ps : List (List A)} {rs : List R} {bs : List A},
      List.Forall₂ (fun a p => read a (level + 1) = some (.node p)) as ps →
      collectList (collect read level) ps.flatten = some (rs, bs) →
      ∃ bs', collectList (collect read (level + 1)) as = some (rs, bs') ∧
        bs'.Perm (as ++ bs) := by
  intro as ps rs bs h
  induction h generalizing rs bs with
  | nil =>
    intro hc
    simp only [List.flatten_nil, collectList, Option.some.injEq, Prod.mk.injEq] at hc
    exact ⟨[], by simp [collectList, hc.1], by simp [← hc.2]⟩
  | @cons a p as ps hap _ ih =>
    intro hc
    rw [List.flatten_cons, collectList_append] at hc
    obtain ⟨r, b, r', b', hp, hps, rfl, rfl⟩ := hc
    obtain ⟨bs', hrest, hperm⟩ := ih hps
    refine ⟨(a :: b) ++ bs', collectList_cons.mpr ⟨r, a :: b, r', bs', ?_, hrest, rfl, rfl⟩, ?_⟩
    · simp [collect, hap, hp]
    · rw [List.cons_append, List.cons_append]
      refine List.Perm.cons a ?_
      calc List.Perm (b ++ bs') (b ++ (as ++ b')) := hperm.append_left b
        List.Perm _ (as ++ (b ++ b')) := by
          rw [← List.append_assoc, ← List.append_assoc]
          exact List.perm_append_comm.append_right b'

end

/-! ## Building the upper levels -/

/-- The levels above `below`, `sizes` nodes in each, in the addresses `addrs`: the top
level's nodes as the one above would see them, and every block made. -/
def buildUp {A B K : Type} (null : A) (mk : Nat → A → A → A → List B → B × K) (addr : B → A) :
    Nat → List Nat → List A → List B → List B × List (A × K)
  | _, [], _, below => (below, [])
  | level, count :: sizes, addrs, below =>
      let parts := (spread below.length count).splitLengths below
      let built := linkLevel null (mk level) null (addrs.take count) parts
      let up := buildUp null mk addr (level + 1) sizes (addrs.drop count) (built.map (·.1))
      (up.1, built.map (fun b => (addr b.1, b.2)) ++ up.2)

section
variable {A B K R : Type} {null : A} {mk : Nat → A → A → A → List B → B × K} {addr : B → A}

/-- Each block goes to one of the addresses, and each address is used. -/
theorem addrs_buildUp (haddr : ∀ lvl l r a p, addr (mk lvl l r a p).1 = a) :
    ∀ {sizes : List Nat} {level : Nat} {addrs : List A} {below : List B},
      addrs.length = sizes.sum → (buildUp null mk addr level sizes addrs below).2.map (·.1) = addrs := by
  intro sizes
  induction sizes with
  | nil =>
    intro level addrs below h
    simp only [buildUp, List.map_nil]
    exact (List.length_eq_zero_iff.mp (by simpa using h)).symm
  | cons count sizes ih =>
    intro level addrs below h
    rw [List.sum_cons] at h
    have hlen : (addrs.take count).length =
        ((spread below.length count).splitLengths below).length := by
      rw [List.length_take, List.length_splitLengths, length_spread]
      omega
    simp only [buildUp, List.map_append, List.map_map]
    rw [ih (by rw [List.length_drop]; omega)]
    have hl := @addrs_linkLevel _ _ _ null (mk level) (fun b => addr b.1) (haddr level) _ _ null hlen
    change (linkLevel null (mk level) null (addrs.take count) _).map (fun b => addr b.1) ++ _ = addrs
    rw [hl, List.take_append_drop]

/-- What holds of every node made over nodes it holds of, holds of the top level. -/
theorem good_buildUp {good : B → Prop} :
    ∀ {sizes : List Nat} {level : Nat} {addrs : List A} {below : List B},
      (∀ b ∈ below, good b) →
      (∀ lvl l r, ∀ a ∈ addrs, ∀ p, (∀ b ∈ p, good b) → good (mk lvl l r a p).1) →
      ∀ b ∈ (buildUp null mk addr level sizes addrs below).1, good b := by
  intro sizes
  induction sizes with
  | nil => intro level addrs below h _ b hb; exact h b hb
  | cons count sizes ih =>
    intro level addrs below h hgood
    refine ih (fun b hb => ?_) fun lvl l r a ha => hgood lvl l r a (List.mem_of_mem_drop ha)
    obtain ⟨x, hx, rfl⟩ := List.mem_map.mp hb
    obtain ⟨l, r, a, p, hap, rfl⟩ := mem_linkLevel hx
    obtain ⟨ha, hp⟩ := List.of_mem_zip hap
    exact hgood _ l r a (List.mem_of_mem_take ha) p fun b hb =>
      h b (mem_of_mem_splitLengths hp hb)

/-- The top level is small enough, and not empty over a level that is not. -/
theorem length_buildUp {stop cap : Nat} (hcap : 0 < cap) :
    ∀ {fuel level : Nat} {sizes : List Nat} {addrs : List A} {below : List B},
      levelsAbove stop cap fuel below.length = some sizes → addrs.length = sizes.sum →
      (buildUp null mk addr level sizes addrs below).1.length ≤ stop ∧
        (0 < below.length → 0 < (buildUp null mk addr level sizes addrs below).1.length) := by
  intro fuel
  induction fuel with
  | zero =>
    intro level sizes addrs below hlv hlen
    unfold levelsAbove at hlv
    split at hlv
    · rename_i hb
      obtain rfl : [] = sizes := by simpa using hlv
      exact ⟨hb, id⟩
    · simp at hlv
  | succ fuel ih =>
    intro level sizes addrs below hlv hlen
    unfold levelsAbove at hlv
    split at hlv
    · rename_i hb
      obtain rfl : [] = sizes := by simpa using hlv
      exact ⟨hb, id⟩
    · rename_i hb
      obtain ⟨rest, hr, rfl⟩ := Option.map_eq_some_iff.mp hlv
      rw [List.sum_cons] at hlen
      have hnew : ((linkLevel null (mk level) null (addrs.take (divCeil below.length cap))
          ((spread below.length (divCeil below.length cap)).splitLengths below)).map
            (·.1)).length = divCeil below.length cap := by
        rw [List.length_map, length_linkLevel]
        · rw [List.length_take]
          omega
        · rw [List.length_take, List.length_splitLengths, length_spread]
          omega
      have hpos : 0 < divCeil below.length cap := divCeil_pos hcap (by omega)
      obtain ⟨hle, hne⟩ := @ih (level + 1) rest (addrs.drop (divCeil below.length cap)) _
        (by rw [hnew]; exact hr) (by rw [List.length_drop]; omega)
      exact ⟨hle, fun _ => hne (by omega)⟩

/-- What holds of every node made over few enough good ones holds of every block. -/
theorem blocks_buildUp {good : B → Prop} {P : K → Prop} {stop cap : Nat} (hcap : 0 < cap) :
    ∀ {fuel level : Nat} {sizes : List Nat} {addrs : List A} {below : List B},
      levelsAbove stop cap fuel below.length = some sizes → addrs.length = sizes.sum →
      (∀ b ∈ below, good b) →
      (∀ lvl l r, ∀ a ∈ addrs, ∀ p, (∀ b ∈ p, good b) → p.length ≤ cap →
        good (mk lvl l r a p).1 ∧ P (mk lvl l r a p).2) →
      ∀ x ∈ (buildUp null mk addr level sizes addrs below).2, P x.2 := by
  intro fuel
  induction fuel with
  | zero =>
    intro level sizes addrs below hlv _ _ _ x hx
    unfold levelsAbove at hlv
    split at hlv
    · obtain rfl : [] = sizes := by simpa using hlv
      simp [buildUp] at hx
    · simp at hlv
  | succ fuel ih =>
    intro level sizes addrs below hlv hlen hbelow hmk x hx
    unfold levelsAbove at hlv
    split at hlv
    · obtain rfl : [] = sizes := by simpa using hlv
      simp [buildUp] at hx
    rename_i hb
    obtain ⟨rest, hr, rfl⟩ := Option.map_eq_some_iff.mp hlv
    rw [List.sum_cons] at hlen
    have hparts := @length_le_of_mem_splitLengths_spread _ below _ _ (le_divCeil_mul hcap)
    have hnew : ((linkLevel null (mk level) null (addrs.take (divCeil below.length cap))
        ((spread below.length (divCeil below.length cap)).splitLengths below)).map
          (·.1)).length = divCeil below.length cap := by
      rw [List.length_map, length_linkLevel]
      · rw [List.length_take]
        omega
      · rw [List.length_take, List.length_splitLengths, length_spread]
        omega
    have hlevel : ∀ y ∈ linkLevel null (mk level) null (addrs.take (divCeil below.length cap))
        ((spread below.length (divCeil below.length cap)).splitLengths below),
        good y.1 ∧ P y.2 := by
      intro y hy
      obtain ⟨l, r, a, p, hap, rfl⟩ := mem_linkLevel hy
      obtain ⟨ha, hp⟩ := List.of_mem_zip hap
      exact hmk level l r a (List.mem_of_mem_take ha) p
        (fun b hb => hbelow b (mem_of_mem_splitLengths hp hb)) (hparts hp)
    simp only [buildUp] at hx
    rcases List.mem_append.mp hx with hx | hx
    · obtain ⟨y, hy, rfl⟩ := List.mem_map.mp hx
      exact (hlevel y hy).2
    · refine ih (by rw [hnew]; exact hr) (by rw [List.length_drop]; omega) (fun b hb => ?_)
        (fun lvl l r a ha => hmk lvl l r a (List.mem_of_mem_drop ha)) x hx
      obtain ⟨y, hy, rfl⟩ := List.mem_map.mp hb
      exact (hlevel y hy).1

/-- Levels built over a traversable one are traversable, to the same records, and their
blocks are the new addresses and the old blocks. -/
theorem collect_buildUp {read : A → Nat → Option (Node A R)} {good : B → Prop} {stop cap : Nat}
    (hcap : 0 < cap) (haddr : ∀ lvl l r a p, addr (mk lvl l r a p).1 = a) :
    ∀ {fuel level : Nat} {sizes : List Nat} {addrs : List A} {below : List B} {rs : List R}
      {bs : List A}, levelsAbove stop cap fuel below.length = some sizes → 0 < stop →
      addrs.length = sizes.sum → (∀ b ∈ below, good b) →
      (∀ lvl l r, ∀ a ∈ addrs, ∀ p, (∀ b ∈ p, good b) → good (mk lvl l r a p).1) →
      (∀ lvl l r a p, (∀ b ∈ p, good b) → p.length ≤ cap → level < lvl →
        lvl ≤ level + sizes.length →
        (a, (mk lvl l r a p).2) ∈ (buildUp null mk addr (level + 1) sizes addrs below).2 →
        read a lvl = some (.node (p.map addr))) →
      collectList (collect read level) (below.map addr) = some (rs, bs) →
      ∃ bs', collectList (collect read (level + sizes.length))
          ((buildUp null mk addr (level + 1) sizes addrs below).1.map addr) = some (rs, bs') ∧
        bs'.Perm (addrs ++ bs) := by
  intro fuel
  induction fuel with
  | zero =>
    intro level sizes addrs below rs bs hlv _ hlen _ _ _ hc
    unfold levelsAbove at hlv
    split at hlv
    · obtain rfl : [] = sizes := by simpa using hlv
      obtain rfl : addrs = [] := List.length_eq_zero_iff.mp (by simpa using hlen)
      exact ⟨bs, hc, .refl _⟩
    · simp at hlv
  | succ fuel ih =>
    intro level sizes addrs below rs bs hlv hstop hlen hbelow hgood hread hc
    unfold levelsAbove at hlv
    split at hlv
    · obtain rfl : [] = sizes := by simpa using hlv
      obtain rfl : addrs = [] := List.length_eq_zero_iff.mp (by simpa using hlen)
      exact ⟨bs, hc, .refl _⟩
    · rename_i hb
      obtain ⟨rest, hr, rfl⟩ := Option.map_eq_some_iff.mp hlv
      generalize hcount : divCeil below.length cap = count at hr hread hlen ⊢
      have hpos : 0 < count := hcount ▸ divCeil_pos hcap (by omega)
      have henough : below.length ≤ count * cap := hcount ▸ le_divCeil_mul hcap
      rw [List.sum_cons] at hlen
      have hlen1 : (addrs.take count).length =
          ((spread below.length count).splitLengths below).length := by
        rw [List.length_take, List.length_splitLengths, length_spread]
        omega
      generalize hparts : (spread below.length count).splitLengths below = parts at hlen1
      simp only [buildUp, hparts] at hread ⊢
      have hpart : ∀ p ∈ parts, ∀ b ∈ p, b ∈ below := fun p hp b hb =>
        mem_of_mem_splitLengths (hparts ▸ hp) hb
      generalize hbuilt : linkLevel null (mk (level + 1)) null (addrs.take count) parts = built
        at hread ⊢
      have hnew : ∀ b ∈ built.map (·.1), good b := by
        intro b hb
        obtain ⟨x, hx, rfl⟩ := List.mem_map.mp hb
        obtain ⟨l, r, a, p, hap, rfl⟩ := mem_linkLevel (hbuilt ▸ hx)
        obtain ⟨ha, hp⟩ := List.of_mem_zip hap
        exact hgood _ l r a (List.mem_of_mem_take ha) p fun b hb => hbelow b (hpart p hp b hb)
      have hbaddr : (built.map (·.1)).map addr = addrs.take count := by
        rw [List.map_map, ← hbuilt]
        exact @addrs_linkLevel _ _ _ null (mk (level + 1)) (fun b => addr b.1) (haddr _) _ _ null hlen1
      -- The new level reads as nodes over the parts of the old one.
      have hlevel : List.Forall₂ (fun a p => read a (level + 1) = some (.node p))
          (addrs.take count) (parts.map (·.map addr)) := by
        rw [List.forall₂_map_right_iff]
        refine @forall₂_linkLevel _ _ _ null (mk (level + 1)) _ _ _ null hlen1 fun l r a p hp hm => ?_
        refine hread (level + 1) l r a p ?_ ?_ (by omega) (by simp) ?_
        · exact fun b hb => hbelow b (hpart p hp b hb)
        · exact length_le_of_mem_splitLengths_spread henough (hparts ▸ hp)
        · refine List.mem_append_left _ (List.mem_map.mpr ⟨_, hbuilt ▸ hm, ?_⟩)
          rw [haddr]
      have hflat : (parts.map (·.map addr)).flatten = below.map addr := by
        rw [← List.map_flatten, ← hparts, flatten_splitLengths_spread _ hpos]
      obtain ⟨bs1, hc1, hp1⟩ := collectList_nodes hlevel (hflat ▸ hc)
      have hblen : (built.map (·.1)).length = count := by
        have := congrArg List.length hbaddr
        rw [List.length_map, List.length_take] at this
        omega
      obtain ⟨bs', hc', hp'⟩ := ih (by rw [hblen]; exact hr) hstop
        (by rw [List.length_drop]; omega) hnew
        (fun lvl l r a ha => hgood lvl l r a (List.mem_of_mem_drop ha))
        (fun lvl l r a p hg hp h1 h2 hm => hread lvl l r a p hg hp (by omega)
          (by rw [List.length_cons]; omega) (List.mem_append_right _ hm))
        (hbaddr ▸ hc1)
      refine ⟨bs', ?_, ?_⟩
      · rw [List.length_cons, show level + (rest.length + 1) = level + 1 + rest.length by omega]
        exact hc'
      · refine hp'.trans ?_
        calc List.Perm (addrs.drop count ++ bs1) (addrs.drop count ++ (addrs.take count ++ bs)) :=
              hp1.append_left _
          List.Perm _ (addrs ++ bs) := by
              rw [← List.append_assoc]
              refine List.Perm.append_right bs ?_
              exact List.perm_append_comm.trans (by rw [List.take_append_drop])

end

/-! ## Building a tree whole -/

/-- A tree over `items`: a level of `leaves` leaves, then the levels above, `sizes`
nodes in each.  The top level's nodes as a root would see them, and every block. -/
def buildTree {A B K ι : Type} (null : A) (mkLeaf : A → A → A → List ι → B × K)
    (mk : Nat → A → A → A → List B → B × K) (addr : B → A) (leaves : Nat) (sizes : List Nat)
    (addrs : List A) (items : List ι) : List B × List (A × K) :=
  let parts := (spread items.length leaves).splitLengths items
  let built := linkLevel null mkLeaf null (addrs.take leaves) parts
  let up := buildUp null mk addr 1 sizes (addrs.drop leaves) (built.map (·.1))
  (up.1, built.map (fun b => (addr b.1, b.2)) ++ up.2)

section
variable {A B K R ι : Type} {null : A} {mkLeaf : A → A → A → List ι → B × K}
  {mk : Nat → A → A → A → List B → B × K} {addr : B → A} {leaves : Nat} {sizes : List Nat}
  {addrs : List A} {items : List ι}

/-- A tree takes exactly the addresses it is given. -/
theorem addrs_buildTree (hleaf : ∀ l r a p, addr (mkLeaf l r a p).1 = a)
    (haddr : ∀ lvl l r a p, addr (mk lvl l r a p).1 = a)
    (hlen : addrs.length = leaves + sizes.sum) :
    (buildTree null mkLeaf mk addr leaves sizes addrs items).2.map (·.1) = addrs := by
  have hlen1 : (addrs.take leaves).length =
      ((spread items.length leaves).splitLengths items).length := by
    rw [List.length_take, List.length_splitLengths, length_spread]
    omega
  have hl := @addrs_linkLevel _ _ _ null mkLeaf (fun b => addr b.1) hleaf _ _ null hlen1
  simp only [buildTree, List.map_append, List.map_map]
  rw [addrs_buildUp haddr (by rw [List.length_drop]; omega)]
  change (linkLevel null mkLeaf null (addrs.take leaves) _).map (fun b => addr b.1) ++ _ = addrs
  rw [hl, List.take_append_drop]

theorem length_leafLevel (h : leaves ≤ addrs.length) :
    ((linkLevel null mkLeaf null (addrs.take leaves)
      ((spread items.length leaves).splitLengths items)).map (·.1)).length = leaves := by
  rw [List.length_map, length_linkLevel]
  · rw [List.length_take]
    omega
  · rw [List.length_take, List.length_splitLengths, length_spread]
    omega

/-- With no level above them, the leaves are the top level. -/
theorem length_buildTree_nil (h : leaves ≤ addrs.length) :
    (buildTree null mkLeaf mk addr leaves [] addrs items).1.length = leaves :=
  length_leafLevel h

/-- The top level of a tree is small enough, and not empty. -/
theorem length_buildTree {stop cap fuel : Nat} (hcap : 0 < cap) (hpos : 0 < leaves)
    (hlv : levelsAbove stop cap fuel leaves = some sizes)
    (hlen : addrs.length = leaves + sizes.sum) :
    (buildTree null mkLeaf mk addr leaves sizes addrs items).1.length ≤ stop ∧
      0 < (buildTree null mkLeaf mk addr leaves sizes addrs items).1.length := by
  have hbuilt := @length_leafLevel _ _ _ _ null mkLeaf _ addrs items (show leaves ≤ _ by omega)
  obtain ⟨hle, hne⟩ := @length_buildUp _ _ _ null mk addr stop cap hcap fuel 1 sizes
    (addrs.drop leaves) _ (by rw [hbuilt]; exact hlv) (by rw [List.length_drop]; omega)
  exact ⟨hle, hne (by omega)⟩

/-- What holds of every leaf, and of every node over nodes it holds of, holds of the top. -/
theorem good_buildTree {good : B → Prop}
    (hleaf : ∀ l r, ∀ a ∈ addrs, ∀ p, (∀ i ∈ p, i ∈ items) → good (mkLeaf l r a p).1)
    (hgood : ∀ lvl l r, ∀ a ∈ addrs, ∀ p, (∀ b ∈ p, good b) → good (mk lvl l r a p).1) :
    ∀ b ∈ (buildTree null mkLeaf mk addr leaves sizes addrs items).1, good b := by
  refine good_buildUp (fun b hb => ?_) fun lvl l r a ha => hgood lvl l r a (List.mem_of_mem_drop ha)
  obtain ⟨x, hx, rfl⟩ := List.mem_map.mp hb
  obtain ⟨l, r, a, p, hap, rfl⟩ := mem_linkLevel hx
  obtain ⟨ha, hp⟩ := List.of_mem_zip hap
  exact hleaf l r a (List.mem_of_mem_take ha) p fun i hi => mem_of_mem_splitLengths hp hi

/-- What holds of every leaf over few enough items, and of every node over few enough good
ones, holds of every block. -/
theorem blocks_buildTree {good : B → Prop} {P : K → Prop} {stop cap leafCap fuel : Nat}
    (hcap : 0 < cap) (henough : items.length ≤ leaves * leafCap)
    (hlv : levelsAbove stop cap fuel leaves = some sizes)
    (hlen : addrs.length = leaves + sizes.sum)
    (hleaf : ∀ l r, ∀ a ∈ addrs, ∀ p, (∀ i ∈ p, i ∈ items) → p.length ≤ leafCap →
      good (mkLeaf l r a p).1 ∧ P (mkLeaf l r a p).2)
    (hmk : ∀ lvl l r, ∀ a ∈ addrs, ∀ p, (∀ b ∈ p, good b) → p.length ≤ cap →
      good (mk lvl l r a p).1 ∧ P (mk lvl l r a p).2) :
    ∀ x ∈ (buildTree null mkLeaf mk addr leaves sizes addrs items).2, P x.2 := by
  have hlevel : ∀ y ∈ linkLevel null mkLeaf null (addrs.take leaves)
      ((spread items.length leaves).splitLengths items), good y.1 ∧ P y.2 := by
    intro y hy
    obtain ⟨l, r, a, p, hap, rfl⟩ := mem_linkLevel hy
    obtain ⟨ha, hp⟩ := List.of_mem_zip hap
    exact hleaf l r a (List.mem_of_mem_take ha) p (fun i hi => mem_of_mem_splitLengths hp hi)
      (length_le_of_mem_splitLengths_spread henough hp)
  have hbuilt := @length_leafLevel _ _ _ _ null mkLeaf _ addrs items (show leaves ≤ _ by omega)
  intro x hx
  simp only [buildTree] at hx
  rcases List.mem_append.mp hx with hx | hx
  · obtain ⟨y, hy, rfl⟩ := List.mem_map.mp hx
    exact (hlevel y hy).2
  · refine blocks_buildUp hcap (by rw [hbuilt]; exact hlv) (by rw [List.length_drop]; omega)
      (fun b hb => ?_) (fun lvl l r a ha => hmk lvl l r a (List.mem_of_mem_drop ha)) x hx
    obtain ⟨y, hy, rfl⟩ := List.mem_map.mp hb
    exact (hlevel y hy).1

/-- A tree whose blocks read back as they were made traverses, from the nodes of its
top level, to the items it was built over, through exactly the addresses it was given. -/
theorem collect_buildTree {read : A → Nat → Option (Node A R)} {good : B → Prop} {f : ι → R}
    {stop cap leafCap fuel : Nat} (hcap : 0 < cap) (hstop : 0 < stop) (hpos : 0 < leaves)
    (henough : items.length ≤ leaves * leafCap)
    (hleaf : ∀ l r a p, addr (mkLeaf l r a p).1 = a)
    (haddr : ∀ lvl l r a p, addr (mk lvl l r a p).1 = a)
    (hlv : levelsAbove stop cap fuel leaves = some sizes)
    (hlen : addrs.length = leaves + sizes.sum)
    (hgleaf : ∀ l r, ∀ a ∈ addrs, ∀ p, (∀ i ∈ p, i ∈ items) → good (mkLeaf l r a p).1)
    (hgood : ∀ lvl l r, ∀ a ∈ addrs, ∀ p, (∀ b ∈ p, good b) → good (mk lvl l r a p).1)
    (hrleaf : ∀ l r a p, (∀ i ∈ p, i ∈ items) → p.length ≤ leafCap →
      (a, (mkLeaf l r a p).2) ∈ (buildTree null mkLeaf mk addr leaves sizes addrs items).2 →
      read a 0 = some (.leaf (p.map f)))
    (hread : ∀ lvl l r a p, (∀ b ∈ p, good b) → p.length ≤ cap → 0 < lvl → lvl ≤ sizes.length →
      (a, (mk lvl l r a p).2) ∈ (buildTree null mkLeaf mk addr leaves sizes addrs items).2 →
      read a lvl = some (.node (p.map addr))) :
    ∃ bs, collectList (collect read sizes.length)
        ((buildTree null mkLeaf mk addr leaves sizes addrs items).1.map addr) =
          some (items.map f, bs) ∧ bs.Perm addrs := by
  have hlen1 : (addrs.take leaves).length =
      ((spread items.length leaves).splitLengths items).length := by
    rw [List.length_take, List.length_splitLengths, length_spread]
    omega
  have hflat := flatten_splitLengths_spread items hpos
  have hpart := fun p hp => @length_le_of_mem_splitLengths_spread _ items _ _ henough p hp
  simp only [buildTree] at hrleaf hread ⊢
  generalize (spread items.length leaves).splitLengths items = parts at *
  have hin : ∀ p ∈ parts, ∀ i ∈ p, i ∈ items := fun p hp i hi =>
    hflat ▸ List.mem_flatten.mpr ⟨p, hp, hi⟩
  generalize hbuilt : linkLevel null mkLeaf null (addrs.take leaves) parts = built at *
  have hbaddr : (built.map (·.1)).map addr = addrs.take leaves := by
    rw [List.map_map, ← hbuilt]
    exact @addrs_linkLevel _ _ _ null mkLeaf (fun b => addr b.1) hleaf _ _ null hlen1
  have hblen : (built.map (·.1)).length = leaves := by
    rw [← List.length_map addr, hbaddr, List.length_take]
    omega
  -- The leaves read as the parts of the items, so the level traverses to all of them.
  have hlevel : List.Forall₂ (fun a p => read a 0 = some (.leaf p))
      (addrs.take leaves) (parts.map (·.map f)) := by
    rw [List.forall₂_map_right_iff]
    refine @forall₂_linkLevel _ _ _ null mkLeaf _ _ _ null hlen1 fun l r a p hp hm => ?_
    refine hrleaf l r a p (hin p hp) (hpart p hp) (List.mem_append_left _ ?_)
    exact List.mem_map.mpr ⟨_, hbuilt ▸ hm, by rw [hleaf]⟩
  have hc := collectList_leaves hlevel
  rw [← List.map_flatten, hflat] at hc
  have hbelow : ∀ b ∈ built.map (·.1), good b := by
    intro b hb
    obtain ⟨x, hx, rfl⟩ := List.mem_map.mp hb
    obtain ⟨l, r, a, p, hap, rfl⟩ := mem_linkLevel (hbuilt ▸ hx)
    obtain ⟨ha, hp⟩ := List.of_mem_zip hap
    exact hgleaf l r a (List.mem_of_mem_take ha) p (hin p hp)
  obtain ⟨bs, hcol, hperm⟩ := @collect_buildUp _ _ _ _ null mk addr read good stop cap
    hcap haddr fuel 0 sizes (addrs.drop leaves) (built.map (·.1)) _ _ (by rw [hblen]; exact hlv)
    hstop (by rw [List.length_drop]; omega) hbelow
    (fun lvl l r a ha => hgood lvl l r a (List.mem_of_mem_drop ha))
    (fun lvl l r a p hg hp h1 h2 hm => hread lvl l r a p hg hp h1 (by omega)
      (List.mem_append_right _ hm))
    (by rw [hbaddr]; exact hc)
  rw [Nat.zero_add] at hcol
  refine ⟨bs, hcol, hperm.trans ?_⟩
  exact List.perm_append_comm.trans (by rw [List.take_append_drop])

end

end FioXfs.Lib
