import Mathlib.Algebra.BigOperators.Group.List.Basic
import Mathlib.Algebra.GroupWithZero.Nat
import Mathlib.Data.List.Nodup
import Mathlib.Data.List.Sort
import Mathlib.Data.Prod.Lex
import Mathlib.Tactic.SplitIfs
set_option autoImplicit false

/-!
# Lib: ordered maps

A map as the list of its entries in increasing key order, with the order carried
as a field: what a balanced tree offers a program through `insert`, `remove`,
range queries and in-order iteration, without the balancing.  The lemmas are
about membership, and about a measure summed over the entries (`weight`), which an
insertion adds to and a removal takes from.
-/

namespace FioXfs.Lib

/-- Put `(k, v)` into an entry list ordered by key, replacing an entry at `k`. -/
def insertEntry {κ ν : Type} [LinearOrder κ] (k : κ) (v : ν) : List (κ × ν) → List (κ × ν)
  | [] => [(k, v)]
  | e :: es =>
      if k < e.1 then (k, v) :: e :: es
      else if k = e.1 then (k, v) :: es
      else e :: insertEntry k v es

/-- A map kept as its entries in increasing key order. -/
structure OrdMap (κ ν : Type) [LinearOrder κ] where
  /-- The entries, in order. -/
  entries : List (κ × ν)
  /-- Keys increase, so no key occurs twice. -/
  sorted : entries.Pairwise fun a b => a.1 < b.1

namespace OrdMap

variable {κ ν : Type} [LinearOrder κ]

instance [DecidableEq ν] : DecidableEq (OrdMap κ ν) := fun a b =>
  decidable_of_iff (a.entries = b.entries) (by cases a; cases b; simp)

theorem ext_entries {a b : OrdMap κ ν} (h : a.entries = b.entries) : a = b := by
  cases a; cases b; simp_all

/-! ## Inserting into a list of entries -/

theorem mem_insertEntry {k : κ} {v : ν} {x : κ × ν} {es : List (κ × ν)}
    (hs : es.Pairwise fun a b => a.1 < b.1) :
    x ∈ insertEntry k v es ↔ x = (k, v) ∨ (x ∈ es ∧ x.1 ≠ k) := by
  induction es with
  | nil => simp [insertEntry]
  | cons e es ih =>
    have hhead : ∀ y ∈ es, e.1 < y.1 := fun y hy => List.rel_of_pairwise_cons hs hy
    unfold insertEntry
    split_ifs with h1 h2
    · have hne : ∀ y ∈ e :: es, y.1 ≠ k := by
        intro y hy
        rcases List.mem_cons.mp hy with rfl | hy
        · exact ne_of_gt h1
        · exact ne_of_gt (h1.trans (hhead y hy))
      rw [List.mem_cons]
      constructor
      · rintro (h | h)
        · exact Or.inl h
        · exact Or.inr ⟨h, hne x h⟩
      · rintro (h | h)
        · exact Or.inl h
        · exact Or.inr h.1
    · have hne : ∀ y ∈ es, y.1 ≠ k := fun y hy => h2 ▸ ne_of_gt (hhead y hy)
      simp only [List.mem_cons]
      constructor
      · rintro (h | h)
        · exact Or.inl h
        · exact Or.inr ⟨Or.inr h, hne x h⟩
      · rintro (h | ⟨h | h, hk⟩)
        · exact Or.inl h
        · exact absurd (by rw [h, h2]) hk
        · exact Or.inr h
    · simp only [List.mem_cons, ih hs.of_cons]
      constructor
      · rintro (h | h | h)
        · exact Or.inr ⟨Or.inl h, by rw [h]; exact Ne.symm h2⟩
        · exact Or.inl h
        · exact Or.inr ⟨Or.inr h.1, h.2⟩
      · rintro (h | ⟨h | h, hk⟩)
        · exact Or.inr (Or.inl h)
        · exact Or.inl h
        · exact Or.inr (Or.inr ⟨h, hk⟩)

theorem sorted_insertEntry {k : κ} {v : ν} {es : List (κ × ν)}
    (hs : es.Pairwise fun a b => a.1 < b.1) :
    (insertEntry k v es).Pairwise fun a b => a.1 < b.1 := by
  induction es with
  | nil => simp [insertEntry]
  | cons e es ih =>
    have hhead : ∀ y ∈ es, e.1 < y.1 := fun y hy => List.rel_of_pairwise_cons hs hy
    unfold insertEntry
    split_ifs with h1 h2
    · refine List.pairwise_cons.mpr ⟨?_, hs⟩
      intro y hy
      rcases List.mem_cons.mp hy with rfl | hy
      · exact h1
      · exact h1.trans (hhead y hy)
    · exact List.pairwise_cons.mpr ⟨fun y hy => h2 ▸ hhead y hy, hs.of_cons⟩
    · refine List.pairwise_cons.mpr ⟨?_, ih hs.of_cons⟩
      intro y hy
      rcases (mem_insertEntry hs.of_cons).mp hy with rfl | hy
      · exact lt_of_le_of_ne (not_lt.mp h1) (Ne.symm h2)
      · exact hhead y hy.1

/-! ## Operations -/

/-- The empty map. -/
def empty : OrdMap κ ν := ⟨[], List.Pairwise.nil⟩

/-- Put `v` at `k`, replacing what was there. -/
def insert (m : OrdMap κ ν) (k : κ) (v : ν) : OrdMap κ ν :=
  ⟨insertEntry k v m.entries, sorted_insertEntry m.sorted⟩

/-- Keep the entries that pass a test. -/
def filter (m : OrdMap κ ν) (p : κ × ν → Bool) : OrdMap κ ν :=
  ⟨m.entries.filter p, m.sorted.filter p⟩

/-- Remove the entry at `k`. -/
def erase (m : OrdMap κ ν) (k : κ) : OrdMap κ ν := m.filter fun e => decide (e.1 ≠ k)

/-- The value at `k`. -/
def get? (m : OrdMap κ ν) (k : κ) : Option ν :=
  (m.entries.find? fun e => decide (e.1 = k)).map (·.2)

/-- The keys, in order. -/
def keys (m : OrdMap κ ν) : List κ := m.entries.map (·.1)

/-- The values, in key order. -/
def values (m : OrdMap κ ν) : List ν := m.entries.map (·.2)

/-- The last entry below `k`. -/
def lastBelow (m : OrdMap κ ν) (k : κ) : Option (κ × ν) :=
  (m.entries.filter fun e => decide (e.1 < k)).getLast?

/-- The last entry at or below `k`. -/
def lastUpTo (m : OrdMap κ ν) (k : κ) : Option (κ × ν) :=
  (m.entries.filter fun e => decide (e.1 ≤ k)).getLast?

/-- The entries at or after `k`, in order. -/
def entriesFrom (m : OrdMap κ ν) (k : κ) : List (κ × ν) :=
  m.entries.filter fun e => decide (k ≤ e.1)

/-- The entries before `k`, in order. -/
def entriesBelow (m : OrdMap κ ν) (k : κ) : List (κ × ν) :=
  m.entries.filter fun e => decide (e.1 < k)

/-- A map from a list of entries, later ones replacing earlier ones. -/
def ofList (es : List (κ × ν)) : OrdMap κ ν := es.foldl (fun m e => m.insert e.1 e.2) empty

/-! ## Membership -/

@[simp] theorem mem_insert {m : OrdMap κ ν} {k : κ} {v : ν} {x : κ × ν} :
    x ∈ (m.insert k v).entries ↔ x = (k, v) ∨ (x ∈ m.entries ∧ x.1 ≠ k) :=
  mem_insertEntry m.sorted

@[simp] theorem mem_filter {m : OrdMap κ ν} {p : κ × ν → Bool} {x : κ × ν} :
    x ∈ (m.filter p).entries ↔ x ∈ m.entries ∧ p x = true := by
  simp [filter]

@[simp] theorem mem_erase {m : OrdMap κ ν} {k : κ} {x : κ × ν} :
    x ∈ (m.erase k).entries ↔ x ∈ m.entries ∧ x.1 ≠ k := by
  simp [erase]

@[simp] theorem not_mem_empty {x : κ × ν} : x ∉ (empty : OrdMap κ ν).entries := by
  simp [empty]

/-- A key has one value. -/
theorem eq_of_fst_eq {m : OrdMap κ ν} {a b : κ × ν} (ha : a ∈ m.entries)
    (hb : b ∈ m.entries) (h : a.1 = b.1) : a = b := by
  have hn : (m.entries.map (·.1)).Nodup :=
    List.pairwise_map.mpr (m.sorted.imp fun h => ne_of_lt h)
  exact List.inj_on_of_nodup_map hn ha hb h

theorem mem_entriesFrom {m : OrdMap κ ν} {k : κ} {x : κ × ν} :
    x ∈ m.entriesFrom k ↔ x ∈ m.entries ∧ k ≤ x.1 := by
  simp [entriesFrom]

theorem mem_entriesBelow {m : OrdMap κ ν} {k : κ} {x : κ × ν} :
    x ∈ m.entriesBelow k ↔ x ∈ m.entries ∧ x.1 < k := by
  simp [entriesBelow]

/-- The last of an ordered list is at or after every other. -/
theorem le_of_getLast?_eq_some {es : List (κ × ν)} {x y : κ × ν}
    (hs : es.Pairwise fun a b => a.1 < b.1) (hl : es.getLast? = some x) (hy : y ∈ es) :
    y.1 ≤ x.1 := by
  obtain ⟨init, rfl⟩ := List.getLast?_eq_some_iff.mp hl
  rcases List.mem_append.mp hy with h | h
  · exact le_of_lt ((List.pairwise_append.mp hs).2.2 y h x (List.mem_singleton_self x))
  · exact le_of_eq (by rw [List.mem_singleton.mp h])

theorem lastBelow_eq_some {m : OrdMap κ ν} {k : κ} {x : κ × ν} (h : m.lastBelow k = some x) :
    x ∈ m.entries ∧ x.1 < k ∧ ∀ y ∈ m.entries, y.1 < k → y.1 ≤ x.1 := by
  have hm := List.mem_of_getLast? h
  simp only [List.mem_filter, decide_eq_true_eq] at hm
  refine ⟨hm.1, hm.2, fun y hy hk => ?_⟩
  exact le_of_getLast?_eq_some (m.sorted.filter _) h (by simp [hy, hk])

theorem lastBelow_eq_none {m : OrdMap κ ν} {k : κ} (h : m.lastBelow k = none) :
    ∀ y ∈ m.entries, k ≤ y.1 := by
  intro y hy
  rw [lastBelow, List.getLast?_eq_none_iff, List.filter_eq_nil_iff] at h
  simpa using h y hy

theorem lastUpTo_eq_some {m : OrdMap κ ν} {k : κ} {x : κ × ν} (h : m.lastUpTo k = some x) :
    x ∈ m.entries ∧ x.1 ≤ k ∧ ∀ y ∈ m.entries, y.1 ≤ k → y.1 ≤ x.1 := by
  have hm := List.mem_of_getLast? h
  simp only [List.mem_filter, decide_eq_true_eq] at hm
  refine ⟨hm.1, hm.2, fun y hy hk => ?_⟩
  exact le_of_getLast?_eq_some (m.sorted.filter _) h (by simp [hy, hk])

theorem lastUpTo_eq_none {m : OrdMap κ ν} {k : κ} (h : m.lastUpTo k = none) :
    ∀ y ∈ m.entries, k < y.1 := by
  intro y hy
  rw [lastUpTo, List.getLast?_eq_none_iff, List.filter_eq_nil_iff] at h
  simpa using h y hy

/-- The first entry at or after `k` comes before every other such entry. -/
theorem le_of_head?_entriesFrom {m : OrdMap κ ν} {k : κ} {x y : κ × ν}
    (h : (m.entriesFrom k).head? = some x) (hy : y ∈ m.entries) (hk : k ≤ y.1) :
    x.1 ≤ y.1 := by
  have hs : (m.entriesFrom k).Pairwise fun a b => a.1 < b.1 := m.sorted.filter _
  have hy' : y ∈ m.entriesFrom k := mem_entriesFrom.mpr ⟨hy, hk⟩
  cases hl : m.entriesFrom k with
  | nil => simp [hl] at h
  | cons a t =>
    rw [hl] at h hs hy'
    obtain rfl : a = x := by simpa using h
    rcases List.mem_cons.mp hy' with rfl | ht
    · exact le_refl _
    · exact le_of_lt (List.rel_of_pairwise_cons hs ht)

/-! ## Building in order -/

/-- Two maps with the same entries are the same. -/
theorem ext_mem {a b : OrdMap κ ν} (h : ∀ x, x ∈ a.entries ↔ x ∈ b.entries) : a = b := by
  have hnodup : ∀ m : OrdMap κ ν, m.entries.Nodup := fun m =>
    m.sorted.imp fun hlt heq => absurd (heq ▸ hlt) (lt_irrefl _)
  have hperm : a.entries.Perm b.entries :=
    (List.perm_ext_iff_of_nodup (hnodup a) (hnodup b)).mpr h
  exact ext_entries (hperm.eq_of_pairwise
    (fun x y _ _ h1 h2 => absurd h1 (lt_asymm h2)) a.sorted b.sorted)

theorem get?_eq_some {m : OrdMap κ ν} {k : κ} {v : ν} :
    m.get? k = some v ↔ (k, v) ∈ m.entries := by
  unfold get?
  rw [Option.map_eq_some_iff]
  constructor
  · rintro ⟨⟨k', v'⟩, hfind, rfl⟩
    have hk := List.find?_some hfind
    simp only [decide_eq_true_eq] at hk
    subst hk
    exact List.mem_of_find?_eq_some hfind
  · intro hmem
    cases hfind : m.entries.find? fun e => decide (e.1 = k) with
    | none => simpa using List.find?_eq_none.mp hfind _ hmem
    | some e =>
        have hk := List.find?_some hfind
        simp only [decide_eq_true_eq] at hk
        have := eq_of_fst_eq (List.mem_of_find?_eq_some hfind) hmem hk
        exact ⟨e, rfl, by rw [this]⟩

theorem get?_eq_none {m : OrdMap κ ν} {k : κ} :
    m.get? k = none ↔ ∀ x ∈ m.entries, x.1 ≠ k := by
  unfold get?
  simp [List.find?_eq_none]

@[simp] theorem get?_insert (m : OrdMap κ ν) (k k' : κ) (v : ν) :
    (m.insert k v).get? k' = if k' = k then some v else m.get? k' := by
  by_cases hk : k' = k
  · rw [if_pos hk, get?_eq_some, mem_insert, hk]
    exact Or.inl rfl
  · rw [if_neg hk]
    cases hm : m.get? k' with
    | none =>
        rw [get?_eq_none] at hm ⊢
        intro x hx
        rcases mem_insert.mp hx with rfl | ⟨hx, _⟩
        · exact fun heq => hk heq.symm
        · exact hm x hx
    | some w =>
        rw [get?_eq_some] at hm ⊢
        exact mem_insert.mpr (Or.inr ⟨hm, hk⟩)

theorem insertEntry_last {k : κ} {v : ν} {es : List (κ × ν)} (h : ∀ x ∈ es, x.1 < k) :
    insertEntry k v es = es ++ [(k, v)] := by
  induction es with
  | nil => rfl
  | cons e es ih =>
    have he := h e List.mem_cons_self
    rw [insertEntry, if_neg (not_lt.mpr (le_of_lt he)), if_neg (ne_of_gt he),
      ih fun x hx => h x (List.mem_cons_of_mem _ hx), List.cons_append]

/-- A key past every other goes to the end. -/
theorem entries_insert_last {m : OrdMap κ ν} {k : κ} {v : ν} (h : ∀ x ∈ m.entries, x.1 < k) :
    (m.insert k v).entries = m.entries ++ [(k, v)] := insertEntry_last h

theorem entries_foldl_insert : ∀ {es : List (κ × ν)} {m : OrdMap κ ν},
    (m.entries ++ es).Pairwise (fun a b => a.1 < b.1) →
    (es.foldl (fun m e => m.insert e.1 e.2) m).entries = m.entries ++ es := by
  intro es
  induction es with
  | nil => simp
  | cons e es ih =>
    intro m h
    have hlast : ∀ x ∈ m.entries, x.1 < e.1 := fun x hx =>
      (List.pairwise_append.mp h).2.2 x hx e List.mem_cons_self
    have hins := entries_insert_last (v := e.2) hlast
    rw [List.foldl_cons, ih (by rw [hins]; simpa using h), hins]
    simp

/-- A list already in order is the map's entries. -/
theorem entries_ofList {es : List (κ × ν)} (h : es.Pairwise fun a b => a.1 < b.1) :
    (ofList es).entries = es := by
  rw [ofList, entries_foldl_insert (by simpa [empty] using h)]
  simp [empty]

/-- A map of a list has entries of the list only. -/
theorem mem_of_mem_ofList {es : List (κ × ν)} {x : κ × ν} (h : x ∈ (ofList es).entries) : x ∈ es := by
  have hfold : ∀ {es : List (κ × ν)} {m : OrdMap κ ν},
      x ∈ (es.foldl (fun m e => m.insert e.1 e.2) m).entries → x ∈ m.entries ∨ x ∈ es := by
    intro es
    induction es with
    | nil => exact Or.inl
    | cons e es ih =>
      intro m hx
      rcases ih hx with hm | hes
      · rcases mem_insert.mp hm with rfl | ⟨hm, -⟩
        · exact Or.inr List.mem_cons_self
        · exact Or.inl hm
      · exact Or.inr (List.mem_cons_of_mem _ hes)
  exact (hfold h).resolve_left not_mem_empty

/-- An insertion puts its key between two parts of the keys, or finds it there. -/
theorem keys_insert (m : OrdMap κ ν) (k : κ) (v : ν) : (m.insert k v).keys = m.keys ∨
    ∃ l1 l2, m.keys = l1 ++ l2 ∧ (m.insert k v).keys = l1 ++ k :: l2 := by
  change (insertEntry k v m.entries).map (·.1) = m.entries.map (·.1) ∨
    ∃ l1 l2, m.entries.map (·.1) = l1 ++ l2 ∧ (insertEntry k v m.entries).map (·.1) = l1 ++ k :: l2
  induction m.entries with
  | nil => exact Or.inr ⟨[], [], rfl, rfl⟩
  | cons e es ih =>
    rw [insertEntry]
    split_ifs with h1 h2
    · exact Or.inr ⟨[], (e :: es).map (·.1), rfl, rfl⟩
    · exact Or.inl (by rw [List.map_cons, List.map_cons, h2])
    · rcases ih with h | ⟨l1, l2, h, h'⟩
      · exact Or.inl (by rw [List.map_cons, List.map_cons, h])
      · exact Or.inr ⟨e.1 :: l1, l2, by rw [List.map_cons, h, List.cons_append],
          by rw [List.map_cons, h', List.cons_append]⟩

/-! ## Sums over the entries -/

theorem perm_insert {m : OrdMap κ ν} {k : κ} {v : ν} (h : ∀ x ∈ m.entries, x.1 ≠ k) :
    (m.insert k v).entries.Perm ((k, v) :: m.entries) := by
  have nodup : ∀ m : OrdMap κ ν, m.entries.Nodup := fun m =>
    m.sorted.imp fun hab => by rintro rfl; exact lt_irrefl _ hab
  refine (List.perm_ext_iff_of_nodup (nodup _) (List.nodup_cons.mpr ⟨?_, nodup m⟩)).mpr ?_
  · intro hm
    exact h _ hm rfl
  · intro x
    rw [mem_insert, List.mem_cons]
    exact or_congr_right ⟨fun hx => hx.1, fun hx => ⟨hx, h x hx⟩⟩

theorem perm_erase {m : OrdMap κ ν} {e : κ × ν} (he : e ∈ m.entries) :
    m.entries.Perm (e :: (m.erase e.1).entries) := by
  have nodup : ∀ m : OrdMap κ ν, m.entries.Nodup := fun m =>
    m.sorted.imp fun hab => by rintro rfl; exact lt_irrefl _ hab
  refine (List.perm_ext_iff_of_nodup (nodup m) (List.nodup_cons.mpr ⟨by simp, nodup _⟩)).mpr ?_
  intro x
  rw [List.mem_cons, mem_erase]
  constructor
  · intro hx
    by_cases hk : x.1 = e.1
    · exact Or.inl (eq_of_fst_eq hx he hk)
    · exact Or.inr ⟨hx, hk⟩
  · rintro (rfl | hx)
    · exact he
    · exact hx.1

/-- A measure summed over the entries. -/
def weight (m : OrdMap κ ν) (f : κ × ν → Nat) : Nat := (m.entries.map f).sum

/-- A new entry adds its measure. -/
theorem weight_insert {m : OrdMap κ ν} {k : κ} {v : ν} (f : κ × ν → Nat)
    (h : ∀ x ∈ m.entries, x.1 ≠ k) : (m.insert k v).weight f = f (k, v) + m.weight f := by
  rw [weight, ((perm_insert h).map f).sum_eq, List.map_cons, List.sum_cons, weight]

/-- An entry taken out takes its measure along. -/
theorem weight_erase {m : OrdMap κ ν} {e : κ × ν} (f : κ × ν → Nat) (he : e ∈ m.entries) :
    m.weight f = f e + (m.erase e.1).weight f := by
  rw [weight, ((perm_erase he).map f).sum_eq, List.map_cons, List.sum_cons, weight]

theorem weight_one (m : OrdMap κ ν) : m.weight (fun _ => 1) = m.entries.length := by
  simp [weight]

theorem le_weight {m : OrdMap κ ν} {e : κ × ν} (f : κ × ν → Nat) (he : e ∈ m.entries) :
    f e ≤ m.weight f := by
  rw [weight_erase f he]
  exact Nat.le_add_right _ _

/-- Two entries weigh no more than all. -/
theorem add_le_weight {m : OrdMap κ ν} {a b : κ × ν} (f : κ × ν → Nat) (ha : a ∈ m.entries)
    (hb : b ∈ m.entries) (hne : a.1 ≠ b.1) : f a + f b ≤ m.weight f := by
  rw [weight_erase f ha]
  have hb' : b ∈ (m.erase a.1).entries := mem_erase.mpr ⟨hb, Ne.symm hne⟩
  have := le_weight f hb'
  omega

theorem exists_of_weight_pos {m : OrdMap κ ν} {f : κ × ν → Nat} (h : 0 < m.weight f) :
    ∃ e ∈ m.entries, 0 < f e := by
  by_contra hc
  have h0 : ∀ x ∈ m.entries.map f, x = 0 := by
    intro x hx
    obtain ⟨e, he, rfl⟩ := List.mem_map.mp hx
    by_contra hne
    exact hc ⟨e, he, Nat.pos_of_ne_zero hne⟩
  rw [weight, List.sum_eq_zero h0] at h
  exact lt_irrefl 0 h

/-- What a filter drops, it takes from the weight. -/
theorem weight_filter {m : OrdMap κ ν} (p : κ × ν → Bool) (f : κ × ν → Nat) :
    m.weight f = (m.filter p).weight f + m.weight fun e => if p e then 0 else f e := by
  change (m.entries.map f).sum = ((m.entries.filter p).map f).sum + (m.entries.map _).sum
  induction m.entries with
  | nil => rfl
  | cons e es ih =>
    simp only [List.map_cons, List.sum_cons, List.filter_cons]
    by_cases hp : p e = true
    · simp only [hp, if_true, List.map_cons, List.sum_cons]
      omega
    · simp only [hp, if_false, Bool.false_eq_true]
      omega

@[simp] theorem weight_empty (f : κ × ν → Nat) : (empty : OrdMap κ ν).weight f = 0 := rfl

/-- A new value takes the place of the old one. -/
theorem weight_replace {m : OrdMap κ ν} {e : κ × ν} (f : κ × ν → Nat) (he : e ∈ m.entries) (v : ν) :
    (m.insert e.1 v).weight f + f e = m.weight f + f (e.1, v) := by
  have hnew : (e.1, v) ∈ (m.insert e.1 v).entries := mem_insert.mpr (Or.inl rfl)
  have hrest : (m.insert e.1 v).erase e.1 = m.erase e.1 := by
    refine ext_mem fun x => ?_
    rw [mem_erase, mem_erase, mem_insert]
    refine and_congr_left fun hne => ?_
    refine ⟨fun h => ?_, fun h => Or.inr ⟨h, hne⟩⟩
    rcases h with rfl | h
    · exact absurd rfl hne
    · exact h.1
  rw [weight_erase f hnew, weight_erase f he, hrest]
  omega

end OrdMap

/-- A set kept in order: a map to nothing. -/
abbrev OrdSet (κ : Type) [LinearOrder κ] : Type := OrdMap κ Unit

/-! ## The last entry with the largest measure -/

/-- The last element whose measure no other exceeds. -/
def lastMaxBy {α κ : Type} [LinearOrder κ] (f : α → κ) : List α → Option α
  | [] => none
  | a :: as =>
      match lastMaxBy f as with
      | none => some a
      | some b => if f b < f a then some a else some b

theorem lastMaxBy_mem {α κ : Type} [LinearOrder κ] {f : α → κ} {as : List α} {a : α}
    (h : lastMaxBy f as = some a) : a ∈ as := by
  induction as generalizing a with
  | nil => simp [lastMaxBy] at h
  | cons b bs ih =>
    rw [lastMaxBy] at h
    cases hl : lastMaxBy f bs with
    | none => simp [hl] at h; simp [h]
    | some c =>
      simp only [hl] at h
      split_ifs at h
      · simp at h; simp [h]
      · simp at h; exact List.mem_cons_of_mem _ (h ▸ ih hl)

theorem lastMaxBy_eq_none {α κ : Type} [LinearOrder κ] {f : α → κ} {as : List α} :
    lastMaxBy f as = none ↔ as = [] := by
  cases as with
  | nil => simp [lastMaxBy]
  | cons b bs =>
    rw [lastMaxBy]
    cases lastMaxBy f bs with
    | none => simp
    | some c =>
      simp only [reduceCtorEq, iff_false]
      split_ifs <;> simp

theorem le_of_lastMaxBy {α κ : Type} [LinearOrder κ] {f : α → κ} {as : List α} {a : α}
    (h : lastMaxBy f as = some a) : ∀ x ∈ as, f x ≤ f a := by
  induction as generalizing a with
  | nil => simp [lastMaxBy] at h
  | cons b bs ih =>
    intro x hx
    rw [lastMaxBy] at h
    cases hl : lastMaxBy f bs with
    | none =>
      have hbs : bs = [] := lastMaxBy_eq_none.mp hl
      simp [hl] at h
      simp_all
    | some c =>
      simp only [hl] at h
      split_ifs at h with hlt
      · simp at h; subst h
        rcases List.mem_cons.mp hx with rfl | hx
        · exact le_refl _
        · exact (ih hl x hx).trans (le_of_lt hlt)
      · simp at h; subst h
        rcases List.mem_cons.mp hx with rfl | hx
        · exact not_lt.mp hlt
        · exact ih hl x hx

end FioXfs.Lib
