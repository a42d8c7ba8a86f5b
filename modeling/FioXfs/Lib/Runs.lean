import Mathlib.Data.List.TakeWhile
import Mathlib.Data.List.Pairwise
import Mathlib.Order.Defs.LinearOrder
import Mathlib.Tactic.Basic
set_option autoImplicit false

/-!
# Lib: partial functions kept as runs

A list of records, each covering the points from `lo` up to `hi` and giving a value
to each of them, stands for a partial function: a point's value is that of the record
that covers it.  When no two records share a point the order of the list does not
matter, and splitting, removing or joining records is seen point by point.
-/

namespace FioXfs.Lib

variable {ρ ν : Type} {lo hi : ρ → Nat} {val : ρ → Nat → ν}

/-- Whether a record covers a point. -/
def Covers (lo hi : ρ → Nat) (r : ρ) (b : Nat) : Prop := lo r ≤ b ∧ b < hi r

instance (r : ρ) (b : Nat) : Decidable (Covers lo hi r b) := inferInstanceAs (Decidable (_ ∧ _))

/-- The value the first record that covers `b` gives it. -/
def valueAt (lo hi : ρ → Nat) (val : ρ → Nat → ν) (rs : List ρ) (b : Nat) : Option ν :=
  (rs.find? fun r => decide (Covers lo hi r b)).map (val · b)

/-- Two records that share no point. -/
def Apart (lo hi : ρ → Nat) (a b : ρ) : Prop := hi a ≤ lo b ∨ hi b ≤ lo a

instance (a b : ρ) : Decidable (Apart lo hi a b) := inferInstanceAs (Decidable (_ ∨ _))

theorem Apart.symm {a b : ρ} (h : Apart lo hi a b) : Apart lo hi b a := Or.symm h

instance : Std.Symm (Apart lo hi) := ⟨fun _ _ h => h.symm⟩

theorem Apart.not_covers {a b : ρ} (h : Apart lo hi a b) {x : Nat} (ha : Covers lo hi a x) :
    ¬Covers lo hi b x := by
  obtain ⟨h1, h2⟩ := ha
  rintro ⟨h3, h4⟩
  rcases h with h | h <;> omega

@[simp] theorem valueAt_nil (b : Nat) : valueAt lo hi val [] b = none := rfl

theorem valueAt_cons (r : ρ) (rs : List ρ) (b : Nat) : valueAt lo hi val (r :: rs) b =
    if Covers lo hi r b then some (val r b) else valueAt lo hi val rs b := by
  unfold valueAt
  rw [List.find?_cons]
  by_cases h : Covers lo hi r b <;> simp [h]

theorem valueAt_append (rs rs' : List ρ) (b : Nat) : valueAt lo hi val (rs ++ rs') b =
    (valueAt lo hi val rs b).or (valueAt lo hi val rs' b) := by
  induction rs with
  | nil => rfl
  | cons r rs ih =>
    rw [List.cons_append, valueAt_cons, valueAt_cons, ih]
    split <;> rfl

theorem valueAt_eq_none {rs : List ρ} {b : Nat} :
    valueAt lo hi val rs b = none ↔ ∀ r ∈ rs, ¬Covers lo hi r b := by
  simp [valueAt]

/-- Among disjoint records the value comes from whichever covers the point. -/
theorem valueAt_eq_some {rs : List ρ} (hs : rs.Pairwise (Apart lo hi)) {b : Nat} {v : ν} :
    valueAt lo hi val rs b = some v ↔ ∃ r ∈ rs, Covers lo hi r b ∧ val r b = v := by
  induction rs with
  | nil => simp
  | cons r rs ih =>
    rw [valueAt_cons]
    split
    · rename_i hr
      constructor
      · intro h
        exact ⟨r, List.mem_cons_self, hr, Option.some.inj h⟩
      · rintro ⟨x, hx, hc, rfl⟩
        rcases List.mem_cons.mp hx with rfl | hx
        · rfl
        · exact absurd hc ((List.rel_of_pairwise_cons hs hx).not_covers hr)
    · rename_i hr
      rw [ih hs.of_cons]
      constructor
      · rintro ⟨x, hx, hc, hv⟩
        exact ⟨x, List.mem_cons_of_mem _ hx, hc, hv⟩
      · rintro ⟨x, hx, hc, hv⟩
        rcases List.mem_cons.mp hx with rfl | hx
        · exact absurd hc hr
        · exact ⟨x, hx, hc, hv⟩

/-- Two lists whose records cover a point alike give it the same value. -/
theorem valueAt_congr {rs rs' : List ρ} (hs : rs.Pairwise (Apart lo hi))
    (hs' : rs'.Pairwise (Apart lo hi)) {b : Nat}
    (h : ∀ v, (∃ r ∈ rs, Covers lo hi r b ∧ val r b = v) ↔
      ∃ r ∈ rs', Covers lo hi r b ∧ val r b = v) :
    valueAt lo hi val rs b = valueAt lo hi val rs' b := by
  apply Option.ext
  intro v
  rw [valueAt_eq_some hs, valueAt_eq_some hs', h]

/-- Records that cover a point in common are one. -/
theorem eq_of_covers {rs : List ρ} (hs : rs.Pairwise (Apart lo hi)) {r r' : ρ} (hr : r ∈ rs)
    (hr' : r' ∈ rs) {b : Nat} (hb : Covers lo hi r b) (hb' : Covers lo hi r' b) : r = r' := by
  by_contra hne
  exact (hs.forall hr hr' hne).not_covers hb hb'

/-- In a list along which a test, once failed, stays failed, what passes is found before
the first failure. -/
theorem mem_takeWhile_of_pairwise {p : ρ → Bool} {rs : List ρ}
    (hs : rs.Pairwise fun a b => p b = true → p a = true) {r : ρ} (hr : r ∈ rs)
    (hp : p r = true) : r ∈ rs.takeWhile p := by
  induction rs with
  | nil => simp at hr
  | cons a rs ih =>
    have ha : p a = true := by
      rcases List.mem_cons.mp hr with rfl | hr
      · exact hp
      · exact List.rel_of_pairwise_cons hs hr hp
    rw [List.takeWhile_cons_of_pos ha]
    rcases List.mem_cons.mp hr with rfl | hr
    · exact List.mem_cons_self
    · exact List.mem_cons_of_mem _ (ih hs.of_cons hr)

end FioXfs.Lib
