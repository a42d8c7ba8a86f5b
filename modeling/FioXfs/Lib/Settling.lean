import Mathlib.Combinatorics.Pigeonhole
import Mathlib.Data.Finset.Max
import Mathlib.Dynamics.PeriodicPts.Defs
import Mathlib.Logic.Relation
import Mathlib.Order.Interval.Finset.Nat
set_option autoImplicit false

/-!
# Lib: sizes that answer each other

A loop that replaces a size by the need that size leaves, until the two are equal, ends
in a fixed point or goes round in a cycle.  When the need hardly changes with the size, there
are few sizes to go through, and one or the other shows soon.
-/

namespace FioXfs.Lib

open Relation

variable {g : ℕ → ℕ} {ok : ℕ → Prop} {x y : ℕ}

/-! ## What comes of a size -/

/-- What comes of a size are its iterates, as far as those before allow a next one. -/
theorem comes_iff_iterate : ReflTransGen (fun p q => ok p ∧ q = g p) x y ↔
    ∃ n, y = g^[n] x ∧ ∀ m < n, ok (g^[m] x) := by
  constructor
  · intro h
    induction h with
    | refl => exact ⟨0, rfl, fun m hm => absurd hm (Nat.not_lt_zero m)⟩
    | tail _ hst ih =>
        obtain ⟨n, rfl, hall⟩ := ih
        refine ⟨n + 1, by rw [hst.2, Function.iterate_succ_apply'], fun m hm => ?_⟩
        rcases Nat.lt_succ_iff_lt_or_eq.mp hm with hlt | rfl
        · exact hall m hlt
        · exact hst.1
  · rintro ⟨n, rfl, hall⟩
    induction n with
    | zero => exact .refl
    | succ n ih =>
        refine (ih fun m hm => hall m (Nat.lt_succ_of_lt hm)).tail ⟨hall n (Nat.lt_succ_self n), ?_⟩
        rw [Function.iterate_succ_apply']

/-- After a fixed point nothing new comes. -/
theorem iterate_of_fixed {i m : ℕ} (h : g (g^[i] x) = g^[i] x) (hle : i ≤ m) : g^[m] x = g^[i] x := by
  obtain ⟨d, rfl⟩ := Nat.exists_eq_add_of_le' hle
  rw [Function.iterate_add_apply, Function.iterate_fixed h]

/-- A size that comes back to itself, once a fixed point has come, is the fixed point. -/
theorem fixed_of_cycle {i m l : ℕ} (h : g (g^[i] x) = g^[i] x) (hback : g^[l + 1] (g^[m] x) = g^[m] x) :
    g (g^[m] x) = g^[m] x := by
  have hround : g^[(l + 1) * i] (g^[m] x) = g^[m] x :=
    Function.IsPeriodicPt.mul_const (f := g) hback i
  rw [← Function.iterate_add_apply, iterate_of_fixed h (Nat.le_add_right_of_le
    (Nat.le_mul_of_pos_left i (Nat.succ_pos l)))] at hround
  rw [← hround, h]

/-- Once a size has come twice, there are none but those before its second time. -/
theorem iterate_of_repeat {i j : ℕ} (hij : i < j) (h : g^[i] x = g^[j] x) (n : ℕ) :
    ∃ m < j, g^[n] x = g^[m] x := by
  induction n with
  | zero => exact ⟨0, by omega, rfl⟩
  | succ n ih =>
      obtain ⟨m, hm, heq⟩ := ih
      rw [Function.iterate_succ_apply', heq, ← Function.iterate_succ_apply' g m]
      rcases Nat.lt_or_eq_of_le (Nat.succ_le_of_lt hm) with hlt | hlast
      · exact ⟨m + 1, hlt, rfl⟩
      · exact ⟨i, hij, by rw [h, ← hlast]⟩

/-! ## Few sizes -/

/-- Sizes no further apart than `w` from the `i`th on. -/
def Within (g : ℕ → ℕ) (x n i w : ℕ) : Prop :=
  ∀ a b, i ≤ a → a ≤ n → i ≤ b → b ≤ n → g^[a] x ≤ g^[b] x + w

/-- What the needs of sizes up to `w` apart are within draws all later sizes together. -/
theorem Within.step {n i w w' : ℕ} (h : Within g x n i w)
    (hg : ∀ a b, a < n → b < n → g^[a] x ≤ g^[b] x + w → g^[b] x ≤ g^[a] x + w →
      g (g^[a] x) ≤ g (g^[b] x) + w') : Within g x n (i + 1) w' := by
  intro a b ha han hb hbn
  obtain ⟨a, rfl⟩ : ∃ a', a = a' + 1 := ⟨a - 1, by omega⟩
  obtain ⟨b, rfl⟩ : ∃ b', b = b' + 1 := ⟨b - 1, by omega⟩
  rw [Function.iterate_succ_apply', Function.iterate_succ_apply']
  exact hg a b (by omega) (by omega) (h a b (by omega) (by omega) (by omega) (by omega))
    (h b a (by omega) (by omega) (by omega) (by omega))

/-- Numbers no further apart than `d` lie in a range of `d + 1`. -/
theorem exists_floor {s : Finset ℕ} (hs : s.Nonempty) {f : ℕ → ℕ} {d : ℕ}
    (h : ∀ a ∈ s, ∀ b ∈ s, f a ≤ f b + d) : ∃ m, ∀ a ∈ s, m ≤ f a ∧ f a < m + (d + 1) := by
  obtain ⟨b, hb, hmin⟩ := s.exists_min_image f hs
  exact ⟨f b, fun a ha => ⟨hmin a ha, Nat.lt_succ_of_le (h a ha b hb)⟩⟩

/-- More sizes than there are pairs of traits to tell their needs by: one need comes
twice. -/
theorem exists_repeat {s : Finset ℕ} {X Y : ℕ → ℕ} {a b : ℕ}
    (hX : ∀ i ∈ s, ∀ j ∈ s, X i ≤ X j + a) (hY : ∀ i ∈ s, ∀ j ∈ s, Y i ≤ Y j + b)
    (hcard : (a + 1) * (b + 1) < s.card) : ∃ i ∈ s, ∃ j ∈ s, i < j ∧ X i = X j ∧ Y i = Y j := by
  have hs : s.Nonempty := Finset.card_pos.mp (by omega)
  obtain ⟨mx, hmx⟩ := exists_floor hs hX
  obtain ⟨my, hmy⟩ := exists_floor hs hY
  have hbox : (Finset.range (a + 1) ×ˢ Finset.range (b + 1)).card < s.card := by
    rw [Finset.card_product, Finset.card_range, Finset.card_range]
    exact hcard
  have hmaps : ∀ i ∈ s, (X i - mx, Y i - my) ∈ Finset.range (a + 1) ×ˢ Finset.range (b + 1) :=
    fun i hi => by
      have h1 := hmx i hi
      have h2 := hmy i hi
      rw [Finset.mem_product, Finset.mem_range, Finset.mem_range]
      omega
  obtain ⟨i, hi, j, hj, hne, heq⟩ := Finset.exists_ne_map_eq_of_card_lt_of_maps_to hbox hmaps
  obtain ⟨h1, h2⟩ := Prod.mk.inj heq
  have := hmx i hi
  have := hmx j hj
  have := hmy i hi
  have := hmy j hj
  rcases Nat.lt_or_gt_of_ne hne with hlt | hlt
  · exact ⟨i, hi, j, hj, hlt, by omega, by omega⟩
  · exact ⟨j, hj, i, hi, hlt, by omega, by omega⟩

end FioXfs.Lib
