import FioXfs.Lib.OrdMap
import Mathlib.Algebra.BigOperators.Intervals
import Mathlib.Algebra.Order.BigOperators.Group.Finset
set_option autoImplicit false

/-!
# Lib: what covers a point

An allocator's records are runs of consecutive points.  Instead of keeping the
runs apart from each other pair by pair, count for each point how many of them
hold it: splitting and merging runs leaves the count alone, taking a run out and
putting one back change it by that run's own count, and "held exactly once" says
at one stroke that runs are disjoint and that they fill their space.
-/

namespace FioXfs.Lib

open Finset

/-- 1 when `b` is one of the `n` points from `s`, else 0. -/
def within (s n b : Nat) : Nat := if s ≤ b ∧ b < s + n then 1 else 0

theorem within_le_one (s n b : Nat) : within s n b ≤ 1 := by
  unfold within
  split <;> omega

theorem within_eq_one {s n b : Nat} : within s n b = 1 ↔ s ≤ b ∧ b < s + n := by
  unfold within
  split <;> simp_all

theorem within_pos {s n b : Nat} : 0 < within s n b ↔ s ≤ b ∧ b < s + n := by
  unfold within
  split <;> simp_all

theorem within_eq_zero {s n b : Nat} : within s n b = 0 ↔ ¬(s ≤ b ∧ b < s + n) := by
  unfold within
  split <;> simp_all

@[simp] theorem within_zero (s b : Nat) : within s 0 b = 0 := within_eq_zero.mpr (by omega)

/-- Counting a run's members over a space that holds it gives its length. -/
theorem sum_within {s n N : Nat} (h : s + n ≤ N) : ∑ b ∈ range N, within s n b = n := by
  simp only [within, ← Finset.card_filter]
  have hf : (range N).filter (fun b => s ≤ b ∧ b < s + n) = Ico s (s + n) := by
    ext b
    simp only [Finset.mem_filter, Finset.mem_range, Finset.mem_Ico]
    omega
  rw [hf, Nat.card_Ico]
  omega

/-- A count that stays within a run and adds up to its length is the run's own. -/
theorem eq_within_of_sum {d : Nat → Nat} {s n N : Nat} (h : s + n ≤ N)
    (hle : ∀ b, d b ≤ within s n b) (hsum : ∑ b ∈ range N, d b = n) :
    ∀ b, d b = within s n b := by
  intro b
  by_cases hb : b < N
  · have heq : ∑ b ∈ range N, d b = ∑ b ∈ range N, within s n b := by
      rw [hsum, sum_within h]
    exact (Finset.sum_eq_sum_iff_of_le fun b _ => hle b).mp heq b (Finset.mem_range.mpr hb)
  · have h0 : within s n b = 0 := within_eq_zero.mpr (by omega)
    exact le_antisymm (hle b) (by omega)

/-- How many of a list of runs hold `b`. -/
def withinRuns (runs : List (Nat × Nat)) (b : Nat) : Nat :=
  (runs.map fun r => within r.1 r.2 b).sum

@[simp] theorem withinRuns_nil (b : Nat) : withinRuns [] b = 0 := rfl

@[simp] theorem withinRuns_cons (r : Nat × Nat) (runs : List (Nat × Nat)) (b : Nat) :
    withinRuns (r :: runs) b = within r.1 r.2 b + withinRuns runs b := rfl

@[simp] theorem withinRuns_append (runs runs' : List (Nat × Nat)) (b : Nat) :
    withinRuns (runs ++ runs') b = withinRuns runs b + withinRuns runs' b := by
  simp [withinRuns]

theorem withinRuns_perm {runs runs' : List (Nat × Nat)} (h : runs.Perm runs') (b : Nat) :
    withinRuns runs b = withinRuns runs' b := (h.map _).sum_eq

theorem count_range' {s n b : Nat} : (List.range' s n).count b = within s n b := by
  have hn : (List.range' s n).Nodup := List.nodup_range'
  rw [hn.count]
  simp [within, List.mem_range'_1]

/-- Listing the points of runs counts each as often as the runs hold it. -/
theorem count_flatMap_range' (runs : List (Nat × Nat)) (b : Nat) :
    (runs.flatMap fun r => List.range' r.1 r.2).count b = withinRuns runs b := by
  induction runs with
  | nil => rfl
  | cons r runs ih => rw [List.flatMap_cons, List.count_append, ih, count_range', withinRuns_cons]

theorem withinRuns_singletons (bs : List Nat) (b : Nat) :
    withinRuns (bs.map (·, 1)) b = bs.count b := by
  induction bs with
  | nil => rfl
  | cons c bs ih =>
    rw [List.map_cons, withinRuns_cons, ih, List.count_cons, add_comm]
    congr 1
    unfold within
    simp only [beq_iff_eq]
    split_ifs <;> omega

end FioXfs.Lib
