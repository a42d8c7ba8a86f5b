import FioXfs.Lib.Bytes
import Mathlib.Data.List.Range
set_option autoImplicit false

/-!
# Windows

A run of items of a function of positions.  A slice of a window is a window, and a window with
part of it written over is the window of a function that was changed there.
-/

namespace FioXfs.Lib

variable {α : Type} {g g' : Nat → α} {o n : Nat}

/-- The `n` items of `g` from position `o` on. -/
def window (g : Nat → α) (o n : Nat) : List α := (List.range n).map fun i => g (o + i)

@[simp] theorem length_window (g : Nat → α) (o n : Nat) : (window g o n).length = n := by
  simp [window]

theorem getElem?_window (g : Nat → α) (o n i : Nat) :
    (window g o n)[i]? = if i < n then some (g (o + i)) else none := by
  rw [window, List.getElem?_map]
  by_cases h : i < n
  · rw [List.getElem?_range h, if_pos h]
    rfl
  · rw [List.getElem?_eq_none (by simpa using h), if_neg h]
    rfl

/-- A list is a window when it has the items at each place. -/
theorem eq_window {l : List α} (hlen : l.length = n) (h : ∀ i < n, l[i]? = some (g (o + i))) :
    l = window g o n := by
  refine List.ext_getElem? fun i => ?_
  rw [getElem?_window]
  by_cases hi : i < n
  · rw [h i hi, if_pos hi]
  · rw [List.getElem?_eq_none (by omega), if_neg hi]

theorem window_congr (h : ∀ i < n, g (o + i) = g' (o + i)) : window g o n = window g' o n :=
  eq_window (length_window _ _ _) fun i hi => by rw [getElem?_window, if_pos hi, h i hi]

@[simp] theorem window_zero (g : Nat → α) (o : Nat) : window g o 0 = [] := rfl

/-- A slice of a window, cut where the window ends. -/
theorem slice_window (g : Nat → α) (o n o' n' : Nat) :
    slice (window g o n) o' n' = window g (o + o') (min n' (n - o')) := by
  refine eq_window ?_ fun i hi => ?_
  · rw [slice, List.length_take, List.length_drop, length_window]
  · rw [getElem?_slice, if_pos (by omega), getElem?_window, if_pos (by omega), Nat.add_assoc]

/-- Part of a window written over. -/
theorem splice_window {d : List α} {k : Nat} (hfit : k + d.length ≤ n)
    (hin : ∀ i < d.length, d[i]? = some (g' (o + k + i)))
    (hout : ∀ i < n, i < k ∨ k + d.length ≤ i → g (o + i) = g' (o + i)) :
    splice (window g o n) k d = window g' o n := by
  refine eq_window ?_ fun i hi => ?_
  · rw [length_splice (by rwa [length_window]), length_window]
  · rw [getElem?_splice (by rw [length_window]; omega)]
    by_cases hk : i < k
    · rw [if_pos hk, getElem?_window, if_pos hi, hout i hi (.inl hk)]
    · rw [if_neg hk]
      by_cases hd : i < k + d.length
      · rw [if_pos hd, hin _ (by omega), Nat.add_assoc, Nat.add_sub_cancel' (by omega)]
      · rw [if_neg hd, getElem?_window, if_pos hi, hout i hi (.inr (by omega))]

end FioXfs.Lib
