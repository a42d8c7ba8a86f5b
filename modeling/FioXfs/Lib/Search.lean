import FioXfs.Lib.Act
import Mathlib.Tactic.NormNum
set_option autoImplicit false

/-!
# Lib: searching a range of indices

Where a property first or last holds in a range, however the range was searched: in
pieces, from either end.  And what a binary search finds when the property is not
monotone: some place where it begins to hold.
-/

namespace FioXfs.Lib

variable {ε : Type}

/-! ## First and last -/

/-- `r` is the first index in `a..b` at which `q` holds. -/
def IsFirst (q : Nat → Prop) (a b : Nat) : Option Nat → Prop
  | none => ∀ i, a ≤ i → i < b → ¬q i
  | some x => a ≤ x ∧ x < b ∧ q x ∧ ∀ i, a ≤ i → i < x → ¬q i

/-- `r` is the last index in `a..b` at which `q` holds. -/
def IsLast (q : Nat → Prop) (a b : Nat) : Option Nat → Prop
  | none => ∀ i, a ≤ i → i < b → ¬q i
  | some x => a ≤ x ∧ x < b ∧ q x ∧ ∀ i, x < i → i < b → ¬q i

section
variable {q : Nat → Prop} {a b m x : Nat} {r : Option Nat}

theorem IsFirst.eq_some (h : IsFirst q a b r) (ha : a ≤ x) (hb : x < b) (hx : q x)
    (hmin : ∀ i, a ≤ i → i < x → ¬q i) : r = some x := by
  cases r with
  | none => exact absurd hx (h x ha hb)
  | some y =>
    obtain ⟨hay, hyb, hqy, hy⟩ := h
    have h1 : ¬x < y := fun hlt => hy x ha hlt hx
    have h2 : ¬y < x := fun hlt => hmin y hay hlt hqy
    rw [show y = x by omega]

theorem IsFirst.eq_none (h : IsFirst q a b r) (hno : ∀ i, a ≤ i → i < b → ¬q i) : r = none := by
  cases r with
  | none => rfl
  | some y => exact absurd h.2.2.1 (hno y h.1 h.2.1)

theorem IsLast.eq_some (h : IsLast q a b r) (ha : a ≤ x) (hb : x < b) (hx : q x)
    (hmax : ∀ i, x < i → i < b → ¬q i) : r = some x := by
  cases r with
  | none => exact absurd hx (h x ha hb)
  | some y =>
    obtain ⟨hay, hyb, hqy, hy⟩ := h
    have h1 : ¬y < x := fun hlt => hy x hlt hb hx
    have h2 : ¬x < y := fun hlt => hmax y hlt hyb hqy
    rw [show y = x by omega]

theorem IsLast.eq_none (h : IsLast q a b r) (hno : ∀ i, a ≤ i → i < b → ¬q i) : r = none := by
  cases r with
  | none => rfl
  | some y => exact absurd h.2.2.1 (hno y h.1 h.2.1)

/-- Nothing in a first piece leaves it to the second. -/
theorem IsFirst.append_right (h1 : IsFirst q a m none) (h2 : IsFirst q m b r) (ham : a ≤ m) :
    IsFirst q a b r := by
  have hno : ∀ i, a ≤ i → i < m → ¬q i := h1
  cases r with
  | none =>
    intro i hai hib
    rcases Nat.lt_or_ge i m with him | him
    · exact hno i hai him
    · exact h2 i him hib
  | some x =>
    obtain ⟨hmx, hxb, hqx, hx⟩ := h2
    refine ⟨ham.trans hmx, hxb, hqx, fun i hai hix => ?_⟩
    rcases Nat.lt_or_ge i m with him | him
    · exact hno i hai him
    · exact hx i him hix

theorem IsFirst.append_left (h : IsFirst q a m (some x)) (hmb : m ≤ b) :
    IsFirst q a b (some x) :=
  ⟨h.1, lt_of_lt_of_le h.2.1 hmb, h.2.2⟩

/-- Nothing in a last piece leaves it to the one before. -/
theorem IsLast.append_left (h1 : IsLast q m b none) (h2 : IsLast q a m r) (hmb : m ≤ b) :
    IsLast q a b r := by
  have hno : ∀ i, m ≤ i → i < b → ¬q i := h1
  cases r with
  | none =>
    intro i hai hib
    rcases Nat.lt_or_ge i m with him | him
    · exact h2 i hai him
    · exact hno i him hib
  | some x =>
    obtain ⟨hax, hxm, hqx, hx⟩ := h2
    refine ⟨hax, lt_of_lt_of_le hxm hmb, hqx, fun i hxi hib => ?_⟩
    rcases Nat.lt_or_ge i m with him | him
    · exact hx i hxi him
    · exact hno i him hib

theorem IsLast.append_right (h : IsLast q m b (some x)) (ham : a ≤ m) : IsLast q a b (some x) :=
  ⟨ham.trans h.1, h.2⟩

end

/-! ## Scanning a list of consecutive indices -/

theorem find?_congr {α : Type} {p q : α → Bool} {l : List α} (h : ∀ x ∈ l, p x = q x) :
    l.find? p = l.find? q := by
  induction l with
  | nil => rfl
  | cons x l ih =>
    rw [List.find?_cons, List.find?_cons, h x List.mem_cons_self,
      ih fun y hy => h y (List.mem_cons_of_mem _ hy)]

/-- What is found does not lie in a part that has none of it. -/
theorem find?_dropWhile {α : Type} {p q : α → Bool} {l : List α}
    (h : ∀ x ∈ l, p x = true → q x = false) : (l.dropWhile p).find? q = l.find? q := by
  induction l with
  | nil => rfl
  | cons x l ih =>
    cases hx : p x with
    | false => rw [List.dropWhile_cons_of_neg (by simp [hx])]
    | true =>
      rw [List.dropWhile_cons_of_pos hx, List.find?_cons_of_neg (by simp [h x (by simp) hx])]
      exact ih fun y hy => h y (List.mem_cons_of_mem _ hy)

/-- The first that `p` does not hold of, and all after it, have none of it. -/
theorem find?_takeWhile {α : Type} {p q : α → Bool} {l : List α}
    (h : ∀ x ∈ l, p x = false → q x = false)
    (hafter : l.Pairwise fun x y => p x = false → q y = false) :
    (l.takeWhile p).find? q = l.find? q := by
  induction l with
  | nil => rfl
  | cons x l ih =>
    obtain ⟨hxl, hl⟩ := List.pairwise_cons.mp hafter
    cases hx : p x with
    | false =>
      have hnone : (x :: l).find? q = none := by
        refine List.find?_eq_none.mpr fun y hy => ?_
        rcases List.mem_cons.mp hy with rfl | hy
        · simp [h y (by simp) hx]
        · simp [hxl y hy hx]
      rw [List.takeWhile_cons_of_neg (by simp [hx]), hnone]
      rfl
    | true =>
      rw [List.takeWhile_cons_of_pos hx, List.find?_cons, List.find?_cons,
        ih (fun y hy => h y (List.mem_cons_of_mem _ hy)) hl]

/-- The first of `a, a + 1, …` (`n` of them) at which `p` holds. -/
theorem isFirst_find_range {p : Nat → Bool} (a n : Nat) :
    IsFirst (fun i => p i = true) a (a + n)
      (((List.range n).find? fun j => p (a + j)).map (a + ·)) := by
  cases h : (List.range n).find? fun j => p (a + j) with
  | none =>
    intro i hai hib
    have := List.find?_eq_none.mp h (i - a) (List.mem_range.mpr (by omega))
    rwa [Nat.add_sub_cancel' hai] at this
  | some j =>
    obtain ⟨hp, as, bs, hsplit, hno⟩ := List.find?_eq_some_iff_append.mp h
    have hlen : as.length = j := by
      have hj : (List.range n)[as.length]? = some j := by rw [hsplit]; simp
      have hlt : as.length < n := by
        have := congrArg List.length hsplit
        simp at this
        omega
      rw [List.getElem?_range hlt] at hj
      exact Option.some.inj hj
    have hj : j < n := by
      have := List.mem_of_find?_eq_some h
      exact List.mem_range.mp this
    change IsFirst _ _ _ (some (a + j))
    refine ⟨Nat.le_add_right _ _, by omega, hp, fun i hai hij => ?_⟩
    have hmem : i - a ∈ as := by
      have hi : (List.range n)[i - a]? = some (i - a) := List.getElem?_range (by omega)
      rw [hsplit, List.getElem?_append_left (by omega)] at hi
      exact List.mem_of_getElem? hi
    have := hno (i - a) hmem
    rw [Nat.add_sub_cancel' hai] at this
    simpa using this

/-- A scan down from `b`, by `n` indices at most: the first met is the last there is. -/
def findDown (p : Nat → Bool) : Nat → Nat → Option Nat
  | 0, _ => none
  | n + 1, b => if p (b - 1) then some (b - 1) else findDown p n (b - 1)

theorem isLast_findDown {p : Nat → Bool} :
    ∀ {n b : Nat}, n ≤ b → IsLast (fun i => p i = true) (b - n) b (findDown p n b) := by
  intro n
  induction n with
  | zero =>
    intro b _ i h1 h2
    omega
  | succ n ih =>
    intro b hb
    rw [findDown]
    split
    · rename_i hp
      exact ⟨by omega, by omega, hp, fun i h1 h2 => absurd h2 (by omega)⟩
    · rename_i hp
      have hrest := @ih (b - 1) (by omega)
      rw [show b - 1 - n = b - (n + 1) by omega] at hrest
      refine IsLast.append_left (m := b - 1) ?_ hrest (by omega)
      intro i h1 h2
      rw [show i = b - 1 by omega]
      exact hp

/-! ## Binary search -/

/-- Binary search between `first` and `stop` for where `p` begins to hold. -/
def bisect (p : Nat → Except ε Bool) : Nat → Nat → Nat → Except ε Nat
  | 0, _, stop => return stop
  | fuel + 1, first, stop =>
      let mid := (first + stop) / 2
      if mid ≠ first ∧ mid ≠ stop then do
        if ← p mid then bisect p fuel first mid else bisect p fuel mid stop
      else return stop

section
variable {p : Nat → Except ε Bool} {q : Nat → Bool}

/-- Between an index at which it does not hold and one at which it does, a binary search
ends where it begins to. -/
theorem bisect_eq_ok :
    ∀ {fuel first stop : Nat}, (∀ i, i ≤ stop → p i = .ok (q i)) → first < stop →
      q first = false → q stop = true → stop - first ≤ fuel →
      ∃ r, bisect p fuel first stop = .ok r ∧ first < r ∧ r ≤ stop ∧ q r = true ∧
        q (r - 1) = false := by
  intro fuel
  induction fuel with
  | zero =>
    intro first stop _ hlt _ _ hfuel
    omega
  | succ fuel ih =>
    intro first stop hp hlt hq0 hq1 hfuel
    rw [bisect]
    split
    · rename_i hmid
      rw [hp _ (by omega), except_ok_bind]
      cases hqm : q ((first + stop) / 2) with
      | true =>
        simp only [if_true]
        obtain ⟨r, hr, h1, h2, h3, h4⟩ := ih (fun i hi => hp i (by omega))
          (by omega : first < (first + stop) / 2) hq0 hqm (by omega)
        exact ⟨r, hr, h1, by omega, h3, h4⟩
      | false =>
        simp only [Bool.false_eq_true, if_false]
        obtain ⟨r, hr, h1, h2, h3, h4⟩ := ih hp
          (by omega : (first + stop) / 2 < stop) hqm hq1 (by omega)
        exact ⟨r, hr, by omega, h2, h3, h4⟩
    · rename_i hmid
      refine ⟨stop, rfl, hlt, le_refl _, hq1, ?_⟩
      rw [show stop - 1 = first by omega]
      exact hq0

/-- When it holds half way, a binary search ends in the first half. -/
theorem bisect_le_mid {fuel first stop : Nat} (hp : ∀ i, i ≤ stop → p i = .ok (q i))
    (hlt : first + 1 < stop) (hq0 : q first = false)
    (hqm : q ((first + stop) / 2) = true) (hfuel : stop - first ≤ fuel) :
    ∃ r, bisect p fuel first stop = .ok r ∧ first < r ∧ r ≤ (first + stop) / 2 ∧ q r = true ∧
      q (r - 1) = false := by
  cases fuel with
  | zero => omega
  | succ fuel =>
    rw [bisect, if_pos (by omega), hp _ (by omega), except_ok_bind, hqm]
    simp only [if_true]
    exact bisect_eq_ok (fun i hi => hp i (by omega)) (by omega) hq0 hqm (by omega)

end

end FioXfs.Lib
