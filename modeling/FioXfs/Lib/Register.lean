import Mathlib.Data.Nat.Bitwise
import Mathlib.Algebra.Order.Ring.Nat
import Mathlib.Logic.Function.Iterate
import Mathlib.Tactic.NormNum
set_option autoImplicit false

/-!
# Feedback shift registers

A register that is shifted down a bit at a time, with a polynomial added in wherever a one falls
out.  A message is fed to it bit by bit; fed a group of bits at a time, it is one exclusive or
and a count of shifts.  With the polynomial's top bit set nothing is ever lost: two registers
that differ go on differing, whatever is fed to both.
-/

namespace FioXfs.Lib

/-- The register shifted down once. -/
def shiftDown (p c : Nat) : Nat := if c % 2 ≠ 0 then p ^^^ (c >>> 1) else c >>> 1

/-- The register after one bit of the message. -/
def feed (p c : Nat) (bit : Bool) : Nat := shiftDown p (c ^^^ bit.toNat)

/-- The `n` low bits of `v`, the lowest first. -/
def lowBits : Nat → Nat → List Bool
  | 0, _ => []
  | n + 1, v => (v % 2 == 1) :: lowBits n (v / 2)

section
variable {p a b : Nat}

/-! ## Shifting is linear -/

theorem xor_mod_two (a b : Nat) : (a ^^^ b) % 2 = (a % 2 + b % 2) % 2 := by
  rw [Nat.xor_mod_two_eq, Nat.add_mod]

theorem shiftDown_of_even (h : a % 2 = 0) : shiftDown p a = a >>> 1 := if_neg (by omega)

theorem shiftDown_of_odd (h : a % 2 = 1) : shiftDown p a = p ^^^ (a >>> 1) := if_pos (by omega)

/-- A register shifted as the sum of two is their shifts' sum. -/
theorem shiftDown_xor (p a b : Nat) :
    shiftDown p (a ^^^ b) = shiftDown p a ^^^ shiftDown p b := by
  have hsum : (a ^^^ b) >>> 1 = (a >>> 1) ^^^ (b >>> 1) := Nat.shiftRight_xor_distrib
  have hmod := xor_mod_two a b
  rcases Nat.mod_two_eq_zero_or_one a with ha | ha <;>
    rcases Nat.mod_two_eq_zero_or_one b with hb | hb <;> rw [ha, hb] at hmod
  · rw [shiftDown_of_even hmod, shiftDown_of_even ha, shiftDown_of_even hb, hsum]
  · rw [shiftDown_of_odd hmod, shiftDown_of_even ha, shiftDown_of_odd hb, hsum]
    exact Nat.xor_left_comm _ _ _
  · rw [shiftDown_of_odd hmod, shiftDown_of_odd ha, shiftDown_of_even hb, hsum]
    exact (Nat.xor_assoc _ _ _).symm
  · -- both add the polynomial in, and it cancels
    rw [shiftDown_of_even hmod, shiftDown_of_odd ha, shiftDown_of_odd hb, hsum,
      Nat.xor_assoc, Nat.xor_left_comm (a >>> 1), ← Nat.xor_assoc, Nat.xor_self, Nat.zero_xor]

theorem iterate_shiftDown_xor (p n a b : Nat) :
    (shiftDown p)^[n] (a ^^^ b) = (shiftDown p)^[n] a ^^^ (shiftDown p)^[n] b := by
  induction n generalizing a b with
  | zero => rfl
  | succ n ih => simp only [Function.iterate_succ_apply, shiftDown_xor, ih]

/-- Where only zeroes fall out, nothing is added in. -/
theorem iterate_shiftDown_shiftLeft (p n a : Nat) : (shiftDown p)^[n] (a <<< n) = a := by
  induction n with
  | zero => rfl
  | succ n ih =>
    have heven : a <<< (n + 1) % 2 = 0 := by
      rw [Nat.shiftLeft_succ]
      exact Nat.mul_mod_right _ _
    have hhalf : (a <<< (n + 1)) >>> 1 = a <<< n := by
      rw [Nat.shiftLeft_succ, Nat.shiftRight_eq_div_pow]
      exact Nat.mul_div_cancel_left _ (by norm_num)
    rw [Function.iterate_succ_apply, shiftDown_of_even heven, hhalf, ih]

/-- A number by its `n` low bits and the rest. -/
theorem low_xor_high (n a : Nat) : a = (a % 2 ^ n) ^^^ ((a >>> n) <<< n) := by
  apply Nat.eq_of_testBit_eq
  intro i
  rw [Nat.testBit_xor, Nat.testBit_mod_two_pow, Nat.testBit_shiftLeft, Nat.testBit_shiftRight]
  by_cases h : i < n
  · simp [h, show ¬i ≥ n by omega]
  · simp [h, show i ≥ n by omega, show n + (i - n) = i by omega]

/-- Of `n` shifts, the `n` low bits say what is added in. -/
theorem iterate_shiftDown_low (p n a : Nat) :
    (shiftDown p)^[n] a = (shiftDown p)^[n] (a % 2 ^ n) ^^^ (a >>> n) := by
  conv_lhs => rw [low_xor_high n a]
  rw [iterate_shiftDown_xor, iterate_shiftDown_shiftLeft]

/-! ## Feeding many bits -/

theorem bit_xor_double (v : Nat) : v = (v % 2 == 1).toNat ^^^ ((v / 2) <<< 1) := by
  have h := low_xor_high 1 v
  rw [Nat.shiftRight_eq_div_pow, pow_one] at h
  rcases Nat.mod_two_eq_zero_or_one v with hv | hv <;> rw [hv] at h ⊢ <;> exact h

/-- Feeding the bits of a number one by one is adding it in and shifting. -/
theorem foldl_feed_lowBits (p : Nat) {n v : Nat} (h : v < 2 ^ n) (c : Nat) :
    (lowBits n v).foldl (feed p) c = (shiftDown p)^[n] (c ^^^ v) := by
  induction n generalizing v c with
  | zero =>
    obtain rfl : v = 0 := by simpa using h
    exact (Nat.xor_zero _).symm
  | succ n ih =>
    have hlt : v / 2 < 2 ^ n := by
      rw [Nat.pow_succ] at h
      omega
    have hstep : shiftDown p (c ^^^ v) = feed p c (v % 2 == 1) ^^^ (v / 2) := by
      conv_lhs => rw [bit_xor_double v, ← Nat.xor_assoc, shiftDown_xor]
      rw [feed]
      congr 1
      exact iterate_shiftDown_shiftLeft p 1 (v / 2)
    rw [lowBits, List.foldl_cons, ih hlt, Function.iterate_succ_apply, hstep]

/-! ## Nothing is lost -/

/-- What bit falls out can be told from the top bit, so the register can be shifted back. -/
theorem shiftDown_injOn {w : Nat} (hp : p.testBit w = true) (ha : a < 2 ^ (w + 1))
    (hb : b < 2 ^ (w + 1)) (h : shiftDown p a = shiftDown p b) : a = b := by
  have top : ∀ {c}, c < 2 ^ (w + 1) → (shiftDown p c).testBit w = (c % 2 == 1) := by
    intro c hc
    have hz : (c >>> 1).testBit w = false := by
      rw [Nat.testBit_shiftRight]
      exact Nat.testBit_lt_two_pow (by rwa [Nat.add_comm 1 w])
    rcases Nat.mod_two_eq_zero_or_one c with hc2 | hc2
    · rw [shiftDown_of_even hc2, hz, hc2]
      rfl
    · rw [shiftDown_of_odd hc2, Nat.testBit_xor, hz, hp, hc2]
      rfl
  have hpar : (a % 2 == 1) = (b % 2 == 1) := by rw [← top ha, ← top hb, h]
  have hhalf : a >>> 1 = b >>> 1 := by
    rcases Nat.mod_two_eq_zero_or_one a with ha2 | ha2 <;>
      rcases Nat.mod_two_eq_zero_or_one b with hb2 | hb2 <;> rw [ha2, hb2] at hpar
    · rwa [shiftDown_of_even ha2, shiftDown_of_even hb2] at h
    · cases hpar
    · cases hpar
    · rw [shiftDown_of_odd ha2, shiftDown_of_odd hb2] at h
      exact Nat.xor_right_injective h
  have hmod : a % 2 = b % 2 := by
    rcases Nat.mod_two_eq_zero_or_one a with ha2 | ha2 <;>
      rcases Nat.mod_two_eq_zero_or_one b with hb2 | hb2 <;> rw [ha2, hb2] at hpar ⊢ <;>
      cases hpar
  rw [Nat.shiftRight_eq_div_pow, Nat.shiftRight_eq_div_pow, pow_one] at hhalf
  omega

theorem shiftDown_lt {w : Nat} (hp : p < 2 ^ w) (ha : a < 2 ^ w) : shiftDown p a < 2 ^ w := by
  have hs : a >>> 1 < 2 ^ w := by
    rw [Nat.shiftRight_eq_div_pow]
    exact lt_of_le_of_lt (Nat.div_le_self _ _) ha
  unfold shiftDown
  split
  · exact Nat.xor_lt_two_pow hp hs
  · exact hs

theorem iterate_shiftDown_injOn {w : Nat} (hp : p < 2 ^ (w + 1)) (htop : p.testBit w = true)
    (n : Nat) (ha : a < 2 ^ (w + 1)) (hb : b < 2 ^ (w + 1))
    (h : (shiftDown p)^[n] a = (shiftDown p)^[n] b) : a = b := by
  induction n generalizing a b with
  | zero => exact h
  | succ n ih =>
    simp only [Function.iterate_succ_apply] at h
    exact shiftDown_injOn htop ha hb (ih (shiftDown_lt hp ha) (shiftDown_lt hp hb) h)

end

end FioXfs.Lib
