import FioXfs.Lib.Bytes
set_option autoImplicit false

/-!
# Lib: numbers written out

A number in ASCII digits, in a base of at most ten, and what a run of digits is worth.  Leading
zeroes change nothing, and a number takes more digits only when it is larger.
-/

namespace FioXfs.Lib

/-- The bytes of a text in ASCII. -/
def ascii (s : String) : Bytes := s.toList.map fun c => UInt8.ofNat c.toNat

/-- The digit `d`. -/
def digit (d : Nat) : UInt8 := UInt8.ofNat (48 + d)

/-- The lowest `fuel + 1` digits of `n`, without leading zeroes. -/
def numeralFrom (base : Nat) : Nat → Nat → Bytes
  | 0, n => [digit (n % base)]
  | fuel + 1, n =>
      if n < base then [digit n] else numeralFrom base fuel (n / base) ++ [digit (n % base)]

/-- `n` in base `base`. -/
def numeral (base n : Nat) : Bytes := numeralFrom base n n

/-- `n` in base `base`, with zeroes in front to make `width` digits. -/
def padded (base width n : Nat) : Bytes :=
  List.replicate (width - (numeral base n).length) (digit 0) ++ numeral base n

/-- What a digit is worth. -/
def digitOf (base : Nat) (b : UInt8) : Option Nat :=
  if 48 ≤ b.toNat ∧ b.toNat < 48 + base then some (b.toNat - 48) else none

/-- What a run of digits is worth after `acc`. -/
def valueFrom (base : Nat) : Nat → Bytes → Option Nat
  | acc, [] => some acc
  | acc, b :: bs => (digitOf base b).bind fun d => valueFrom base (acc * base + d) bs

/-- What a run of digits is worth. -/
def valueOf (base : Nat) (bs : Bytes) : Option Nat := valueFrom base 0 bs

section
variable {base : Nat}

theorem toNat_digit {d : Nat} (hd : d < 10) : (digit d).toNat = 48 + d := by
  unfold digit
  rw [UInt8.toNat_ofNat']
  omega

theorem digitOf_digit {d : Nat} (hb : base ≤ 10) (hd : d < base) : digitOf base (digit d) = some d := by
  unfold digitOf
  rw [toNat_digit (by omega), if_pos (by omega)]
  congr 1
  omega

theorem numeralFrom_of_lt {n fuel : Nat} (h : n < base) : numeralFrom base fuel n = [digit n] := by
  cases fuel with
  | zero => rw [numeralFrom, Nat.mod_eq_of_lt h]
  | succ fuel => rw [numeralFrom, if_pos h]

/-- More fuel than the number writes the same digits. -/
theorem numeralFrom_eq (hb : 2 ≤ base) : ∀ {fuel n : Nat}, n ≤ fuel →
    numeralFrom base fuel n = numeral base n := by
  have hsame : ∀ (n fuel fuel' : Nat), n ≤ fuel → n ≤ fuel' →
      numeralFrom base fuel n = numeralFrom base fuel' n := by
    intro n
    induction n using Nat.strongRecOn with
    | ind n ih =>
      intro fuel fuel' hf hf'
      by_cases hlt : n < base
      · rw [numeralFrom_of_lt hlt, numeralFrom_of_lt hlt]
      · obtain ⟨f, rfl⟩ : ∃ f, fuel = f + 1 := ⟨fuel - 1, by omega⟩
        obtain ⟨f', rfl⟩ : ∃ f, fuel' = f + 1 := ⟨fuel' - 1, by omega⟩
        have hdiv : n / base < n := Nat.div_lt_self (by omega) (by omega)
        rw [numeralFrom, numeralFrom, if_neg hlt, if_neg hlt,
          ih (n / base) hdiv f f' (by omega) (by omega)]
  exact fun {fuel n} h => hsame n fuel n h (le_refl n)

theorem numeral_of_lt {n : Nat} (h : n < base) : numeral base n = [digit n] := numeralFrom_of_lt h

theorem numeral_of_le {n : Nat} (hb : 2 ≤ base) (h : base ≤ n) :
    numeral base n = numeral base (n / base) ++ [digit (n % base)] := by
  obtain ⟨m, rfl⟩ : ∃ m, n = m + 1 := ⟨n - 1, by omega⟩
  have hdiv : (m + 1) / base < m + 1 := Nat.div_lt_self (by omega) (by omega)
  rw [numeral, numeralFrom, if_neg (by omega), numeralFrom_eq hb (by omega)]

/-- The digits of a number are those of its part above the last digit, and the last digit. -/
theorem numeral_induction {motive : Nat → Prop} (hb : 2 ≤ base) (small : ∀ n < base, motive n)
    (large : ∀ n, base ≤ n → motive (n / base) → motive n) (n : Nat) : motive n := by
  induction n using Nat.strongRecOn with
  | ind n ih =>
    by_cases h : n < base
    · exact small n h
    · exact large n (by omega) (ih _ (Nat.div_lt_self (by omega) (by omega)))

/-! ## Reading a number back -/

theorem valueFrom_append (bs bs' : Bytes) (acc : Nat) :
    valueFrom base acc (bs ++ bs') = (valueFrom base acc bs).bind fun v => valueFrom base v bs' := by
  induction bs generalizing acc with
  | nil => rfl
  | cons b bs ih =>
    rw [List.cons_append, valueFrom, valueFrom]
    cases digitOf base b with
    | none => rfl
    | some d => exact ih _

theorem valueOf_numeral (hb : 2 ≤ base) (hb' : base ≤ 10) (n : Nat) :
    valueOf base (numeral base n) = some n := by
  induction n using numeral_induction hb with
  | small n h =>
    rw [numeral_of_lt h, valueOf, valueFrom, digitOf_digit hb' h]
    simp [valueFrom]
  | large n h ih =>
    have hmod : n % base < base := Nat.mod_lt _ (by omega)
    rw [numeral_of_le hb h, valueOf, valueFrom_append, ← valueOf, ih, Option.bind_some, valueFrom,
      digitOf_digit hb' hmod, Option.bind_some, valueFrom, Nat.mul_comm, Nat.div_add_mod]

theorem valueFrom_zeroes (k : Nat) (hb : 2 ≤ base) (bs : Bytes) :
    valueFrom base 0 (List.replicate k (digit 0) ++ bs) = valueFrom base 0 bs := by
  induction k with
  | zero => rfl
  | succ k ih =>
    rw [List.replicate_succ, List.cons_append, valueFrom]
    have h0 : digitOf base (digit 0) = some 0 := by
      unfold digitOf
      rw [toNat_digit (by omega), if_pos (by omega)]
    rw [h0, Option.bind_some, Nat.zero_mul]
    exact ih

/-- Zeroes in front do not change what digits are worth. -/
theorem valueOf_padded (hb : 2 ≤ base) (hb' : base ≤ 10) (width n : Nat) :
    valueOf base (padded base width n) = some n := by
  rw [padded, valueOf, valueFrom_zeroes _ hb]
  exact valueOf_numeral hb hb' n

/-- A number has nothing but digits. -/
theorem mem_numeral (hb : 2 ≤ base) {n : Nat} {b : UInt8} (h : b ∈ numeral base n) :
    ∃ d < base, b = digit d := by
  induction n using numeral_induction hb with
  | small n hlt =>
    rw [numeral_of_lt hlt, List.mem_singleton] at h
    exact ⟨n, hlt, h⟩
  | large n hle ih =>
    rw [numeral_of_le hb hle, List.mem_append, List.mem_singleton] at h
    rcases h with h | h
    · exact ih h
    · exact ⟨n % base, Nat.mod_lt _ (by omega), h⟩

/-! ## How long a number is -/

theorem length_numeral_pos (hb : 2 ≤ base) (n : Nat) : 1 ≤ (numeral base n).length := by
  by_cases h : n < base
  · rw [numeral_of_lt h, List.length_singleton]
  · rw [numeral_of_le hb (by omega), List.length_append, List.length_singleton]
    omega

/-- A number has at most `k` digits exactly when it is below `base ^ k`. -/
theorem length_numeral_le_iff (hb : 2 ≤ base) {k n : Nat} (hk : 1 ≤ k) :
    (numeral base n).length ≤ k ↔ n < base ^ k := by
  induction n using numeral_induction hb generalizing k with
  | small n h =>
    have hpow : base ^ 1 ≤ base ^ k := Nat.pow_le_pow_right (by omega) hk
    rw [numeral_of_lt h, List.length_singleton, pow_one] at *
    omega
  | large n h ih =>
    rw [numeral_of_le hb h, List.length_append, List.length_singleton]
    obtain ⟨k, rfl⟩ : ∃ j, k = j + 1 := ⟨k - 1, by omega⟩
    by_cases hk0 : k = 0
    · subst hk0
      have hpos := length_numeral_pos hb (n / base)
      rw [pow_one]
      omega
    · rw [Nat.add_le_add_iff_right, ih (by omega), pow_succ, Nat.div_lt_iff_lt_mul (by omega)]

theorem length_numeral_mono (hb : 2 ≤ base) {m n : Nat} (h : m ≤ n) :
    (numeral base m).length ≤ (numeral base n).length := by
  have hpos := length_numeral_pos hb n
  exact (length_numeral_le_iff hb hpos).mpr
    (h.trans_lt ((length_numeral_le_iff hb hpos).mp (le_refl _)))

end

end FioXfs.Lib
