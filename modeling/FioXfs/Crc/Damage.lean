import FioXfs.Crc
set_option autoImplicit false

/-!
# What a checksum guards

The table's computation is the bit by bit one, and a register fed one different byte never finds
back to the value it would have had.  So a stamped structure with one byte changed, in the
checksum or anywhere else, does not verify.
-/

namespace FioXfs.Crc

open FioXfs.Lib

/-! ## The bit by bit computation -/

/-- The reflected Castagnoli polynomial. -/
def POLY : Nat := 0x82f63b78

/-- The bits of a message, each byte's lowest first. -/
def messageBits (data : Bytes) : List Bool := data.flatMap fun b => lowBits 8 b.toNat

/-- CRC-32C bit by bit, complemented at both ends. -/
def bitwise (data : Bytes) : Nat := (messageBits data).foldl (feed POLY) ones ^^^ ones

/-- What a stamped structure is protected from. -/
structure Guarded (buf : Bytes) (off : Nat) : Prop where
  length_kept : (stamp buf off).length = buf.length
  bytes_kept : ∀ i, i < off ∨ off + 4 ≤ i → (stamp buf off)[i]? = buf[i]?
  verified : verify (stamp buf off) off = true
  bit_by_bit : crc32c buf = bitwise buf
  damage_seen : ∀ i < buf.length, ∀ x, (stamp buf off)[i]? ≠ some x →
    verify ((stamp buf off).set i x) off = false

/-! ## The table -/

theorem table_eq (i : Nat) : table i = (shiftDown POLY)^[8] i := by
  simp only [table, tableStep_eq, POLY, Function.iterate_succ_apply', Function.iterate_zero_apply]

/-- A step is a byte added in and eight shifts. -/
theorem step_eq (c : Nat) (b : UInt8) : step c b = (shiftDown POLY)^[8] (c ^^^ b.toNat) := by
  have hbyte : b.toNat >>> 8 = 0 := by
    rw [Nat.shiftRight_eq_div_pow]
    exact Nat.div_eq_of_lt b.toNat_lt
  have hhigh : (c ^^^ b.toNat) >>> 8 = c >>> 8 := by
    rw [Nat.shiftRight_xor_distrib, hbyte, Nat.xor_zero]
  rw [iterate_shiftDown_low, hhigh, step, table_eq]
  congr 2
  exact Nat.and_two_pow_sub_one_eq_mod _ 8

/-- Eight bits of a message, fed one by one, are a step. -/
theorem foldl_feed_byte (c : Nat) (b : UInt8) :
    (lowBits 8 b.toNat).foldl (feed POLY) c = step c b := by
  rw [step_eq]
  exact foldl_feed_lowBits POLY b.toNat_lt c

theorem foldl_feed_messageBits (data : Bytes) (c : Nat) :
    (messageBits data).foldl (feed POLY) c = data.foldl step c := by
  induction data generalizing c with
  | nil => rfl
  | cons b data ih =>
    rw [messageBits, List.flatMap_cons, List.foldl_append, foldl_feed_byte, List.foldl_cons]
    exact ih _

/-- The table computes the checksum of the bits. -/
theorem crc32c_eq_bitwise (data : Bytes) : crc32c data = bitwise data := by
  rw [bitwise, foldl_feed_messageBits, crc32c]

/-! ## One different byte -/

theorem byte_lt (b : UInt8) : b.toNat < 2 ^ 32 := b.toNat_lt.trans (by norm_num)

theorem shifts_injOn {a b : Nat} (ha : a < 2 ^ 32) (hb : b < 2 ^ 32)
    (h : (shiftDown POLY)^[8] a = (shiftDown POLY)^[8] b) : a = b :=
  iterate_shiftDown_injOn (by decide : POLY < 2 ^ 32) (by decide) 8 ha hb h

/-- Registers that differ still differ after a byte fed to both. -/
theorem step_left_injOn {c c' : Nat} (b : UInt8) (hc : c < 2 ^ 32) (hc' : c' < 2 ^ 32)
    (h : step c b = step c' b) : c = c' := by
  rw [step_eq, step_eq] at h
  exact Nat.xor_left_injective
    (shifts_injOn (Nat.xor_lt_two_pow hc (byte_lt b)) (Nat.xor_lt_two_pow hc' (byte_lt b)) h)

/-- Different bytes make one register differ. -/
theorem step_right_injective {c : Nat} {b b' : UInt8} (hc : c < 2 ^ 32)
    (h : step c b = step c b') : b = b' := by
  rw [step_eq, step_eq] at h
  exact UInt8.toNat_inj.mp (Nat.xor_right_injective
    (shifts_injOn (Nat.xor_lt_two_pow hc (byte_lt b)) (Nat.xor_lt_two_pow hc (byte_lt b')) h))

theorem foldl_step_injOn (data : Bytes) {c c' : Nat} (hc : c < 2 ^ 32) (hc' : c' < 2 ^ 32)
    (h : data.foldl step c = data.foldl step c') : c = c' := by
  induction data generalizing c c' with
  | nil => exact h
  | cons b data ih => exact step_left_injOn b hc hc' (ih (step_lt b hc) (step_lt b hc') h)

/-- Messages that differ in one byte have different checksums. -/
theorem crc32c_ne_of_one (pre post : Bytes) {b b' : UInt8} (hne : b ≠ b') :
    crc32c (pre ++ b :: post) ≠ crc32c (pre ++ b' :: post) := by
  intro h
  have hpre : pre.foldl step ones < 2 ^ 32 := foldl_step_lt pre (by decide)
  have hfold := Nat.xor_left_injective h
  simp only [List.foldl_append, List.foldl_cons] at hfold
  exact hne (step_right_injective hpre
    (foldl_step_injOn post (step_lt b hpre) (step_lt b' hpre) hfold))

theorem crc32c_set_ne {data : Bytes} {i : Nat} {x : UInt8} (hi : i < data.length)
    (hne : data[i]? ≠ some x) : crc32c (data.set i x) ≠ crc32c data := by
  have hx : x ≠ data[i] := by
    rintro rfl
    exact hne (List.getElem?_eq_getElem hi)
  have hdata : data.take i ++ data[i] :: data.drop (i + 1) = data := by
    rw [List.getElem_cons_drop, List.take_append_drop]
  rw [List.set_eq_take_append_cons_drop, if_pos hi]
  conv_rhs => rw [← hdata]
  exact crc32c_ne_of_one _ _ hx

/-! ## Damage -/

section
variable {buf : Bytes} {off i : Nat} {x : UInt8}

/-- The field is read as zeroes whatever is in it. -/
theorem masked_set_inside (h : off ≤ i ∧ i < off + 4) :
    masked (buf.set i x) off = masked buf off := by
  apply List.ext_getElem?
  intro j
  rw [getElem?_masked, getElem?_masked, List.getElem?_set]
  by_cases hij : i = j
  · subst hij
    rw [if_pos h, if_pos h, if_pos rfl]
    by_cases hlen : i < buf.length
    · rw [if_pos hlen, List.getElem?_eq_getElem hlen]
      rfl
    · rw [if_neg hlen, List.getElem?_eq_none (by omega)]
  · rw [if_neg hij]

/-- A byte beside the field is one byte of the message. -/
theorem masked_set_outside (h : i < off ∨ off + 4 ≤ i) :
    masked (buf.set i x) off = (masked buf off).set i x := by
  apply List.ext_getElem?
  intro j
  rw [getElem?_masked, List.getElem?_set, List.getElem?_set, getElem?_masked]
  have hlen : (masked buf off).length = buf.length := by simp [masked]
  by_cases hij : i = j
  · subst hij
    rw [if_neg (by omega), if_pos rfl, if_pos rfl, hlen]
  · rw [if_neg hij, if_neg hij]

theorem stored_set_outside (h : i < off ∨ off + 4 ≤ i) :
    stored (buf.set i x) off = stored buf off := by
  have hs : slice (buf.set i x) off 4 = slice buf off 4 := by
    apply List.ext_getElem?
    intro j
    rw [getElem?_slice, getElem?_slice]
    split
    · rw [List.getElem?_set_ne (by omega)]
    · rfl
  rw [stored, hs, stored]

/-- A different byte in the field is a different checksum stored. -/
theorem stored_set_ne (hlen : off + 4 ≤ buf.length) (h : off ≤ i ∧ i < off + 4)
    (hne : buf[i]? ≠ some x) : stored (buf.set i x) off ≠ stored buf off := by
  intro heq
  have hl : ∀ b : Bytes, b.length = buf.length → (slice b off 4).reverse.length = 4 := by
    intro b hb
    rw [List.length_reverse, length_slice (by omega)]
  have hs : slice (buf.set i x) off 4 = slice buf off 4 := by
    refine List.reverse_injective (beNat_injOn ?_ heq)
    rw [hl _ List.length_set, hl _ rfl]
  have hi := congrArg (fun s => s[i - off]?) hs
  simp only [getElem?_slice] at hi
  rw [if_pos (by omega), if_pos (by omega), show off + (i - off) = i by omega,
    List.getElem?_set_self (by omega)] at hi
  exact hne hi.symm

theorem verify_eq (h : off + 4 ≤ buf.length) :
    verify buf off = decide (crc32c (masked buf off) = stored buf off) := if_neg (by omega)

/-- One byte changed in a buffer that verifies, and it does not. -/
theorem verify_set_eq_false (hlen : off + 4 ≤ buf.length) (hv : verify buf off = true)
    (hi : i < buf.length) (hne : buf[i]? ≠ some x) : verify (buf.set i x) off = false := by
  rw [verify_eq hlen, decide_eq_true_eq] at hv
  rw [verify_eq (by rwa [List.length_set]), decide_eq_false_iff_not]
  by_cases hin : off ≤ i ∧ i < off + 4
  · rw [masked_set_inside hin, hv]
    exact fun h => stored_set_ne hlen hin hne h.symm
  · have hout : i < off ∨ off + 4 ≤ i := by omega
    rw [masked_set_outside hout, stored_set_outside hout, ← hv]
    refine crc32c_set_ne (by simpa [masked] using hi) ?_
    rwa [getElem?_masked, if_neg hin]

theorem getElem?_stamp_outside (h : off + 4 ≤ buf.length) (hi : i < off ∨ off + 4 ≤ i) :
    (stamp buf off)[i]? = buf[i]? := by
  have hs := slice_stamp_disjoint (o := i) (n := 1) h (by omega)
  have h0 := congrArg (fun s => s[0]?) hs
  simpa only [getElem?_slice, Nat.lt_one_iff, if_true, Nat.add_zero] using h0

/-- A stamped buffer keeps its other bytes, verifies, and does not once a byte is changed. -/
theorem stamped_guarded (buf : Bytes) (off : Nat) (h : off + 4 ≤ buf.length) : Guarded buf off where
  length_kept := length_stamp h
  bytes_kept _ hi := getElem?_stamp_outside h hi
  verified := verify_stamp h
  bit_by_bit := crc32c_eq_bitwise buf
  damage_seen i hi x hne := by
    have hlen : (stamp buf off).length = buf.length := length_stamp h
    exact verify_set_eq_false (by omega) (verify_stamp h) (by omega) hne

theorem stamped_guarded_word : 1 + 4 ≤ [7, 0, 0, 0, 0, (9 : UInt8)].length ∧
    Guarded [7, 0, 0, 0, 0, 9] 1 :=
  ⟨by decide, stamped_guarded _ 1 (by decide)⟩

end

end FioXfs.Crc
