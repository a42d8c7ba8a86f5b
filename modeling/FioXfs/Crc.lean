import FioXfs.Lib.Bytes
import FioXfs.Lib.Register
set_option autoImplicit false

/-!
# CRC32C (`crc.rs`)

The checksum on every v5 metadata structure.  A structure is checksummed with
its own checksum field zeroed, and the checksum is the one little-endian field
on disk.
-/

namespace FioXfs.Crc

open FioXfs.Lib

/-- One bit of the table's computation. -/
def tableStep (c : Nat) : Nat :=
  if c % 2 ≠ 0 then 0x82f63b78 ^^^ (c >>> 1) else c >>> 1

/-- Entry `i` of the table: eight bits from `i`. -/
def table (i : Nat) : Nat :=
  tableStep (tableStep (tableStep (tableStep
    (tableStep (tableStep (tableStep (tableStep i)))))))

/-- The running checksum after one more byte. -/
def step (c : Nat) (b : UInt8) : Nat :=
  table ((c ^^^ b.toNat) &&& 0xff) ^^^ (c >>> 8)

/-- All ones: where the running checksum starts, and what it ends complemented with. -/
def ones : Nat := 0xffffffff

/-- CRC32C of `data`, as XFS computes it. -/
def crc32c (data : Bytes) : Nat := data.foldl step ones ^^^ ones

/-- `buf` with the four bytes at `off` read as zeroes. -/
def masked (buf : Bytes) (off : Nat) : Bytes :=
  buf.zipIdx.map fun bi => if off ≤ bi.2 ∧ bi.2 < off + 4 then 0 else bi.1

/-- The little-endian word at `off`. -/
def stored (buf : Bytes) (off : Nat) : Nat := beNat (slice buf off 4).reverse

/-- Whether the checksum stored at `off` matches the rest of `buf`. -/
def verify (buf : Bytes) (off : Nat) : Bool :=
  if buf.length < off + 4 then false
  else decide (crc32c (masked buf off) = stored buf off)

/-- Store the checksum of `buf` at `off`, computed with the field zeroed. -/
def stamp (buf : Bytes) (off : Nat) : Bytes :=
  let zeroed := splice buf off [0, 0, 0, 0]
  splice zeroed off (toLe 4 (crc32c zeroed))

/-! ## A stamped buffer verifies -/

/-- A bit of the table is a shift of the register. -/
theorem tableStep_eq (c : Nat) : tableStep c = shiftDown 0x82f63b78 c := rfl

theorem tableStep_lt {c : Nat} (h : c < 2 ^ 32) : tableStep c < 2 ^ 32 :=
  shiftDown_lt (by norm_num) h

theorem table_lt {i : Nat} (h : i < 2 ^ 32) : table i < 2 ^ 32 := by
  unfold table
  exact tableStep_lt (tableStep_lt (tableStep_lt (tableStep_lt
    (tableStep_lt (tableStep_lt (tableStep_lt (tableStep_lt h)))))))

theorem step_lt {c : Nat} (b : UInt8) (h : c < 2 ^ 32) : step c b < 2 ^ 32 := by
  unfold step
  refine Nat.xor_lt_two_pow (table_lt ?_) ?_
  · exact lt_of_le_of_lt Nat.and_le_right (by norm_num)
  · rw [Nat.shiftRight_eq_div_pow]
    exact lt_of_le_of_lt (Nat.div_le_self _ _) h

theorem foldl_step_lt (data : Bytes) {c : Nat} (h : c < 2 ^ 32) :
    data.foldl step c < 2 ^ 32 := by
  induction data generalizing c with
  | nil => exact h
  | cons b data ih => exact ih (step_lt b h)

theorem crc32c_lt (data : Bytes) : crc32c data < 2 ^ 32 :=
  Nat.xor_lt_two_pow (foldl_step_lt data (by decide)) (by decide)

theorem getElem?_masked (buf : Bytes) (off i : Nat) :
    (masked buf off)[i]? =
      if off ≤ i ∧ i < off + 4 then buf[i]?.map (fun _ => 0) else buf[i]? := by
  simp only [masked, List.getElem?_map, List.getElem?_zipIdx, Option.map_map]
  cases buf[i]? with
  | none => simp
  | some x => simp only [Option.map_some, Function.comp_apply, Nat.zero_add]; split <;> rfl

/-- Masking the field is overwriting it with zeroes. -/
theorem masked_eq_splice {buf : Bytes} {off : Nat} (h : off + 4 ≤ buf.length) :
    masked buf off = splice buf off [0, 0, 0, 0] := by
  apply List.ext_getElem?
  intro i
  rw [getElem?_masked, getElem?_splice (by omega)]
  simp only [List.length_cons, List.length_nil, Nat.zero_add, Nat.reduceAdd]
  by_cases h1 : i < off
  · rw [if_neg (by omega), if_pos h1]
  · by_cases h2 : i < off + 4
    · rw [if_pos (by omega), if_neg h1, if_pos h2, List.getElem?_eq_getElem (by omega)]
      obtain ⟨k, rfl⟩ : ∃ k, i = off + k := ⟨i - off, by omega⟩
      rw [Nat.add_sub_cancel_left]
      have hk : k = 0 ∨ k = 1 ∨ k = 2 ∨ k = 3 := by omega
      rcases hk with rfl | rfl | rfl | rfl <;> rfl
    · rw [if_neg (by omega), if_neg h1, if_neg h2]

@[simp] theorem length_stamp {buf : Bytes} {off : Nat} (h : off + 4 ≤ buf.length) :
    (stamp buf off).length = buf.length := by
  have h1 : (splice buf off [0, 0, 0, 0]).length = buf.length := length_splice (by simpa using h)
  unfold stamp
  rw [length_splice (by rw [h1, length_toLe]; exact h), h1]

/-- Stamping touches the four bytes of the field only. -/
theorem slice_stamp_disjoint {buf : Bytes} {off o n : Nat} (h : off + 4 ≤ buf.length)
    (hd : o + n ≤ off ∨ off + 4 ≤ o) : slice (stamp buf off) o n = slice buf o n := by
  have h1 : (splice buf off [0, 0, 0, 0]).length = buf.length := length_splice (by simpa using h)
  unfold stamp
  rw [slice_splice_disjoint (by omega) (by simpa using hd),
    slice_splice_disjoint (by omega) (by simpa using hd)]

theorem getBe_stamp_disjoint {w : Nat} {buf : Bytes} {off o : Nat} (h : off + 4 ≤ buf.length)
    (hd : o + w ≤ off ∨ off + 4 ≤ o) : getBe w (stamp buf off) o = getBe w buf o := by
  rw [getBe, slice_stamp_disjoint h hd, getBe]

theorem stored_stamp {buf : Bytes} {off : Nat} (h : off + 4 ≤ buf.length) :
    stored (stamp buf off) off = crc32c (splice buf off [0, 0, 0, 0]) := by
  have h1 : (splice buf off [0, 0, 0, 0]).length = buf.length := length_splice (by simpa using h)
  have hs : slice (stamp buf off) off 4 = toLe 4 (crc32c (splice buf off [0, 0, 0, 0])) := by
    have := slice_splice_same (b := splice buf off [0, 0, 0, 0])
      (d := toLe 4 (crc32c (splice buf off [0, 0, 0, 0]))) (o := off) (by omega)
    rwa [length_toLe] at this
  rw [stored, hs, toLe, List.reverse_reverse]
  exact beNat_toBe (lt_of_lt_of_eq (crc32c_lt _) (by norm_num))

/-- The inverse of `verify`. -/
theorem verify_stamp {buf : Bytes} {off : Nat} (h : off + 4 ≤ buf.length) :
    verify (stamp buf off) off = true := by
  have hl : (stamp buf off).length = buf.length := length_stamp h
  have h1 : (splice buf off [0, 0, 0, 0]).length = buf.length := length_splice (by simpa using h)
  unfold verify
  rw [if_neg (by omega), stored_stamp h, masked_eq_splice (by omega), decide_eq_true_eq]
  congr 1
  unfold stamp
  rw [splice_splice_same (by omega) (by simp), splice_splice_same (by omega) (by simp)]

end FioXfs.Crc
