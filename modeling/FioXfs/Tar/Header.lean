import FioXfs.Lib.Slots
import FioXfs.Tar
set_option autoImplicit false

/-!
# Headers read back

A reader of ustar headers, and what it finds in the header of an entry: text up to the width of
its field, and every number that fits.
-/

namespace FioXfs.Tar

open FioXfs.Lib

/-- A header as a reader of ustar takes it. -/
structure Ustar where
  path : Bytes
  flag : UInt8
  link : Bytes
  mode : Nat
  uid : Nat
  gid : Nat
  size : Nat
  secs : Nat
  major : Nat
  minor : Nat

/-- Whether a header's checksum is right: the sum of its bytes with blanks for the checksum. -/
def ChecksumRight (b : Bytes) : Prop :=
  numberAt 8 b 148 8 = some (checksum (splice b 148 (List.replicate 8 32)))

instance (b : Bytes) : Decidable (ChecksumRight b) :=
  inferInstanceAs (Decidable (_ = _))

/-- A name with the prefix in front of it, when there is one. -/
def joined (front name : Bytes) : Bytes := if front = [] then name else front ++ 47 :: name

/-- Read a header block: its magic and its checksum, then its fields. -/
def readHeader (b : Bytes) : Option Ustar := do
  if slice b 257 8 ≠ ascii "ustar" ++ [0] ++ ascii "00" ∨ ¬ChecksumRight b then none
  let mode ← numberAt 8 b 100 8
  let uid ← numberAt 8 b 108 8
  let gid ← numberAt 8 b 116 8
  let size ← numberAt 8 b 124 12
  let secs ← numberAt 8 b 136 12
  let major ← numberAt 8 b 329 8
  let minor ← numberAt 8 b 337 8
  return ⟨joined (textAt b 345 155) (textAt b 0 100), (slice b 156 1).headD 0, textAt b 157 100, mode,
    uid, gid, size, secs, major, minor⟩

/-! ## Numbers in fields -/

/-- What a reader finds in a number's field: zero when it did not fit. -/
def fieldValue (width v : Nat) : Nat := if v < 8 ^ (width - 1) then v else 0

theorem octal_eq {width v : Nat} (hw : width ≤ 22) :
    octal width v = if v < 8 ^ (width - 1) then some (padded 8 (width - 1) v ++ [0]) else none := by
  have hpow : 2 ^ (3 * (width - 1)) = 8 ^ (width - 1) := by rw [pow_mul]; norm_num
  simp only [octal, hpow]
  by_cases h : v < 8 ^ (width - 1)
  · rw [if_pos h, if_neg (by omega)]
  · rw [if_neg h, if_pos (by omega)]

theorem octal_isSome_iff {width v : Nat} (hw : width ≤ 22) :
    (octal width v).isSome = true ↔ v < 8 ^ (width - 1) := by
  rw [octal_eq hw]
  split_ifs with h
  · exact iff_of_true rfl h
  · exact iff_of_false (by simp) h

theorem length_octalText {width : Nat} (v : Nat) (hlo : 2 ≤ width) (hw : width ≤ 22) :
    (octalText width v).length ≤ width := by
  rw [octalText, octal_eq hw]
  split_ifs with h
  · have hlen := length_padded (by omega : 2 ≤ 8) (by omega) h
    rw [Option.getD_some, List.length_append, hlen, List.length_singleton]
    omega
  · exact Nat.zero_le _

/-- A number's field reads back. -/
theorem valueOf_octalText {width : Nat} (v k : Nat) (hw : width ≤ 22) :
    valueOf 8 ((octalText width v ++ List.replicate k 0).takeWhile fun b => decide (b ≠ 0)) =
      some (fieldValue width v) := by
  rw [octalText, octal_eq hw, fieldValue]
  split_ifs with h
  · have hblank : ([0] ++ List.replicate k (0 : UInt8)).takeWhile (fun b => decide (b ≠ 0)) = [] :=
      takeWhile_replicate_zero (k + 1)
    rw [Option.getD_some, List.append_assoc,
      takeWhile_text (zero_notMem_padded (by omega) (by omega) _ _) hblank]
    exact valueOf_padded (by omega) (by omega) _ _
  · rw [Option.getD_none, List.nil_append, takeWhile_replicate_zero]
    rfl

/-! ## The fields of a header -/

section
variable {path : Bytes} {kind : UInt8} {h : Header} {size : Nat}

/-- A header before its checksum. -/
def blankHeader (path : Bytes) (kind : UInt8) (h : Header) (size : Nat) : Bytes :=
  writeFields (List.replicate BLOCK 0) (headerFields path kind h size)

theorem laidOut_header : LaidOut (List.replicate BLOCK (0 : UInt8)).length
    (headerFields path kind h size) where
  apart := by
    have hdecide : [(0, 100), (100, 8), (108, 8), (116, 8), (124, 12), (136, 12), (156, 1), (157, 100),
        (257, 6), (263, 2), (329, 8), (337, 8), (148, 8)].Pairwise
          fun f g : Nat × Nat => f.1 + f.2 ≤ g.1 ∨ g.1 + g.2 ≤ f.1 := by decide
    have hmap : ((headerFields path kind h size).map fun f => (f.1, f.2.1)).Pairwise
        fun f g : Nat × Nat => f.1 + f.2 ≤ g.1 ∨ g.1 + g.2 ≤ f.1 := hdecide
    exact List.pairwise_map.mp hmap
  inside := by
    rw [List.length_replicate]
    have hdecide : ∀ f ∈ [(0, 100), (100, 8), (108, 8), (116, 8), (124, 12), (136, 12), (156, 1),
        (157, 100), (257, 6), (263, 2), (329, 8), (337, 8), (148, 8)], f.1 + f.2 ≤ BLOCK := by decide
    intro f hf
    have hmem : (f.1, f.2.1) ∈ (headerFields path kind h size).map fun f => (f.1, f.2.1) :=
      List.mem_map_of_mem hf
    exact hdecide (f.1, f.2.1) hmem
  narrow := by
    have h8 := fun v => @length_octalText 8 v (by omega) (by omega)
    have h12 := fun v => @length_octalText 12 v (by omega) (by omega)
    have hif : ∀ (c : Prop) [Decidable c] (w : Nat) (d : Bytes), d.length ≤ w →
        (if c then d else []).length ≤ w := fun c _ w d hd => by
      split_ifs
      · exact hd
      · exact Nat.zero_le _
    simp only [headerFields, List.forall_mem_cons, List.length_take, List.length_replicate]
    refine ⟨by omega, h8 _, h8 _, h8 _, h12 _, hif _ _ _ (h12 _), le_refl _, by omega, by decide,
      by decide, hif _ _ _ (h8 _), hif _ _ _ (h8 _), le_refl _, ?_⟩
    exact fun f hf => absurd hf List.not_mem_nil

theorem length_blankHeader : (blankHeader path kind h size).length = BLOCK := by
  rw [blankHeader, length_writeFields laidOut_header, List.length_replicate]

/-- A field before the checksum is written. -/
theorem slice_blankHeader {o w : Nat} {d : Bytes} (hm : (o, w, d) ∈ headerFields path kind h size) :
    slice (blankHeader path kind h size) o w = d ++ List.replicate (w - d.length) 0 := by
  have hin := laidOut_header.inside _ hm
  have hnarrow := laidOut_header.narrow _ hm
  rw [List.length_replicate] at hin
  rw [blankHeader, slice_writeFields laidOut_header hm, slice_replicate 0 (by dsimp only at *; omega)]

theorem ustar_fst : (ustar path kind h size).1 = splice (blankHeader path kind h size) 148
    (padded 8 6 (checksum (blankHeader path kind h size)) ++ [0]) := rfl

theorem checksum_lt : checksum (blankHeader path kind h size) < 8 ^ 6 := by
  have hsum : ∀ b : Bytes, checksum b ≤ 255 * b.length := by
    intro b
    induction b with
    | nil => exact le_refl _
    | cons x b ih =>
      have hx := x.toNat_lt
      rw [checksum, List.map_cons, List.sum_cons, ← checksum, List.length_cons]
      omega
  have hle := hsum (blankHeader path kind h size)
  rw [length_blankHeader, BLOCK] at hle
  norm_num
  omega

theorem length_sum_field :
    (padded 8 6 (checksum (blankHeader path kind h size)) ++ [0]).length = 7 := by
  rw [List.length_append, length_padded (by omega) (by omega) checksum_lt, List.length_singleton]

theorem length_ustar : (ustar path kind h size).1.length = BLOCK := by
  rw [ustar_fst, length_splice (by rw [length_sum_field, length_blankHeader]; decide),
    length_blankHeader]

/-- What the checksum does not meet is as it was. -/
theorem slice_ustar {o w : Nat} (ho : o + w ≤ 148 ∨ 155 ≤ o) :
    slice (ustar path kind h size).1 o w = slice (blankHeader path kind h size) o w := by
  rw [ustar_fst]
  refine slice_splice_disjoint (by rw [length_blankHeader]; decide) ?_
  rw [length_sum_field]
  omega

/-- Text in a header's field reads back. -/
theorem textAt_ustar {o w : Nat} {d : Bytes} (hm : (o, w, d) ∈ headerFields path kind h size)
    (ho : o + w ≤ 148 ∨ 155 ≤ o) (hd : (0 : UInt8) ∉ d) : textAt (ustar path kind h size).1 o w = d := by
  rw [textAt, slice_ustar ho, slice_blankHeader hm]
  exact takeWhile_text hd (takeWhile_replicate_zero _)

/-- A number in a header's field reads back. -/
theorem numberAt_ustar {o w v : Nat} (hm : (o, w, octalText w v) ∈ headerFields path kind h size)
    (ho : o + w ≤ 148 ∨ 155 ≤ o) (hw : w ≤ 22) :
    numberAt 8 (ustar path kind h size).1 o w = some (fieldValue w v) := by
  rw [numberAt, textAt, slice_ustar ho, slice_blankHeader hm]
  exact valueOf_octalText v _ hw

/-- A number that only some headers have. -/
theorem numberAt_ustar_if {c : Prop} [Decidable c] {o w v : Nat}
    (hm : (o, w, if c then octalText w v else []) ∈ headerFields path kind h size)
    (ho : o + w ≤ 148 ∨ 155 ≤ o) (hw : w ≤ 22) :
    numberAt 8 (ustar path kind h size).1 o w = some (if c then fieldValue w v else 0) := by
  by_cases hc : c
  · rw [if_pos hc] at hm ⊢
    exact numberAt_ustar hm ho hw
  · rw [if_neg hc] at hm ⊢
    rw [numberAt, textAt_ustar hm ho List.not_mem_nil]
    rfl

/-- Every header's checksum is right. -/
theorem checksumRight_ustar : ChecksumRight (ustar path kind h size).1 := by
  have h148 : (148, 8, List.replicate 8 32) ∈ headerFields path kind h size := by
    simp [headerFields]
  have hblank : slice (blankHeader path kind h size) 148 8 = List.replicate 8 32 := by
    rw [slice_blankHeader h148, List.length_replicate, Nat.sub_self, List.replicate_zero,
      List.append_nil]
  have hsum : splice (ustar path kind h size).1 148 (List.replicate 8 32) =
      blankHeader path kind h size := by
    rw [ustar_fst, splice_splice_over (by rw [length_blankHeader]; decide)
      (by rw [length_sum_field, List.length_replicate]; omega), ← hblank]
    exact splice_slice_self (by rw [length_blankHeader]; decide)
  have hdigits : slice (ustar path kind h size).1 148 7 =
      padded 8 6 (checksum (blankHeader path kind h size)) ++ [0] := by
    rw [ustar_fst]
    conv => lhs; rw [← @length_sum_field path kind h size]
    exact slice_splice_same (by rw [length_blankHeader]; decide)
  have hlast : slice (ustar path kind h size).1 155 1 = [32] := by
    rw [slice_ustar (by omega)]
    have hsub := @slice_slice _ (blankHeader path kind h size) 148 8 7 1 (by omega)
    rw [hblank] at hsub
    exact hsub.symm
  rw [ChecksumRight, hsum, numberAt, textAt, slice_add _ 148 7 1, hdigits, hlast, List.append_assoc,
    takeWhile_text (zero_notMem_padded (by omega) (by omega) _ _) rfl]
  exact valueOf_padded (by omega) (by omega) _ _

/-- What a reader finds in an entry's header. -/
theorem readHeader_ustar (hpath : (0 : UInt8) ∉ path) (hlink : (0 : UInt8) ∉ h.link) :
    readHeader (ustar path kind h size).1 = some
      { path := path.take 100, flag := kind, link := h.link.take 100
        mode := fieldValue 8 (h.mode &&& 0o7777), uid := fieldValue 8 h.uid
        gid := fieldValue 8 h.gid, size := fieldValue 12 size
        secs := if 0 ≤ h.mtime.secs then fieldValue 12 h.mtime.secs.toNat else 0
        major := if h.isDevice = true then fieldValue 8 h.major else 0
        minor := if h.isDevice = true then fieldValue 8 h.minor else 0 } := by
  have hmagic : slice (ustar path kind h size).1 257 8 = ascii "ustar" ++ [0] ++ ascii "00" := by
    have h257 : (257, 6, ascii "ustar" ++ [0]) ∈ headerFields path kind h size := by
      simp [headerFields]
    have h263 : (263, 2, ascii "00") ∈ headerFields path kind h size := by simp [headerFields]
    rw [slice_ustar (by omega), slice_add _ 257 6 2, slice_blankHeader h257, slice_blankHeader h263]
    decide
  have hprefix : textAt (ustar path kind h size).1 345 155 = [] := by
    have hclear : ∀ f ∈ headerFields path kind h size, 345 + 155 ≤ f.1 ∨ f.1 + f.2.1 ≤ 345 := by
      simp [headerFields]
    rw [textAt, slice_ustar (by omega), blankHeader, slice_writeFields_clear laidOut_header hclear,
      slice_replicate 0 (by decide), takeWhile_replicate_zero]
  have hflag : slice (ustar path kind h size).1 156 1 = [kind] := by
    have h156 : (156, 1, [kind]) ∈ headerFields path kind h size := by simp [headerFields]
    rw [slice_ustar (by omega), slice_blankHeader h156]
    rfl
  have hname : textAt (ustar path kind h size).1 0 100 = path.take 100 :=
    textAt_ustar (by simp [headerFields]) (by omega) fun hmem => hpath (List.mem_of_mem_take hmem)
  have htarget : textAt (ustar path kind h size).1 157 100 = h.link.take 100 :=
    textAt_ustar (by simp [headerFields]) (by omega) fun hmem => hlink (List.mem_of_mem_take hmem)
  have hmode := @numberAt_ustar path kind h size 100 8 (h.mode &&& 0o7777) (by simp [headerFields])
    (by omega) (by omega)
  have huid := @numberAt_ustar path kind h size 108 8 h.uid (by simp [headerFields]) (by omega)
    (by omega)
  have hgid := @numberAt_ustar path kind h size 116 8 h.gid (by simp [headerFields]) (by omega)
    (by omega)
  have hsize := @numberAt_ustar path kind h size 124 12 size (by simp [headerFields]) (by omega)
    (by omega)
  have hsecs := @numberAt_ustar_if path kind h size (0 ≤ h.mtime.secs) _ 136 12 h.mtime.secs.toNat
    (by simp [headerFields]) (by omega) (by omega)
  have hmajor := @numberAt_ustar_if path kind h size (h.isDevice = true) _ 329 8 h.major
    (by simp [headerFields]) (by omega) (by omega)
  have hminor := @numberAt_ustar_if path kind h size (h.isDevice = true) _ 337 8 h.minor
    (by simp [headerFields]) (by omega) (by omega)
  unfold readHeader
  rw [if_neg (not_or.mpr ⟨not_not.mpr hmagic, not_not.mpr checksumRight_ustar⟩), hmode, huid, hgid,
    hsize, hsecs, hmajor, hminor, hprefix, hname, htarget, hflag]
  rfl

end

end FioXfs.Tar
