import FioXfs.DirWrite
set_option autoImplicit false

/-!
# The short form, and the block it stands for

A short-form directory records for each name the offset it would have in a single block.  The
form is chosen by the inode's data fork alone, so in a filesystem of small directory blocks a
name can be given an offset in a block that would not hold the directory.
-/

namespace FioXfs.DirWrite

open FioXfs.Lib FioXfs.Dir

/-! ## Offsets -/

/-- The offset of entry `k` in a block that holds `all`. -/
def entryOffset (all : List DirEnt) (k : Nat) : Nat := HDR + usedBytes (all.take k)

/-- Where entry `k` starts in a short form. -/
def shortAt (isz : Nat) (names : List DirEnt) (k : Nat) : Nat :=
  2 + isz + ((names.take k).map fun e => 1 + 2 + e.name.length + 1 + isz).sum

/-- The offset a short form records for entry `k`, past the length of its name. -/
def sfOffset (parent : Nat) (names : List DirEnt) (bytes : Bytes) (k : Nat) : Nat :=
  getBe 2 bytes (shortAt (shortIsz parent names) names k + 1)

/-- Bytes of the single block that would hold the names: the entries, the hash index and the
tail. -/
def blockSizeOf (all : List DirEnt) : Nat :=
  entryOffset all all.length + 8 * all.length + 8

/-- What a short form promises the kernel: its offsets are those of the single block, in order,
and that block would do. -/
def ShortFormSound (sb : Superblock) (ino parent : Nat) (names : List DirEnt) (forkSize : Nat) :
    Prop :=
  ∀ bytes, layout sb ino parent names forkSize = .ok (.short bytes) →
    (∀ k < names.length,
      sfOffset parent names bytes k = entryOffset (withDots ino parent names) (k + 2)) ∧
    (∀ j k, j < k → k < names.length →
      sfOffset parent names bytes j < sfOffset parent names bytes k) ∧
    ∃ dbs, sb.dirBlockSize = .ok dbs ∧ blockSizeOf (withDots ino parent names) ≤ dbs

section
variable {names all : List DirEnt} {ino parent isz forkSize : Nat}

@[simp] theorem usedBytes_cons (e : DirEnt) (es : List DirEnt) :
    usedBytes (e :: es) = entsize e.name.length + usedBytes es := by
  simp [usedBytes]

/-- The names come after `.` and `..`, which take sixteen bytes each. -/
theorem entryOffset_withDots (k : Nat) :
    entryOffset (withDots ino parent names) (k + 2) = HDR + 32 + usedBytes (names.take k) := by
  simp [entryOffset, withDots, entsize]
  omega

theorem entsize_ge (n : Nat) : 16 ≤ entsize n := by
  unfold entsize
  omega

theorem entsize_le (n : Nat) : entsize n + 8 ≤ 3 * (n + 8) := by
  unfold entsize
  omega

theorem usedBytes_take_succ {k : Nat} (hk : k < all.length) :
    usedBytes (all.take (k + 1)) = usedBytes (all.take k) + entsize all[k].name.length := by
  rw [usedBytes, List.take_succ_eq_append_getElem hk, List.map_append, List.sum_append, usedBytes]
  simp

/-- A name farther on has a greater offset. -/
theorem usedBytes_take_lt {j k : Nat} (hjk : j < k) (hk : k ≤ all.length) :
    usedBytes (all.take j) < usedBytes (all.take k) := by
  induction k with
  | zero => omega
  | succ k ih =>
    have hstep := @usedBytes_take_succ all k (by omega)
    have hpos := entsize_ge all[k].name.length
    by_cases h : j = k
    · subst h
      omega
    · have := ih (by omega) (by omega)
      omega

/-! ## What the short form records -/

theorem getBe_toBe_mod (b : Bytes) (w v : Nat) : getBe w (toBe w v ++ b) 0 = v % 256 ^ w := by
  have hz := slice_zero_length (toBe w v)
  rw [length_toBe] at hz
  rw [getBe, slice_append_left (by simp), hz, beNat_toBe_mod]

/-- The offset recorded for entry `k`, as a 16-bit word. -/
theorem getBe_shortBody {k : Nat} (hk : k < names.length) (offset : Nat) :
    getBe 2 (shortBody isz offset names)
        (((names.take k).map fun e => 1 + 2 + e.name.length + 1 + isz).sum + 1) =
      (offset + usedBytes (names.take k)) % 256 ^ 2 := by
  induction names generalizing k offset with
  | nil => simp at hk
  | cons e es ih =>
    cases k with
    | zero =>
      have hat := getBe_append (w := 2) (toBe 1 e.name.length) (toBe 2 offset ++ e.name ++
        toBe 1 e.ftype ++ toBe isz e.ino ++ shortBody isz (offset + entsize e.name.length) es) 0
      simp only [length_toBe, List.append_assoc, getBe_toBe_mod] at hat
      simpa [shortBody, usedBytes] using hat
    | succ k =>
      have hrec : (toBe 1 e.name.length ++ toBe 2 offset ++ e.name ++ toBe 1 e.ftype ++
          toBe isz e.ino).length = 1 + 2 + e.name.length + 1 + isz := by
        simp
        omega
      have hat := getBe_append (w := 2) (toBe 1 e.name.length ++ toBe 2 offset ++ e.name ++
        toBe 1 e.ftype ++ toBe isz e.ino) (shortBody isz (offset + entsize e.name.length) es)
        (((es.take k).map fun e => 1 + 2 + e.name.length + 1 + isz).sum + 1)
      rw [hrec, ih (by simpa using hk)] at hat
      rw [shortBody, List.take_succ_cons, List.map_cons, List.sum_cons, usedBytes_cons,
        Nat.add_assoc, hat, Nat.add_assoc]

/-- An entry takes at most three times as much of the block, its index entry included, as of the
short form. -/
theorem usedBytes_le (hisz : 4 ≤ isz) (es : List DirEnt) : usedBytes es + 8 * es.length ≤
    3 * (es.map fun e => 1 + 2 + e.name.length + 1 + isz).sum := by
  induction es with
  | nil => simp [usedBytes]
  | cons e es ih =>
    have hent := entsize_le e.name.length
    rw [usedBytes_cons, List.length_cons, List.map_cons, List.sum_cons]
    omega

theorem shortIsz_ge : 4 ≤ shortIsz parent names := by
  unfold shortIsz
  split <;> omega

theorem usedBytes_le_shortSize :
    usedBytes names + 8 * names.length + 18 ≤ 3 * shortSize parent names := by
  have hisz : 4 ≤ shortIsz parent names := shortIsz_ge
  have hsum := usedBytes_le hisz names
  have hsize : shortSize parent names = 2 + shortIsz parent names +
    (names.map fun e => 1 + 2 + e.name.length + 1 + shortIsz parent names).sum := rfl
  omega

/-- The short form is taken when there are at most 255 names and they fit. -/
theorem shortform_eq_some {bytes : Bytes} (h : shortform parent names forkSize = some bytes) :
    (names.length ≤ 255 ∧ shortSize parent names ≤ forkSize) ∧
      bytes = toBe 1 names.length ++ toBe 1 (i8count parent names) ++
        toBe (shortIsz parent names) parent ++
        shortBody (shortIsz parent names) (HDR + entsize 1 + entsize 2) names := by
  unfold shortform at h
  split at h
  · cases h
  · rename_i hlen
    split at h
    · cases h
    · rename_i hsize
      exact ⟨⟨by omega, by omega⟩, (Option.some.inj h).symm⟩

theorem shortform_isSome (hlen : names.length ≤ 255) (hsize : shortSize parent names ≤ forkSize) :
    ∃ bytes, shortform parent names forkSize = some bytes := by
  unfold shortform
  rw [if_neg (by omega), if_neg (by omega)]
  exact ⟨_, rfl⟩

/-- The offset of entry `k` in the short form is the one it has in the single block. -/
theorem sfOffset_eq {bytes : Bytes} (hfork : forkSize ≤ 2048)
    (h : shortform parent names forkSize = some bytes) {k : Nat} (hk : k < names.length) :
    sfOffset parent names bytes k = entryOffset (withDots ino parent names) (k + 2) := by
  obtain ⟨⟨-, hsize⟩, rfl⟩ := shortform_eq_some h
  have hhead : (toBe 1 names.length ++ toBe 1 (i8count parent names) ++
      toBe (shortIsz parent names) parent).length = 2 + shortIsz parent names := by
    simp
    omega
  have hsmall : HDR + entsize 1 + entsize 2 + usedBytes (names.take k) < 256 ^ 2 := by
    have hle := usedBytes_take_lt hk (le_refl names.length)
    rw [List.take_length] at hle
    have hall := @usedBytes_le_shortSize names parent
    simp only [HDR, entsize]
    omega
  unfold sfOffset shortAt
  rw [Nat.add_assoc (2 + _), ← hhead, getBe_append, getBe_shortBody hk, Nat.mod_eq_of_lt hsmall,
    entryOffset_withDots]
  rfl

theorem blockSizeOf_withDots :
    blockSizeOf (withDots ino parent names) = 120 + usedBytes names + 8 * names.length := by
  have hlen : (withDots ino parent names).length = names.length + 2 := rfl
  unfold blockSizeOf
  rw [hlen, entryOffset_withDots, List.take_length]
  unfold HDR
  omega

/-! ## When the block would do -/

theorem layout_eq_short {sb : Superblock} {bytes : Bytes} :
    layout sb ino parent names forkSize = .ok (.short bytes) ↔
      shortform parent names forkSize = some bytes := by
  unfold layout
  cases hs : shortform parent names forkSize with
  | some sf => simp
  | none =>
    simp only [reduceCtorEq, iff_false]
    intro h
    obtain ⟨dbs, -, h⟩ := except_bind_eq_ok.mp h
    obtain ⟨per, -, h⟩ := except_bind_eq_ok.mp h
    split at h
    · cases h
    · unfold indexedForm at h
      obtain ⟨groups, -, h⟩ := except_bind_eq_ok.mp h
      simp only at h
      split at h <;> cases h

/-- A short form stands for a block that would do exactly when the names, sixteen bytes or more
each with eight of index, fit in a directory block beside `.` and `..`. -/
theorem short_form_sound_iff {sb : Superblock} {sector : Bytes}
    (hsb : Superblock.parse sector = .ok sb) (hfork : forkSize ≤ sb.inodeSize) :
    ShortFormSound sb ino parent names forkSize ↔
      (names.length ≤ 255 → shortSize parent names ≤ forkSize →
        ∃ dbs, sb.dirBlockSize = .ok dbs ∧
          120 + (names.map fun e => entsize e.name.length + 8).sum ≤ dbs) := by
  have hs := Superblock.sound_of_parse hsb
  have hfork' : forkSize ≤ 2048 := hfork.trans hs.inodeSize_le
  have hsum : (names.map fun e => entsize e.name.length + 8).sum =
      usedBytes names + 8 * names.length := by
    clear hfork hfork' hsb hs
    induction names with
    | nil => rfl
    | cons e es ih =>
      rw [List.map_cons, List.sum_cons, ih, usedBytes_cons, List.length_cons]
      omega
  rw [hsum]
  constructor
  · intro h hlen hsize
    obtain ⟨bytes, hb⟩ := shortform_isSome hlen hsize
    obtain ⟨-, -, dbs, hdbs, hle⟩ := h bytes (layout_eq_short.mpr hb)
    rw [blockSizeOf_withDots] at hle
    exact ⟨dbs, hdbs, by omega⟩
  · intro h bytes hb
    rw [layout_eq_short] at hb
    obtain ⟨⟨hlen, hsize⟩, -⟩ := shortform_eq_some hb
    obtain ⟨dbs, hdbs, hle⟩ := h hlen hsize
    refine ⟨fun k hk => sfOffset_eq hfork' hb hk, fun j k hjk hk => ?_, dbs, hdbs, ?_⟩
    · rw [@sfOffset_eq _ ino _ _ _ hfork' hb j (by omega), @sfOffset_eq _ ino _ _ _ hfork' hb k hk,
        entryOffset_withDots, entryOffset_withDots]
      have := usedBytes_take_lt hjk hk.le
      omega
    · rw [blockSizeOf_withDots]
      omega

/-- A directory block three times the data fork is enough, whatever the names. -/
theorem block_holds_short {dbs : Nat} (hsize : shortSize parent names ≤ forkSize)
    (hdbs : 102 + 3 * forkSize ≤ dbs) : blockSizeOf (withDots ino parent names) ≤ dbs := by
  have hall := @usedBytes_le_shortSize names parent
  rw [blockSizeOf_withDots]
  omega

end

/-- One-letter names of files. -/
def letters (n : Nat) : List DirEnt :=
  (List.range n).map fun i => ⟨[UInt8.ofNat (48 + i)], 130 + i, 1⟩

/-- Two names in an 80-byte fork, in a filesystem of 512-byte blocks. -/
theorem short_form_sound_fresh :
    (Superblock.parse (freshSector 16 true) = .ok (freshSb 16 true) ∧
      80 ≤ (freshSb 16 true).inodeSize) ∧
    ShortFormSound (freshSb 16 true) 128 128 (letters 2) 80 :=
  ⟨⟨parse_fresh, by decide⟩,
    (short_form_sound_iff parse_fresh (by decide)).mpr fun _ _ => ⟨512, by decide, by decide⟩⟩

/-! ## A short form without a block -/

/-- Blocks of 512 bytes, each one inode. -/
def wideInodeSector : Bytes :=
  let b := freshSector 16 false
  let b := put16 b 104 512
  let b := put16 b 106 1
  let b := putBe 1 b 123 0
  Crc.stamp b 224

def wideInodeSb : Superblock := Superblock.fields wideInodeSector

set_option maxRecDepth 100000 in
/-- 36 one-letter names fit in the 336 bytes of the fork, and would take 984 bytes of a block of
512. -/
theorem short_form_without_block :
    Superblock.parse wideInodeSector = .ok wideInodeSb ∧ wideInodeSb.checkWritable = .ok () ∧
      ((letters 36).map (·.name)).Nodup ∧ ¬ShortFormSound wideInodeSb 128 128 (letters 36) (512 - 176) := by
  refine ⟨by decide +kernel, by decide +kernel, by decide +kernel, fun h => ?_⟩
  obtain ⟨bytes, hb⟩ := @shortform_isSome (letters 36) 128 (512 - 176) (by decide +kernel)
    (by decide +kernel)
  obtain ⟨-, -, dbs, hdbs, hle⟩ := h bytes (layout_eq_short.mpr hb)
  have h512 : wideInodeSb.dirBlockSize = .ok 512 := by decide +kernel
  rw [h512] at hdbs
  cases hdbs
  have hsize : blockSizeOf (withDots 128 128 (letters 36)) = 984 := by decide +kernel
  omega

end FioXfs.DirWrite
