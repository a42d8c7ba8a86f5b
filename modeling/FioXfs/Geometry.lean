import FioXfs.Superblock
set_option autoImplicit false

/-!
# The geometry a superblock promises

What parsing checks, what it shifts by on the way, and the relations between fields that the
address arithmetic relies on.  A log byte is shifted by before it is compared with anything, so
a byte too large for its word stops the parser; and two relations the writer needs are not
checked at all.
-/

namespace FioXfs.Superblock

open FioXfs.Lib

/-! ## The relations -/

/-- The relations between fields under which every address and length is worked out without
losing bits. -/
structure Geometry (sb : Superblock) : Prop where
  blockSize_eq : sb.blockSize = 2 ^ sb.blockLog
  inopb_eq : sb.inodesPerBlock = 2 ^ sb.inopbLog
  inode_fill : sb.inodesPerBlock * sb.inodeSize = sb.blockSize
  agBlocks_le : sb.agBlocks ≤ 2 ^ sb.agblkLog
  dir_le : sb.blockSize * 2 ^ sb.dirblkLog ≤ 65536
  agino_le : sb.agblkLog + sb.inopbLog ≤ 32
  lastGroup_gt : (sb.agCount - 1) * sb.agBlocks < sb.dataBlocks
  lastGroup_le : sb.dataBlocks ≤ sb.agCount * sb.agBlocks
  agLen_pos : ∀ k < sb.agCount, ∃ len, sb.agLen k = .ok len ∧ 1 ≤ len

/-- Parsing shifts and multiplies within its words, and what it accepts is sound. -/
def ParsesSoundly (buf : Bytes) : Prop :=
  (∀ why, parse buf ≠ .error (.panic why)) ∧
    (fields buf).inodesPerBlock * (fields buf).inodeSize < 2 ^ 32 ∧
    ∀ sb, parse buf = .ok sb → Geometry sb

/-! ## The checks, one group for each shift they stand before -/

/-- What is looked at before the geometry. -/
def Headed (buf : Bytes) : Prop :=
  be32 buf 0 = MAGIC ∧ checkVersion buf (fields buf) = .ok ()

/-- A block size of the format. -/
def BlockOk (sb : Superblock) : Prop :=
  (512 ≤ sb.blockSize ∧ sb.blockSize ≤ 65536) ∧ isPowerOfTwo sb.blockSize = true

/-- The inodes of a block fill it. -/
def InodesFill (sb : Superblock) : Prop :=
  2 ^ sb.blockLog = sb.blockSize ∧ isPowerOfTwo sb.inodeSize = true ∧
    (256 ≤ sb.inodeSize ∧ sb.inodeSize ≤ 2048) ∧ sb.inodesPerBlock * sb.inodeSize = sb.blockSize

/-- There are groups, and they have blocks. -/
def GroupsExist (sb : Superblock) : Prop :=
  2 ^ sb.inopbLog = sb.inodesPerBlock ∧ sb.agCount ≠ 0 ∧ sb.agBlocks ≠ 0

/-- A group's blocks are numbered in `agblkLog` bits. -/
def GroupFits (sb : Superblock) : Prop := sb.agBlocks ≤ 2 ^ sb.agblkLog ∧ sb.agblkLog ≤ 31

/-- The directory block as the parser sees it, after the shift has lost what it loses. -/
def DirSeen (sb : Superblock) : Prop := (sb.blockSize <<< sb.dirblkLog) % 2 ^ 64 ≤ 65536

/-- Every log byte that is shifted by is smaller than the word's width. -/
structure LogsFit (sb : Superblock) : Prop where
  block : BlockOk sb → sb.blockLog < 32
  inopb : BlockOk sb → InodesFill sb → sb.inopbLog < 32
  agblk : BlockOk sb → InodesFill sb → GroupsExist sb → sb.agblkLog < 64
  dirblk : BlockOk sb → InodesFill sb → GroupsExist sb → GroupFits sb → sb.dirblkLog < 64

/-- Everything that is checked holds. -/
def Checked (sb : Superblock) : Prop :=
  BlockOk sb ∧ InodesFill sb ∧ GroupsExist sb ∧ GroupFits sb ∧ DirSeen sb

/-- What is not checked: that the directory block's shift loses no bits, that inode numbers of a
group fit in 32 bits, and that the data device ends in the last group. -/
structure Unseen (sb : Superblock) : Prop where
  dir : sb.blockLog + sb.dirblkLog < 64
  agino : sb.agblkLog + sb.inopbLog ≤ 32
  lastGroup_gt : (sb.agCount - 1) * sb.agBlocks < sb.dataBlocks
  lastGroup_le : sb.dataBlocks ≤ sb.agCount * sb.agBlocks

section
variable {sb : Superblock}

theorem shl32_one_of_lt {n : Nat} (h : n < 32) : shl32 1 n = .ok (2 ^ n) := by
  have hlt : 2 ^ n < 2 ^ 32 := Nat.pow_lt_pow_right (by norm_num) h
  rw [shl32, if_pos h, Nat.one_shiftLeft, Nat.mod_eq_of_lt hlt]

theorem shl64_one_of_lt {n : Nat} (h : n < 64) : shl64 1 n = .ok (2 ^ n) := by
  have hlt : 2 ^ n < 2 ^ 64 := Nat.pow_lt_pow_right (by norm_num) h
  rw [shl64, if_pos h, Nat.one_shiftLeft, Nat.mod_eq_of_lt hlt]

theorem shl32_of_le {x n : Nat} (h : 32 ≤ n) :
    shl32 x n = .error (.panic "attempt to shift left with overflow") := by
  rw [shl32, if_neg (by omega)]

theorem shl64_of_le {x n : Nat} (h : 64 ≤ n) :
    shl64 x n = .error (.panic "attempt to shift left with overflow") := by
  rw [shl64, if_neg (by omega)]

/-! ## The outcomes of the geometry check -/

/-- What `1 << n` stops with. -/
def TooFar : Error := .panic "attempt to shift left with overflow"

theorem InodesFill.log_lt (hb : BlockOk sb) (hi : InodesFill sb) : sb.blockLog < 32 := by
  by_contra hge
  have hpow : 2 ^ 32 ≤ 2 ^ sb.blockLog := Nat.pow_le_pow_right (by norm_num) (by omega)
  have hle := hb.1.2
  have heq := hi.1
  omega

theorem GroupsExist.log_lt (hb : BlockOk sb) (hi : InodesFill sb) (hg : GroupsExist sb) :
    sb.inopbLog < 32 := by
  by_contra hge
  have hpow : 2 ^ 32 ≤ 2 ^ sb.inopbLog := Nat.pow_le_pow_right (by norm_num) (by omega)
  have hle := hb.1.2
  have hmul : sb.inodesPerBlock * 256 ≤ sb.inodesPerBlock * sb.inodeSize :=
    Nat.mul_le_mul_left _ hi.2.2.1.1
  have heq := hi.2.2.2
  have heq' := hg.1
  omega

theorem checkGeometry_block (hb : BlockOk sb) (h : 32 ≤ sb.blockLog) :
    sb.checkGeometry = .error TooFar := by
  unfold checkGeometry
  rw [except_throwIf_bind_of_not (not_not.mpr hb.1), except_throwIf_bind_of_not (by simp [hb.2]),
    shl32_of_le h]
  rfl

theorem checkGeometry_inopb (hb : BlockOk sb) (hi : InodesFill sb) (h : 32 ≤ sb.inopbLog) :
    sb.checkGeometry = .error TooFar := by
  unfold checkGeometry
  rw [except_throwIf_bind_of_not (not_not.mpr hb.1), except_throwIf_bind_of_not (by simp [hb.2]),
    shl32_one_of_lt (hi.log_lt hb), except_ok_bind, except_throwIf_bind_of_not (not_not.mpr hi.1),
    except_throwIf_bind_of_not (by simp [hi.2.1]),
    except_throwIf_bind_of_not (not_not.mpr hi.2.2.1),
    except_throwIf_bind_of_not (not_not.mpr hi.2.2.2), shl32_of_le h]
  rfl

/-- Past the two shifts of a 32-bit word, what is left is the groups and the directory block. -/
theorem checkGeometry_groups (hb : BlockOk sb) (hi : InodesFill sb) (hg : GroupsExist sb) :
    sb.checkGeometry = (do
      let agUnit ← shl64 1 sb.agblkLog
      failIf (sb.agBlocks > agUnit) (.corrupt "superblock geometry")
      failIf (sb.agblkLog > 31) (.corrupt "superblock geometry")
      let dirUnit ← shl64 sb.blockSize sb.dirblkLog
      failIf (dirUnit > 65536) (.corrupt "superblock geometry")) := by
  unfold checkGeometry
  rw [except_throwIf_bind_of_not (not_not.mpr hb.1), except_throwIf_bind_of_not (by simp [hb.2]),
    shl32_one_of_lt (hi.log_lt hb), except_ok_bind, except_throwIf_bind_of_not (not_not.mpr hi.1),
    except_throwIf_bind_of_not (by simp [hi.2.1]),
    except_throwIf_bind_of_not (not_not.mpr hi.2.2.1),
    except_throwIf_bind_of_not (not_not.mpr hi.2.2.2), shl32_one_of_lt (hg.log_lt hb hi),
    except_ok_bind, except_throwIf_bind_of_not (not_not.mpr hg.1),
    except_throwIf_bind_of_not hg.2.1, except_throwIf_bind_of_not hg.2.2]

theorem checkGeometry_ok (hl : LogsFit sb) (hc : Checked sb) : sb.checkGeometry = .ok () := by
  obtain ⟨hb, hi, hg, ha, hd⟩ := hc
  rw [checkGeometry_groups hb hi hg, shl64_one_of_lt (hl.agblk hb hi hg), except_ok_bind,
    except_throwIf_bind_of_not (not_lt.mpr ha.1), except_throwIf_bind_of_not (not_lt.mpr ha.2),
    shl64, if_pos (hl.dirblk hb hi hg ha), except_ok_bind]
  exact except_throwIf_of_not (not_lt.mpr hd)

/-- A shift too far is reached when the checks before it pass, and stops the parser. -/
theorem checkGeometry_tooFar (h : ¬LogsFit sb) : sb.checkGeometry = .error TooFar := by
  by_contra hne
  refine h ⟨fun hb => ?_, fun hb hi => ?_, fun hb hi hg => ?_, fun hb hi hg ha => ?_⟩
  · exact not_le.mp fun hge => hne (checkGeometry_block hb hge)
  · exact not_le.mp fun hge => hne (checkGeometry_inopb hb hi hge)
  · refine not_le.mp fun hge => hne ?_
    rw [checkGeometry_groups hb hi hg, shl64_of_le hge]
    rfl
  · refine not_le.mp fun hge => hne ?_
    rw [checkGeometry_groups hb hi hg, shl64_one_of_lt (by have := ha.2; omega), except_ok_bind,
      except_throwIf_bind_of_not (not_lt.mpr ha.1), except_throwIf_bind_of_not (not_lt.mpr ha.2),
      shl64_of_le hge]
    rfl

theorem logsFit_of_ne_panic (h : ∀ why, sb.checkGeometry ≠ .error (.panic why)) : LogsFit sb := by
  by_contra hne
  exact h _ (checkGeometry_tooFar hne)

theorem shl32_error {x n : Nat} {e : Error} (h : shl32 x n = .error e) : 32 ≤ n := by
  unfold shl32 at h
  split at h
  · cases h
  · omega

theorem shl64_error {x n : Nat} {e : Error} (h : shl64 x n = .error e) : 64 ≤ n := by
  unfold shl64 at h
  split at h
  · cases h
  · omega

/-- The geometry check stops only at a shift that was reached. -/
theorem checkGeometry_ne_panic (hl : LogsFit sb) (why : String) :
    sb.checkGeometry ≠ .error (.panic why) := by
  intro h
  simp only [checkGeometry, except_bind_eq_error, except_throwIf_eq_error, reduceCtorEq, and_false,
    false_or, except_throwIf_eq_ok, exists_const, not_not] at h
  obtain ⟨hbs, hpow, h⟩ := h
  have hb : BlockOk sb := ⟨hbs, by simpa using hpow⟩
  obtain herr | ⟨bu, hbu, hbue, hip, his, hfill, h⟩ := h
  · have := hl.block hb
    have := shl32_error herr
    omega
  have hi : InodesFill sb := ⟨(shl32_one hbu).2 ▸ hbue, by simpa using hip, his, hfill⟩
  obtain herr | ⟨iu, hiu, hiue, hagc, hagb, h⟩ := h
  · have := hl.inopb hb hi
    have := shl32_error herr
    omega
  have hg : GroupsExist sb := ⟨(shl32_one hiu).2 ▸ hiue, hagc, hagb⟩
  obtain herr | ⟨au, hau, haue, hal, h⟩ := h
  · have := hl.agblk hb hi hg
    have := shl64_error herr
    omega
  have ha : GroupFits sb := ⟨(shl64_one hau).2 ▸ not_lt.mp haue, not_lt.mp hal⟩
  obtain herr | ⟨_, _, _, h⟩ := h
  · have := hl.dirblk hb hi hg ha
    have := shl64_error herr
    omega

/-- What is accepted has passed every check. -/
theorem checked_of_checkGeometry (h : sb.checkGeometry = .ok ()) : Checked sb := by
  simp only [checkGeometry, except_bind_eq_ok, except_throwIf_eq_ok, exists_const, not_not] at h
  obtain ⟨hbs, hpow, bu, hbu, hbue, hip, his, hfill, iu, hiu, hiue, hagc, hagb, au, hau, haue,
    hal, du, hdu, hdue⟩ := h
  have hdir : DirSeen sb := by
    unfold shl64 at hdu
    split at hdu
    · cases hdu
      exact not_lt.mp hdue
    · cases hdu
  exact ⟨⟨hbs, by simpa using hpow⟩, ⟨(shl32_one hbu).2 ▸ hbue, by simpa using hip, his, hfill⟩,
    ⟨(shl32_one hiu).2 ▸ hiue, hagc, hagb⟩,
    ⟨(shl64_one hau).2 ▸ not_lt.mp haue, not_lt.mp hal⟩, hdir⟩

/-! ## What the unchecked relations decide -/

theorem shiftLeft_blockSize (hi : InodesFill sb) :
    sb.blockSize <<< sb.dirblkLog = 2 ^ (sb.blockLog + sb.dirblkLog) := by
  rw [Nat.shiftLeft_eq, ← hi.1, Nat.pow_add]

/-- The directory block is as small as it looks when the shift loses no bits. -/
theorem dir_le_iff (hi : InodesFill sb) (hd : DirSeen sb) :
    sb.blockSize * 2 ^ sb.dirblkLog ≤ 65536 ↔ sb.blockLog + sb.dirblkLog < 64 := by
  unfold DirSeen at hd
  rw [shiftLeft_blockSize hi] at hd
  rw [← Nat.shiftLeft_eq, shiftLeft_blockSize hi]
  constructor
  · intro hle
    by_contra hge
    have : 2 ^ 64 ≤ 2 ^ (sb.blockLog + sb.dirblkLog) := Nat.pow_le_pow_right (by norm_num) (by omega)
    omega
  · intro hlt
    rwa [Nat.mod_eq_of_lt (Nat.pow_lt_pow_right (by norm_num) hlt)] at hd

/-- A group below the count starts inside the data device and has a block. -/
theorem agLen_pos_of_lastGroup (hgt : (sb.agCount - 1) * sb.agBlocks < sb.dataBlocks)
    (hb : sb.agBlocks ≠ 0) {k : Nat} (hk : k < sb.agCount) :
    ∃ len, sb.agLen k = .ok len ∧ 1 ≤ len := by
  have hstart : k * sb.agBlocks ≤ (sb.agCount - 1) * sb.agBlocks :=
    Nat.mul_le_mul_right _ (by omega)
  refine ⟨min (sb.dataBlocks - k * sb.agBlocks) sb.agBlocks, ?_, by omega⟩
  unfold agLen
  exact if_pos (by omega)

/-- An accepted superblock is sound exactly when the unchecked relations hold too. -/
theorem geometry_iff (hc : Checked sb) : Geometry sb ↔ Unseen sb := by
  obtain ⟨_, hi, hg, ha, hd⟩ := hc
  constructor
  · intro h
    exact ⟨(dir_le_iff hi hd).mp h.dir_le, h.agino_le, h.lastGroup_gt, h.lastGroup_le⟩
  · intro h
    exact
      { blockSize_eq := hi.1.symm
        inopb_eq := hg.1.symm
        inode_fill := hi.2.2.2
        agBlocks_le := ha.1
        dir_le := (dir_le_iff hi hd).mpr h.dir
        agino_le := h.agino
        lastGroup_gt := h.lastGroup_gt
        lastGroup_le := h.lastGroup_le
        agLen_pos := fun _ => agLen_pos_of_lastGroup h.lastGroup_gt hg.2.2 }

end

/-! ## The parser -/

theorem checkVersion_ne_panic (buf : Bytes) (sb : Superblock) (why : String) :
    checkVersion buf sb ≠ .error (.panic why) := by
  unfold checkVersion
  intro h
  split_ifs at h
  · simp only [except_bind_eq_error, except_throwIf_eq_error, reduceCtorEq, and_false,
      exists_false, or_self] at h
  · simp only [except_bind_eq_error, except_throwIf_eq_error, reduceCtorEq, and_false,
      exists_false, or_self] at h
  · cases h

/-- Past the header, parsing is the geometry check. -/
theorem parse_of_headed {buf : Bytes} (hlen : 512 ≤ buf.length) (h : Headed buf) :
    parse buf = (do checkGeometry (fields buf); return fields buf) := by
  unfold parse
  rw [except_throwIf_bind_of_not (by omega), except_throwIf_bind_of_not (not_not.mpr h.1)]
  simp only [h.2, except_ok_bind]

/-- A buffer without a header of the format is refused. -/
theorem parse_of_not_headed {buf : Bytes} (h : ¬Headed buf) :
    ∃ e, parse buf = .error e ∧ ∀ why, e ≠ .panic why := by
  cases hp : parse buf with
  | ok sb =>
    simp only [parse, except_bind_eq_ok, except_throwIf_eq_ok, exists_const, not_not] at hp
    obtain ⟨-, hmagic, _, hver, -⟩ := hp
    exact absurd ⟨hmagic, hver⟩ h
  | error e =>
    refine ⟨e, rfl, ?_⟩
    rintro why rfl
    simp only [parse, except_bind_eq_error, except_throwIf_eq_error, reduceCtorEq, and_false,
      false_or, except_throwIf_eq_ok, exists_const, not_not] at hp
    obtain ⟨-, hmagic, hver | ⟨_, hver, -⟩⟩ := hp
    · exact checkVersion_ne_panic _ _ _ hver
    · exact h ⟨hmagic, hver⟩

theorem fields_product_lt (buf : Bytes) :
    (fields buf).inodesPerBlock * (fields buf).inodeSize < 2 ^ 32 := by
  have h1 : (fields buf).inodesPerBlock < 2 ^ 16 := (getBe_lt 2 buf 106).trans_eq (by norm_num)
  have h2 : (fields buf).inodeSize < 2 ^ 16 := (getBe_lt 2 buf 104).trans_eq (by norm_num)
  calc (fields buf).inodesPerBlock * (fields buf).inodeSize
      < 2 ^ 16 * 2 ^ 16 := Nat.mul_lt_mul_of_lt_of_lt h1 h2
    _ = 2 ^ 32 := by norm_num

/-- Parsing is sound exactly on the buffers whose log bytes fit the words they are shifted in
and, where every check passes, whose groups' inode numbers fit in 32 bits and whose data device
ends in the last group. -/
theorem parses_soundly_iff (buf : Bytes) (hlen : 512 ≤ buf.length) :
    ParsesSoundly buf ↔
      (Headed buf → LogsFit (fields buf) ∧ (Checked (fields buf) → Unseen (fields buf))) := by
  constructor
  · rintro ⟨hne, -, hsound⟩ hh
    rw [parse_of_headed hlen hh] at hne
    have hl : LogsFit (fields buf) := by
      refine logsFit_of_ne_panic fun why h => hne why ?_
      rw [h]
      rfl
    refine ⟨hl, fun hc => (geometry_iff hc).mp (hsound (fields buf) ?_)⟩
    rw [parse_of_headed hlen hh, checkGeometry_ok hl hc]
    rfl
  · intro h
    by_cases hh : Headed buf
    · obtain ⟨hl, hu⟩ := h hh
      refine ⟨fun why hp => ?_, fields_product_lt buf, fun sb hp => ?_⟩
      · rw [parse_of_headed hlen hh, except_bind_eq_error] at hp
        obtain hp | ⟨_, _, hp⟩ := hp
        · exact checkGeometry_ne_panic hl why hp
        · cases hp
      · rw [parse_of_headed hlen hh, except_bind_eq_ok] at hp
        obtain ⟨_, hg, hp⟩ := hp
        cases hp
        have hc := checked_of_checkGeometry hg
        exact (geometry_iff hc).mpr (hu hc)
    · obtain ⟨e, he, hne⟩ := parse_of_not_headed hh
      refine ⟨fun why hp => ?_, fields_product_lt buf, fun sb hp => ?_⟩
      · rw [he] at hp
        exact hne why (Except.error.inj hp)
      · rw [he] at hp
        cases hp

theorem checked_of_parse {buf : Bytes} {sb : Superblock} (h : parse buf = .ok sb) : Checked sb := by
  simp only [parse, except_bind_eq_ok, except_throwIf_eq_ok, exists_const] at h
  obtain ⟨-, -, _, -, _, hg, hsb⟩ := h
  obtain rfl : fields buf = sb := by simpa [pure, Except.pure] using hsb
  exact checked_of_checkGeometry hg

/-- Where the directory block size is worked out at all, no bits are lost. -/
theorem dirBlockSize_of_parse {buf : Bytes} {sb : Superblock} {n : Nat} (h : parse buf = .ok sb)
    (hn : sb.dirBlockSize = .ok n) :
    n = sb.blockSize * 2 ^ sb.dirblkLog ∧ 512 ≤ n ∧ n ≤ 65536 := by
  obtain ⟨⟨⟨hlo, hhi⟩, -⟩, -, -, -, hd⟩ := checked_of_parse h
  unfold dirBlockSize shl32 at hn
  split at hn
  · rename_i hlog
    have hpow : 2 ^ sb.dirblkLog < 2 ^ 32 := Nat.pow_lt_pow_right (by norm_num) hlog
    have hone : 1 ≤ 2 ^ sb.dirblkLog := Nat.two_pow_pos _
    have hlt : sb.blockSize * 2 ^ sb.dirblkLog < 2 ^ 64 :=
      calc sb.blockSize * 2 ^ sb.dirblkLog ≤ 65536 * 2 ^ sb.dirblkLog := Nat.mul_le_mul_right _ hhi
        _ < 2 ^ 64 := by omega
    have hge : sb.blockSize * 1 ≤ sb.blockSize * 2 ^ sb.dirblkLog := Nat.mul_le_mul_left _ hone
    unfold DirSeen at hd
    rw [Nat.shiftLeft_eq, Nat.mod_eq_of_lt hlt] at hd
    rw [Nat.shiftLeft_eq, Nat.mod_eq_of_lt (by omega)] at hn
    cases hn
    omega
  · cases hn

set_option maxRecDepth 100000 in
theorem parses_soundly_fresh :
    512 ≤ (freshSector 16 true).length ∧ ParsesSoundly (freshSector 16 true) := by
  have hf : fields (freshSector 16 true) = freshSb 16 true := by decide +kernel
  refine ⟨by decide +kernel, (parses_soundly_iff _ (by decide +kernel)).mpr fun _ => ?_⟩
  rw [hf]
  exact ⟨⟨fun _ => by decide, fun _ _ => by decide, fun _ _ _ => by decide,
    fun _ _ _ _ => by decide⟩, fun _ => ⟨by decide, by decide, by decide, by decide⟩⟩

/-! ## Superblocks that are not refused as they should be -/

/-- A version 4 superblock of `agCount` groups of 16 blocks and `dataBlocks` blocks in all. -/
def plainSector (blockLog dataBlocks agCount : Nat) : Bytes :=
  let b : Bytes := List.replicate 512 0
  let b := put32 b 0 MAGIC
  let b := put32 b 4 512
  let b := put64 b 8 dataBlocks
  let b := put32 b 84 16
  let b := put32 b 88 agCount
  let b := put16 b 100 (4 + VERSION_DIRV2)
  let b := put16 b 102 512
  let b := put16 b 104 256
  let b := put16 b 106 2
  let b := putBe 1 b 120 blockLog
  let b := putBe 1 b 123 1
  putBe 1 b 124 4

set_option maxRecDepth 100000 in
/-- A block log of 32 stops the parser, and two groups are accepted where the blocks end in the
first: the length of the second is not defined. -/
theorem parses_unsoundly :
    ¬ParsesSoundly (plainSector 32 32 2) ∧ ¬ParsesSoundly (plainSector 9 10 2) := by
  constructor
  · intro h
    refine h.1 "attempt to shift left with overflow" ?_
    decide +kernel
  · intro h
    have hp : ∃ sb, parse (plainSector 9 10 2) = .ok sb ∧ sb.dataBlocks = 10 ∧
        (sb.agCount - 1) * sb.agBlocks = 16 := by
      refine ⟨fields (plainSector 9 10 2), ?_, ?_, ?_⟩ <;> decide +kernel
    obtain ⟨sb, hp, hd, hs⟩ := hp
    have := (h.2.2 sb hp).lastGroup_gt
    omega

end FioXfs.Superblock
