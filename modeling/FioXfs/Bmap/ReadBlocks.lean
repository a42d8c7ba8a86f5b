import FioXfs.Bmap
import FioXfs.Geometry
set_option autoImplicit false

/-!
# Reading a run of blocks

`read_blocks` looks at the two ends of a run: that each is in an AG there is and below the AG
size every AG but the last has.  Block numbers are not linear, so that says nothing of the
blocks between, and the last AG may be short.
-/

namespace FioXfs.Bmap

open FioXfs.Lib

section
variable {dev : Device} {sb : Superblock} {fsb count : Nat}

/-! ## What a run is, and what is looked at -/

/-- The AG of a block, and its block number there. -/
def agOf (sb : Superblock) (fsb : Nat) : Nat := fsb / 2 ^ sb.agblkLog
def agbOf (sb : Superblock) (fsb : Nat) : Nat := fsb % 2 ^ sb.agblkLog

/-- All blocks of the run are blocks of one AG, below its own length. -/
def OneRun (sb : Superblock) (fsb count : Nat) : Prop :=
  agOf sb fsb < sb.agCount ∧ ∃ len, sb.agLen (agOf sb fsb) = .ok len ∧
    ∀ i < count, agOf sb (fsb + i) = agOf sb fsb ∧ agbOf sb (fsb + i) < len

/-- A run is read only as one run, block by block from where each block is, and any other run
is refused. -/
def ReadsAsRun (dev : Device) (sb : Superblock) (fsb count : Nat) : Prop :=
  (∀ buf, readBlocks dev sb fsb count = .ok buf →
    OneRun sb fsb count ∧ buf.length = count * sb.blockSize ∧
      ∀ i < count, ∃ at_, sb.fsbToByte (fsb + i) = .ok at_ ∧
        slice buf (i * sb.blockSize) sb.blockSize = slice dev.data at_ sb.blockSize) ∧
  (¬OneRun sb fsb count → ∃ e, readBlocks dev sb fsb count = .error e ∧ ∀ why, e ≠ .panic why)

/-- What is looked at: the block is in an AG there is, and below the size of a full AG. -/
def Inside (sb : Superblock) (fsb : Nat) : Prop :=
  agOf sb fsb < sb.agCount ∧ agbOf sb fsb < sb.agBlocks

/-- Where a block's first byte is, inside or not. -/
def byteOf (sb : Superblock) (fsb : Nat) : Nat :=
  ((agOf sb fsb * sb.agBlocks + agbOf sb fsb) <<< sb.blockLog) % 2 ^ 64

/-- Both ends are inside and the device has the bytes, so the run is read. -/
def Taken (dev : Device) (sb : Superblock) (fsb count : Nat) : Prop :=
  Inside sb fsb ∧ Inside sb (fsb + count - 1) ∧
    byteOf sb fsb + count * sb.blockSize ≤ dev.size

/-- The last block is in the first one's AG, below the AG's own length. -/
def EndsTogether (sb : Superblock) (fsb count : Nat) : Prop :=
  agOf sb (fsb + count - 1) = agOf sb fsb ∧
    ∃ len, sb.agLen (agOf sb fsb) = .ok len ∧ agbOf sb (fsb + count - 1) < len

theorem fsbToByte_of_inside (h : Inside sb fsb) : sb.fsbToByte fsb = .ok (byteOf sb fsb) := by
  unfold Superblock.fsbToByte
  exact if_neg (by unfold Inside agOf agbOf at h; omega)

theorem fsbToByte_of_not_inside (h : ¬Inside sb fsb) :
    sb.fsbToByte fsb = .error (.corrupt s!"block {fsb} outside the filesystem") := by
  unfold Superblock.fsbToByte
  exact if_pos (by unfold Inside agOf agbOf at h; omega)

/-- A run is read when its ends are inside and the device has the bytes; else it is refused,
and nothing stops the program. -/
theorem readBlocks_of_taken (hs : sb.Sound) (h : Taken dev sb fsb count) :
    readBlocks dev sb fsb count = .ok (slice dev.data (byteOf sb fsb) (count * sb.blockSize)) := by
  obtain ⟨h1, h2, h3⟩ := h
  unfold readBlocks
  rw [fsbToByte_of_inside h1, except_ok_bind, fsbToByte_of_inside h2, except_ok_bind,
    Nat.shiftLeft_eq, ← hs.blockSize_eq]
  exact Device.readAt_eq_ok.mpr ⟨h3, rfl⟩

theorem readBlocks_of_not_taken (hs : sb.Sound) (h : ¬Taken dev sb fsb count) :
    ∃ e, readBlocks dev sb fsb count = .error e ∧ ∀ why, e ≠ .panic why := by
  unfold readBlocks
  by_cases h1 : Inside sb fsb
  · rw [fsbToByte_of_inside h1, except_ok_bind]
    by_cases h2 : Inside sb (fsb + count - 1)
    · rw [fsbToByte_of_inside h2, except_ok_bind, Nat.shiftLeft_eq, ← hs.blockSize_eq]
      unfold Device.readAt
      rw [if_neg fun h3 => h ⟨h1, h2, h3⟩]
      exact ⟨_, rfl, fun why hne => by simp [Device.pastEnd] at hne⟩
    · rw [fsbToByte_of_not_inside h2]
      exact ⟨_, rfl, fun why hne => by cases hne⟩
  · rw [fsbToByte_of_not_inside h1]
    exact ⟨_, rfl, fun why hne => by cases hne⟩

/-! ## Blocks between the ends -/

/-- Between two blocks of one AG, block numbers are linear. -/
theorem between_ends (hsame : agOf sb (fsb + count - 1) = agOf sb fsb) {i : Nat} (hi : i < count) :
    agOf sb (fsb + i) = agOf sb fsb ∧ agbOf sb (fsb + i) = agbOf sb fsb + i := by
  unfold agOf agbOf at *
  have hlo : fsb / 2 ^ sb.agblkLog ≤ (fsb + i) / 2 ^ sb.agblkLog :=
    Nat.div_le_div_right (by omega)
  have hhi : (fsb + i) / 2 ^ sb.agblkLog ≤ (fsb + count - 1) / 2 ^ sb.agblkLog :=
    Nat.div_le_div_right (by omega)
  have heq : (fsb + i) / 2 ^ sb.agblkLog = fsb / 2 ^ sb.agblkLog := by omega
  have h1 := Nat.div_add_mod fsb (2 ^ sb.agblkLog)
  have h2 := Nat.div_add_mod (fsb + i) (2 ^ sb.agblkLog)
  rw [heq] at h2
  exact ⟨heq, by omega⟩

theorem oneRun_of_endsTogether (hin : Inside sb fsb) (h : EndsTogether sb fsb count) :
    OneRun sb fsb count := by
  obtain ⟨hsame, len, hlen, hlt⟩ := h
  refine ⟨hin.1, len, hlen, fun i hi => ?_⟩
  obtain ⟨hag, hagb⟩ := between_ends hsame hi
  obtain ⟨-, hlast⟩ := between_ends hsame (Nat.sub_lt (by omega : 0 < count) Nat.one_pos)
  rw [← Nat.add_sub_assoc (by omega)] at hlast
  exact ⟨hag, by omega⟩

theorem endsTogether_of_oneRun (hcount : 1 ≤ count) (h : OneRun sb fsb count) :
    EndsTogether sb fsb count := by
  obtain ⟨-, len, hlen, hall⟩ := h
  obtain ⟨hag, hagb⟩ := hall (count - 1) (by omega)
  rw [← Nat.add_sub_assoc hcount] at hag hagb
  exact ⟨hag, len, hlen, hagb⟩

/-- The bytes of a block of the run, at its place in what was read and on the device. -/
theorem byteOf_add (hs : sb.Sound) (hsize : dev.size < 2 ^ 64)
    (hfits : byteOf sb fsb + count * sb.blockSize ≤ dev.size)
    (hsame : agOf sb (fsb + count - 1) = agOf sb fsb) {i : Nat} (hi : i < count) :
    byteOf sb (fsb + i) = byteOf sb fsb + i * sb.blockSize := by
  obtain ⟨hag, hagb⟩ := between_ends hsame hi
  have hmul : i * sb.blockSize ≤ count * sb.blockSize := Nat.mul_le_mul_right _ (by omega)
  have hlt : byteOf sb fsb + i * sb.blockSize < 2 ^ 64 := by omega
  have hplace : (agOf sb (fsb + i) * sb.agBlocks + agbOf sb (fsb + i)) <<< sb.blockLog =
      (agOf sb fsb * sb.agBlocks + agbOf sb fsb) <<< sb.blockLog + i * sb.blockSize := by
    rw [hag, hagb, Nat.shiftLeft_eq, Nat.shiftLeft_eq, hs.blockSize_eq]
    ring
  unfold byteOf at hlt ⊢
  rw [hplace, ← Nat.mod_add_mod, Nat.mod_eq_of_lt hlt]

/-! ## When a run is read as one -/

/-- A run of an extent record is read as what it is exactly when its two ends lie in one AG,
below the AG's own length, or the read is refused: an end outside, or the device too short. -/
theorem reads_as_run_iff {sector : Bytes} (hsb : Superblock.parse sector = .ok sb)
    (hsize : dev.size < 2 ^ 64) (hcount : 1 ≤ count ∧ count < 2 ^ 21) :
    ReadsAsRun dev sb fsb count ↔ (Taken dev sb fsb count → EndsTogether sb fsb count) := by
  have hs := Superblock.sound_of_parse hsb
  constructor
  · rintro ⟨hok, -⟩ htaken
    obtain ⟨hrun, -⟩ := hok _ (readBlocks_of_taken hs htaken)
    exact endsTogether_of_oneRun hcount.1 hrun
  · intro h
    by_cases htaken : Taken dev sb fsb count
    · have hends := h htaken
      have hrun := oneRun_of_endsTogether htaken.1 hends
      refine ⟨fun buf hbuf => ?_, fun hne => absurd hrun hne⟩
      rw [readBlocks_of_taken hs htaken] at hbuf
      cases hbuf
      refine ⟨hrun, length_slice htaken.2.2, fun i hi => ?_⟩
      obtain ⟨-, len, hlen, hall⟩ := hrun
      have hin : Inside sb (fsb + i) := by
        obtain ⟨hag, hagb⟩ := hall i hi
        exact ⟨hag ▸ htaken.1.1, lt_of_lt_of_le hagb (Superblock.agLen_le hlen).1⟩
      refine ⟨byteOf sb (fsb + i), fsbToByte_of_inside hin, ?_⟩
      have hmul : (i + 1) * sb.blockSize ≤ count * sb.blockSize := Nat.mul_le_mul_right _ (by omega)
      rw [byteOf_add hs hsize htaken.2.2 hends.1 hi, slice_slice (by rw [← Nat.succ_mul]; exact hmul)]
    · obtain ⟨e, he, hne⟩ := readBlocks_of_not_taken hs htaken
      refine ⟨fun buf hbuf => ?_, fun _ => ⟨e, he, hne⟩⟩
      rw [he] at hbuf
      cases hbuf

/-- Blocks 3 to 6 of a filesystem of one group are read. -/
theorem reads_as_run_fresh :
    (Superblock.parse (freshSector 16 true) = .ok (freshSb 16 true) ∧
      (⟨List.replicate 8192 0, []⟩ : Device).size < 2 ^ 64 ∧ 1 ≤ 4 ∧ 4 < 2 ^ 21) ∧
    ReadsAsRun ⟨List.replicate 8192 0, []⟩ (freshSb 16 true) 3 4 := by
  have hsize : (⟨List.replicate 8192 0, []⟩ : Device).size < 2 ^ 64 := by
    rw [Device.size, List.length_replicate]
    norm_num
  refine ⟨⟨parse_fresh, hsize, by norm_num, by norm_num⟩, ?_⟩
  refine (reads_as_run_iff parse_fresh hsize ⟨by norm_num, by norm_num⟩).mpr fun _ => ?_
  exact ⟨by decide, 16, by decide, by decide⟩

end

/-! ## Runs that are read though they are not one -/

/-- Two groups of 12 blocks, numbered in 4 bits, the second one only 8 blocks long. -/
def gapSector : Bytes := put32 (Superblock.plainSector 9 20 2) 84 12
def gapSb : Superblock := Superblock.fields gapSector

/-- A device of 24 blocks. -/
def gapDevice : Device := ⟨List.replicate 12288 0, []⟩

set_option maxRecDepth 100000 in
/-- A run from the last block of the first group over the numbers between the groups, and one
past the end of the short last group, are both read. -/
theorem reads_what_is_no_run :
    Superblock.parse gapSector = .ok gapSb ∧ ¬ReadsAsRun gapDevice gapSb 11 6 ∧
      ¬ReadsAsRun gapDevice gapSb 22 4 := by
  have hp : Superblock.parse gapSector = .ok gapSb := by decide +kernel
  have hs := Superblock.sound_of_parse hp
  have hsize : gapDevice.size = 12288 := List.length_replicate
  have hgeo : gapSb.agCount = 2 ∧ gapSb.agBlocks = 12 ∧ gapSb.agblkLog = 4 ∧
      gapSb.blockLog = 9 ∧ gapSb.blockSize = 512 := by
    refine ⟨?_, ?_, ?_, ?_, ?_⟩ <;> decide +kernel
  obtain ⟨hc, hb, hl, hbl, hbs⟩ := hgeo
  refine ⟨hp, fun h => ?_, fun h => ?_⟩
  · have htaken : Taken gapDevice gapSb 11 6 := by
      refine ⟨?_, ?_, ?_⟩ <;> simp [Inside, agOf, agbOf, byteOf, hc, hb, hl, hbl, hbs, hsize]
    obtain ⟨⟨-, len, -, hall⟩, -⟩ := h.1 _ (readBlocks_of_taken hs htaken)
    have hag := (hall 5 (by norm_num)).1
    simp [agOf, hl] at hag
  · have htaken : Taken gapDevice gapSb 22 4 := by
      refine ⟨?_, ?_, ?_⟩ <;> simp [Inside, agOf, agbOf, byteOf, hc, hb, hl, hbl, hbs, hsize]
    obtain ⟨⟨-, len, hlen, hall⟩, -⟩ := h.1 _ (readBlocks_of_taken hs htaken)
    have hd : gapSb.dataBlocks = 20 := by decide +kernel
    have hagb := (hall 3 (by norm_num)).2
    have hle := (Superblock.agLen_le hlen).2
    simp only [agOf, agbOf, hl, hb, hd] at hagb hle
    omega

end FioXfs.Bmap
