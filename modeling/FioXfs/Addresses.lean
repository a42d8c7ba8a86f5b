import FioXfs.Superblock
import Mathlib.Data.Set.Lattice
import Mathlib.Order.CompletePartialOrder
import Mathlib.Order.Interval.Set.Basic
set_option autoImplicit false

/-!
# The three spaces of numbers

A block has a number with its group above bit `agblkLog`, an inode one with its group above bit
`aginoLog`, and both have bytes on a device where groups lie end to end.  Between the numbers
there are gaps wherever a group is not a power of two long; between the bytes there are none.
-/

namespace FioXfs.Superblock

open FioXfs.Lib

/-! ## What is asked of the translations -/

/-- The bytes of block `agbno` of AG `agno`. -/
def blockBytes (sb : Superblock) (agno agbno : Nat) : Set Nat :=
  Set.Ico (sb.agbToByte agno agbno) (sb.agbToByte agno agbno + sb.blockSize)

/-- The number of an AG's inode by its block and its place there. -/
def aginoAt (sb : Superblock) (agbno index : Nat) : Nat := agbno * sb.inodesPerBlock + index

/-- The spaces are translated into each other without losing or joining anything. -/
structure Translates (sb : Superblock) : Prop where
  block_numbered : ∀ agno < sb.agCount, ∀ agbno < sb.agBlocks,
    sb.fsbToAgb (sb.agbToFsb agno agbno) = (agno, agbno)
  block_located : ∀ agno < sb.agCount, ∀ agbno < sb.agBlocks,
    sb.fsbToByte (sb.agbToFsb agno agbno) = .ok (sb.agbToByte agno agbno)
  block_reached : ∀ fsbno addr, sb.fsbToByte fsbno = .ok addr →
    ∃ agno < sb.agCount, ∃ agbno < sb.agBlocks, sb.agbToFsb agno agbno = fsbno
  inode_numbered : ∀ agno < sb.agCount, ∀ agino < 2 ^ sb.aginoLog,
    sb.inoToAgino (sb.aginoToIno agno agino) = (agno, agino)
  agino_fits : ∀ agbno < sb.agBlocks, ∀ index < sb.inodesPerBlock,
    sb.aginoAt agbno index < 2 ^ sb.aginoLog
  inode_located : ∀ agno < sb.agCount, ∀ agbno < sb.agBlocks, ∀ index < sb.inodesPerBlock,
    sb.aginoToIno agno (sb.aginoAt agbno index) ≠ 0 →
      sb.inoToByte (sb.aginoToIno agno (sb.aginoAt agbno index)) =
        .ok (sb.agbToByte agno agbno + index * sb.inodeSize)
  inode_reached : ∀ ino addr, sb.inoToByte ino = .ok addr →
    ∃ agno < sb.agCount, ∃ agbno < sb.agBlocks, ∃ index < sb.inodesPerBlock,
      sb.aginoToIno agno (sb.aginoAt agbno index) = ino
  inode_inside : ∀ agno < sb.agCount, ∀ agbno < sb.agBlocks, ∀ index < sb.inodesPerBlock,
    Set.Ico (sb.agbToByte agno agbno + index * sb.inodeSize)
        (sb.agbToByte agno agbno + index * sb.inodeSize + sb.inodeSize) ⊆
      sb.blockBytes agno agbno
  blocks_apart : ∀ agno < sb.agCount, ∀ agbno < sb.agBlocks, ∀ agno' < sb.agCount,
    ∀ agbno' < sb.agBlocks, (agno, agbno) ≠ (agno', agbno') →
      Disjoint (sb.blockBytes agno agbno) (sb.blockBytes agno' agbno')

/-! ## Where it holds -/

/-- Inode numbers of a group fit in 32 bits, and every byte of every group has an address. -/
structure Addressable (sb : Superblock) : Prop where
  sound : sb.Sound
  agCount_lt : sb.agCount < 2 ^ 32
  agino_le : sb.agblkLog + sb.inopbLog ≤ 32
  bytes_lt : sb.agCount * sb.agBlocks * sb.blockSize < 2 ^ 64

namespace Addressable

variable {sb : Superblock} {k k' b b' i : Nat}

/-- Blocks counted over all groups stay below the count of all of them. -/
theorem linear_lt (hk : k < sb.agCount) (hb : b < sb.agBlocks) :
    k * sb.agBlocks + b < sb.agCount * sb.agBlocks :=
  calc k * sb.agBlocks + b < (k + 1) * sb.agBlocks := by rw [Nat.succ_mul]; omega
    _ ≤ sb.agCount * sb.agBlocks := Nat.mul_le_mul_right _ hk

/-- Two blocks of one count are one block. -/
theorem linear_injective (hb : b < sb.agBlocks) (hb' : b' < sb.agBlocks)
    (h : k * sb.agBlocks + b = k' * sb.agBlocks + b') : k = k' ∧ b = b' := by
  have hk : k = k' := by
    have hdiv := congrArg (· / sb.agBlocks) h
    have hpos : 0 < sb.agBlocks := by omega
    simpa only [Nat.mul_comm _ sb.agBlocks, Nat.mul_add_div hpos, Nat.div_eq_of_lt hb,
      Nat.div_eq_of_lt hb', Nat.add_zero] using hdiv
  subst hk
  exact ⟨rfl, by omega⟩

/-- The address of a block counts the blocks before it. -/
theorem agbToByte_eq (h : sb.Addressable) (hk : k < sb.agCount) (hb : b < sb.agBlocks) :
    sb.agbToByte k b = (k * sb.agBlocks + b) * sb.blockSize := by
  unfold agbToByte
  rw [Nat.shiftLeft_eq, ← h.sound.blockSize_eq]
  exact Nat.mod_eq_of_lt
    (Nat.lt_of_le_of_lt (Nat.mul_le_mul_right _ (linear_lt hk hb).le) h.bytes_lt)

theorem agbno_lt (h : sb.Addressable) (hb : b < sb.agBlocks) : b < 2 ^ sb.agblkLog :=
  hb.trans_le h.sound.agBlocks_le

/-! ### Blocks -/

theorem agbToFsb_eq (h : sb.Addressable) (hk : k < sb.agCount) (hb : b < sb.agBlocks) :
    sb.agbToFsb k b = k * 2 ^ sb.agblkLog + b :=
  h.sound.agbToFsb_eq (hk.trans h.agCount_lt) (h.agbno_lt hb)

theorem fsbToByte_agbToFsb (h : sb.Addressable) (hk : k < sb.agCount) (hb : b < sb.agBlocks) :
    sb.fsbToByte (sb.agbToFsb k b) = .ok (sb.agbToByte k b) := by
  have hlt := h.agbno_lt hb
  rw [h.agbToFsb_eq hk hb]
  unfold fsbToByte agbToByte
  rw [packed_div hlt, packed_mod hlt]
  exact if_neg (by omega)

/-- What has an address is a block of a group. -/
theorem exists_agb_of_fsbToByte (h : sb.Addressable) {fsbno addr : Nat}
    (ha : sb.fsbToByte fsbno = .ok addr) :
    ∃ agno < sb.agCount, ∃ agbno < sb.agBlocks, sb.agbToFsb agno agbno = fsbno := by
  unfold fsbToByte at ha
  simp only at ha
  split at ha
  · cases ha
  · rename_i hin
    have hk : fsbno / 2 ^ sb.agblkLog < sb.agCount := by omega
    have hb : fsbno % 2 ^ sb.agblkLog < sb.agBlocks := by omega
    refine ⟨_, hk, _, hb, ?_⟩
    rw [h.agbToFsb_eq hk hb, Nat.mul_comm]
    exact Nat.div_add_mod _ _

/-- Blocks of different groups, or different blocks of one, share no byte. -/
theorem disjoint_blockBytes (h : sb.Addressable) (hk : k < sb.agCount) (hb : b < sb.agBlocks)
    (hk' : k' < sb.agCount) (hb' : b' < sb.agBlocks) (hne : (k, b) ≠ (k', b')) :
    Disjoint (sb.blockBytes k b) (sb.blockBytes k' b') := by
  have hlin : k * sb.agBlocks + b ≠ k' * sb.agBlocks + b' := by
    intro heq
    obtain ⟨rfl, rfl⟩ := linear_injective hb hb' heq
    exact hne rfl
  have apart : ∀ {m n x : Nat}, m < n → m * sb.blockSize ≤ x → x < m * sb.blockSize + sb.blockSize →
      ¬n * sb.blockSize ≤ x := by
    intro m n x hmn _ hhi hlo
    have hle : (m + 1) * sb.blockSize ≤ n * sb.blockSize := Nat.mul_le_mul_right _ hmn
    rw [Nat.succ_mul] at hle
    omega
  rw [Set.disjoint_left]
  intro x hx hx'
  unfold blockBytes at hx hx'
  rw [h.agbToByte_eq hk hb] at hx
  rw [h.agbToByte_eq hk' hb'] at hx'
  rcases Nat.lt_or_gt_of_ne hlin with hlt | hgt
  · exact apart hlt hx.1 hx.2 hx'.1
  · exact apart hgt hx'.1 hx'.2 hx.1

/-! ### Inodes -/

theorem aginoToIno_eq (h : sb.Addressable) (hk : k < sb.agCount) (hi : i < 2 ^ sb.aginoLog) :
    sb.aginoToIno k i = k * 2 ^ sb.aginoLog + i :=
  packed_eq h.agino_le (hk.trans h.agCount_lt) hi

theorem inoToAgino_aginoToIno (h : sb.Addressable) (hk : k < sb.agCount)
    (hi : i < 2 ^ sb.aginoLog) : sb.inoToAgino (sb.aginoToIno k i) = (k, i) := by
  rw [h.aginoToIno_eq hk hi]
  exact unpacked_eq h.agino_le (hk.trans h.agCount_lt) hi

theorem aginoAt_eq (h : sb.Addressable) : sb.aginoAt b i = b * 2 ^ sb.inopbLog + i := by
  rw [aginoAt, h.sound.inopb_eq]

theorem aginoAt_lt (h : sb.Addressable) (hb : b < sb.agBlocks) (hi : i < sb.inodesPerBlock) :
    sb.aginoAt b i < 2 ^ sb.aginoLog := by
  have hi' : i < 2 ^ sb.inopbLog := h.sound.inopb_eq ▸ hi
  rw [h.aginoAt_eq]
  calc b * 2 ^ sb.inopbLog + i < (b + 1) * 2 ^ sb.inopbLog := by rw [Nat.succ_mul]; omega
    _ ≤ 2 ^ sb.agblkLog * 2 ^ sb.inopbLog := Nat.mul_le_mul_right _ (h.agbno_lt hb)
    _ = 2 ^ sb.aginoLog := (Nat.pow_add _ _ _).symm

theorem inoToByte_aginoToIno (h : sb.Addressable) (hk : k < sb.agCount) (hb : b < sb.agBlocks)
    (hi : i < sb.inodesPerBlock) (hne : sb.aginoToIno k (sb.aginoAt b i) ≠ 0) :
    sb.inoToByte (sb.aginoToIno k (sb.aginoAt b i)) =
      .ok (sb.agbToByte k b + i * sb.inodeSize) := by
  have hlt := h.aginoAt_lt hb hi
  have hi' : i < 2 ^ sb.inopbLog := h.sound.inopb_eq ▸ hi
  rw [h.aginoToIno_eq hk hlt] at hne ⊢
  simp only [inoToByte, agbToByte, packed_div hlt, packed_mod hlt]
  rw [h.aginoAt_eq] at hne ⊢
  rw [packed_div hi', packed_mod hi']
  exact if_neg (by omega)

/-- What has an address is an inode of a block of a group. -/
theorem exists_agino_of_inoToByte (h : sb.Addressable) {ino addr : Nat}
    (ha : sb.inoToByte ino = .ok addr) :
    ∃ agno < sb.agCount, ∃ agbno < sb.agBlocks, ∃ index < sb.inodesPerBlock,
      sb.aginoToIno agno (sb.aginoAt agbno index) = ino := by
  unfold inoToByte at ha
  simp only at ha
  split at ha
  · cases ha
  · rename_i hin
    have hk : ino / 2 ^ sb.aginoLog < sb.agCount := by omega
    have hb : ino % 2 ^ sb.aginoLog / 2 ^ sb.inopbLog < sb.agBlocks := by omega
    have hi : ino % 2 ^ sb.aginoLog % 2 ^ sb.inopbLog < sb.inodesPerBlock := by
      rw [h.sound.inopb_eq]
      exact Nat.mod_lt _ (Nat.two_pow_pos _)
    refine ⟨_, hk, _, hb, _, hi, ?_⟩
    rw [h.aginoToIno_eq hk (h.aginoAt_lt hb hi), h.aginoAt_eq, Nat.mul_comm _ (2 ^ sb.inopbLog),
      Nat.div_add_mod, Nat.mul_comm]
    exact Nat.div_add_mod _ _

theorem inode_inside (h : sb.Addressable) (hi : i < sb.inodesPerBlock) :
    i * sb.inodeSize + sb.inodeSize ≤ sb.blockSize :=
  calc i * sb.inodeSize + sb.inodeSize = (i + 1) * sb.inodeSize := (Nat.succ_mul _ _).symm
    _ ≤ sb.inodesPerBlock * sb.inodeSize := Nat.mul_le_mul_right _ hi
    _ = sb.blockSize := h.sound.inode_fill

/-- The translations agree. -/
theorem translates (h : sb.Addressable) : Translates sb where
  block_numbered _ hk _ hb := h.sound.fsbToAgb_agbToFsb (hk.trans h.agCount_lt) (h.agbno_lt hb)
  block_located _ hk _ hb := h.fsbToByte_agbToFsb hk hb
  block_reached _ _ ha := h.exists_agb_of_fsbToByte ha
  inode_numbered _ hk _ hi := h.inoToAgino_aginoToIno hk hi
  agino_fits _ hb _ hi := h.aginoAt_lt hb hi
  inode_located _ hk _ hb _ hi hne := h.inoToByte_aginoToIno hk hb hi hne
  inode_reached _ _ ha := h.exists_agino_of_inoToByte ha
  inode_inside _ _ _ _ _ hi := by
    have hle := h.inode_inside hi
    exact Set.Ico_subset_Ico (Nat.le_add_right _ _) (by omega)
  blocks_apart _ hk _ hb _ hk' _ hb' hne := h.disjoint_blockBytes hk hb hk' hb' hne

end Addressable

/-- What is parsed has addresses that agree, where inode numbers of a group fit in 32 bits and
bytes in 64. -/
theorem addresses_agree {buf : Bytes} {sb : Superblock} (hp : parse buf = .ok sb)
    (hino : sb.agblkLog + sb.inopbLog ≤ 32)
    (hbytes : sb.agCount * sb.agBlocks * sb.blockSize < 2 ^ 64) : Translates sb :=
  Addressable.translates ⟨sound_of_parse hp, agCount_lt_of_parse hp, hino, hbytes⟩

theorem addresses_agree_fresh :
    parse (freshSector 16 true) = .ok (freshSb 16 true) ∧ Translates (freshSb 16 true) :=
  ⟨parse_fresh, addresses_agree parse_fresh (by decide) (by decide)⟩

end FioXfs.Superblock
