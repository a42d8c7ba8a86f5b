import FioXfs.Crc
import FioXfs.Device
set_option autoImplicit false

/-!
# The superblock (`sb.rs`)

The geometry every other structure is located by: parsing it, what the writer
accepts, and the conversions between block numbers, inode numbers and bytes.
Numbers are `Nat`s in the range of their Rust type.  A shift by the width of the
operand or more stops the program; bits a shift pushes out are lost.
-/

namespace FioXfs

open FioXfs.Lib

/-- `x << n` on a 32-bit word. -/
def shl32 (x n : Nat) : Result Nat :=
  if n < 32 then .ok ((x <<< n) % 2 ^ 32)
  else .error (.panic "attempt to shift left with overflow")

/-- `x << n` on a 64-bit word. -/
def shl64 (x n : Nat) : Result Nat :=
  if n < 64 then .ok ((x <<< n) % 2 ^ 64)
  else .error (.panic "attempt to shift left with overflow")

/-- Whether a word has the given bit set. -/
def hasBit (word bit : Nat) : Bool := word &&& bit != 0

/-- Rust's `is_power_of_two`. -/
def isPowerOfTwo (n : Nat) : Bool := n != 0 && n &&& (n - 1) == 0

/-- The parts of the primary superblock the reader and the writer use. -/
structure Superblock where
  /-- Filesystem block size in bytes. -/
  blockSize : Nat
  /-- Blocks on the data device. -/
  dataBlocks : Nat
  /-- The root directory's inode. -/
  rootIno : Nat
  /-- Blocks in each allocation group. -/
  agBlocks : Nat
  /-- Allocation groups. -/
  agCount : Nat
  /-- Format version: 4 or 5. -/
  version : Nat
  /-- Sector size in bytes. -/
  sectorSize : Nat
  /-- Inode size in bytes. -/
  inodeSize : Nat
  /-- Inodes per block. -/
  inodesPerBlock : Nat
  /-- log2 of the block size. -/
  blockLog : Nat
  /-- log2 of inodes per block. -/
  inopbLog : Nat
  /-- log2 of blocks per AG, rounded up. -/
  agblkLog : Nat
  /-- Inodes allocated. -/
  icount : Nat
  /-- Inodes free. -/
  ifree : Nat
  /-- Data blocks free. -/
  freeBlocks : Nat
  /-- log2 of filesystem blocks per directory block. -/
  dirblkLog : Nat
  /-- Version 4 `features2`. -/
  features2 : Nat
  /-- Read-only-compatible features (v5). -/
  featuresRoCompat : Nat
  /-- Incompatible features (v5). -/
  featuresIncompat : Nat
  /-- The version number with its feature bits, as stored. -/
  versionnum : Nat
  /-- First block of the internal log; 0 when the log is on its own device. -/
  logStart : Nat
  /-- Blocks in the log. -/
  logBlocks : Nat
  /-- The UUID stamped into metadata. -/
  metaUuid : Bytes
  /-- Inode chunk alignment, in blocks. -/
  inodeAlign : Nat
  /-- Most of the space inodes may take, in percent; 0 for no limit. -/
  imaxPct : Nat
  /-- Log-incompatible features. -/
  featuresLogIncompat : Nat
  deriving DecidableEq

namespace Superblock

/-- `XFSB`. -/
def MAGIC : Nat := 0x58465342

def VERSION_LOGV2 : Nat := 0x0400
def VERSION_DIRV2 : Nat := 0x2000
def VERSION_MOREBITS : Nat := 0x8000
def VERSION_BORGBIT : Nat := 0x4000
def FEATURES2_FTYPE : Nat := 0x200
def FEATURES2_CRC : Nat := 0x100

/-! Incompatible features (v5). -/

def FTYPE : Nat := 0x1
def SPINODES : Nat := 0x2
def META_UUID : Nat := 0x4
def BIGTIME : Nat := 0x8
def NEEDSREPAIR : Nat := 0x10
def NREXT64 : Nat := 0x20
def EXCHRANGE : Nat := 0x40
def PARENT : Nat := 0x80
def METADIR : Nat := 0x100
def ZONED : Nat := 0x200

/-- Every incompatible feature the reader understands. -/
def INCOMPAT_KNOWN : Nat :=
  FTYPE ||| SPINODES ||| META_UUID ||| BIGTIME ||| NREXT64 ||| EXCHRANGE ||| PARENT
    ||| METADIR ||| ZONED

/-! Read-only-compatible features (v5). -/

def FINOBT : Nat := 0x1
def RMAPBT : Nat := 0x2
def REFLINK : Nat := 0x4
def INOBTCOUNT : Nat := 0x8

/-- Every read-only-compatible feature the writer keeps up to date. -/
def RO_COMPAT_KNOWN : Nat := FINOBT ||| RMAPBT ||| REFLINK ||| INOBTCOUNT

/-- The bits of `word` that are not in `known`. -/
def unknownBits (word known : Nat) : Nat := word &&& (known ^^^ (2 ^ 32 - 1))

/-! ## Parsing -/

/-- The fields as they stand in the buffer. -/
def fields (buf : Bytes) : Superblock :=
  let versionnum := be16 buf 100
  let version := versionnum &&& 0xf
  let v5 (o : Nat) : Nat := if version = 5 then be32 buf o else 0
  let incompat := v5 216
  { blockSize := be32 buf 4
    dataBlocks := be64 buf 8
    rootIno := be64 buf 56
    agBlocks := be32 buf 84
    agCount := be32 buf 88
    version := version
    sectorSize := be16 buf 102
    inodeSize := be16 buf 104
    inodesPerBlock := be16 buf 106
    blockLog := getBe 1 buf 120
    inopbLog := getBe 1 buf 123
    agblkLog := getBe 1 buf 124
    icount := be64 buf 128
    ifree := be64 buf 136
    freeBlocks := be64 buf 144
    dirblkLog := getBe 1 buf 192
    features2 := if hasBit versionnum VERSION_MOREBITS then be32 buf 200 else 0
    featuresRoCompat := v5 212
    featuresIncompat := incompat
    versionnum := versionnum
    logStart := be64 buf 48
    logBlocks := be32 buf 96
    metaUuid := if hasBit incompat META_UUID then slice buf 248 16 else slice buf 32 16
    inodeAlign := be32 buf 180
    imaxPct := getBe 1 buf 127
    featuresLogIncompat := v5 220 }

/-- What the version number asks for. -/
def checkVersion (buf : Bytes) (sb : Superblock) : Result Unit :=
  if sb.version = 4 then do
    failIf (!hasBit sb.versionnum VERSION_DIRV2) (.unsupported "version 1 directories")
    failIf (hasBit sb.features2 FEATURES2_CRC) (.corrupt "v4 superblock with the CRC feature")
  else if sb.version = 5 then do
    failIf (buf.length < sb.sectorSize) (.corrupt "superblock buffer shorter than a sector")
    failIf (!Crc.verify (buf.take sb.sectorSize) 224) (.corrupt "superblock checksum")
    let unknown := unknownBits sb.featuresIncompat INCOMPAT_KNOWN
    failIf (unknown ≠ 0) (.unsupported s!"incompatible features {hex unknown}")
    failIf (hasBit sb.featuresIncompat NEEDSREPAIR)
      (.unsupported "the filesystem needs xfs_repair")
  else
    throw (.unsupported s!"superblock version {sb.version}")

/-- The geometry condition, term by term in the source's order: a shift is only
evaluated when every term before it is false. -/
def checkGeometry (sb : Superblock) : Result Unit := do
  let bad : Error := .corrupt "superblock geometry"
  let bs := sb.blockSize
  failIf (¬(512 ≤ bs ∧ bs ≤ 65536)) bad
  failIf (!isPowerOfTwo bs) bad
  let blockUnit ← shl32 1 sb.blockLog
  failIf (blockUnit ≠ bs) bad
  failIf (!isPowerOfTwo sb.inodeSize) bad
  failIf (¬(256 ≤ sb.inodeSize ∧ sb.inodeSize ≤ 2048)) bad
  failIf (sb.inodesPerBlock * sb.inodeSize ≠ bs) bad
  let inodeUnit ← shl32 1 sb.inopbLog
  failIf (inodeUnit ≠ sb.inodesPerBlock) bad
  failIf (sb.agCount = 0) bad
  failIf (sb.agBlocks = 0) bad
  let agUnit ← shl64 1 sb.agblkLog
  failIf (sb.agBlocks > agUnit) bad
  failIf (sb.agblkLog > 31) bad
  let dirUnit ← shl64 bs sb.dirblkLog
  failIf (dirUnit > 65536) bad

/-- Parse and check the primary superblock from the start of a device. -/
def parse (buf : Bytes) : Result Superblock := do
  failIf (buf.length < 512) (.notXfs "fewer than 512 bytes")
  failIf (be32 buf 0 ≠ MAGIC) (.notXfs "no XFSB magic at byte 0")
  let sb := fields buf
  checkVersion buf sb
  checkGeometry sb
  return sb

/-! ## Features -/

/-- Whether this is a v5 (CRC) filesystem. -/
def isV5 (sb : Superblock) : Bool := sb.version == 5

/-- Whether directory entries carry the file type. -/
def hasFtype (sb : Superblock) : Bool :=
  if sb.isV5 then hasBit sb.featuresIncompat FTYPE else hasBit sb.features2 FEATURES2_FTYPE

/-- Whether the log is version 2. -/
def hasLogv2 (sb : Superblock) : Bool := sb.isV5 || hasBit sb.versionnum VERSION_LOGV2

/-- Whether the log is on a device of its own. -/
def hasExternalLog (sb : Superblock) : Bool := sb.logStart == 0

/-- Whether extent counters may be 64 bits wide. -/
def hasNrext64 (sb : Superblock) : Bool := hasBit sb.featuresIncompat NREXT64

/-- Whether timestamps are 64-bit nanosecond counts. -/
def hasBigtime (sb : Superblock) : Bool := hasBit sb.featuresIncompat BIGTIME

/-- Whether inode chunks may be sparse. -/
def hasSparseInodes (sb : Superblock) : Bool := hasBit sb.featuresIncompat SPINODES

/-- Whether there is a free inode B+tree. -/
def hasFinobt (sb : Superblock) : Bool := hasBit sb.featuresRoCompat FINOBT

/-- Whether there is a reverse-mapping B+tree. -/
def hasRmapbt (sb : Superblock) : Bool := hasBit sb.featuresRoCompat RMAPBT

/-- Whether the AGI counts the inode B+trees' blocks. -/
def hasInobtcount (sb : Superblock) : Bool := hasBit sb.featuresRoCompat INOBTCOUNT

/-- The incompatible features the writer handles. -/
def INCOMPAT_HANDLED : Nat :=
  FTYPE ||| SPINODES ||| META_UUID ||| BIGTIME ||| NREXT64 ||| EXCHRANGE

/-- Whether the writer can change this filesystem, and if not, why not. -/
def checkWritable (sb : Superblock) : Result Unit := do
  let no (why : String) : Error := .unsupported s!"writing: {why}"
  failIf (!sb.isV5) (no "version 4 filesystems are read-only here (mkfs-xfs makes only v5)")
  failIf (hasBit sb.versionnum VERSION_BORGBIT) (no "case-insensitive directories")
  let unknownRo := unknownBits sb.featuresRoCompat RO_COMPAT_KNOWN
  failIf (unknownRo ≠ 0) (no s!"read-only-compatible features {hex unknownRo}")
  let unhandled := unknownBits sb.featuresIncompat INCOMPAT_HANDLED
  failIf (unhandled ≠ 0)
    (no s!"incompatible features {hex unhandled} (parent pointers, metadir or zoned)")
  failIf (!hasBit sb.featuresIncompat FTYPE) (no "directories without file types")
  failIf (sb.featuresLogIncompat ≠ 0)
    (no "log-incompatible features are set: mount and unmount it once")
  failIf (sb.inodesPerBlock > 64) (no "more than 64 inodes in a block")

/-! ## Addresses -/

/-- Bytes in an AG header sector. -/
def sect (sb : Superblock) : Nat := sb.sectorSize

/-- Filesystem block number of `agbno` in AG `agno`. -/
def agbToFsb (sb : Superblock) (agno agbno : Nat) : Nat :=
  (agno <<< sb.agblkLog) % 2 ^ 64 ||| agbno

/-- The AG and AG block of filesystem block `fsbno`. -/
def fsbToAgb (sb : Superblock) (fsbno : Nat) : Nat × Nat :=
  ((fsbno / 2 ^ sb.agblkLog) % 2 ^ 32, (fsbno % 2 ^ sb.agblkLog) % 2 ^ 32)

/-- Byte offset on the device of block `agbno` in AG `agno`. -/
def agbToByte (sb : Superblock) (agno agbno : Nat) : Nat :=
  ((agno * sb.agBlocks + agbno) <<< sb.blockLog) % 2 ^ 64

/-- Blocks in AG `agno`: the last one may be short. -/
def agLen (sb : Superblock) (agno : Nat) : Result Nat :=
  let start := agno * sb.agBlocks
  if start ≤ sb.dataBlocks then .ok (min (sb.dataBlocks - start) sb.agBlocks)
  else .error (.panic "attempt to subtract with overflow")

/-- log2 of inodes in an AG's inode number space. -/
def aginoLog (sb : Superblock) : Nat := sb.agblkLog + sb.inopbLog

/-- Inode number of `agino` in AG `agno`. -/
def aginoToIno (sb : Superblock) (agno agino : Nat) : Nat :=
  (agno <<< sb.aginoLog) % 2 ^ 64 ||| agino

/-- The AG and AG inode of inode `ino`. -/
def inoToAgino (sb : Superblock) (ino : Nat) : Nat × Nat :=
  ((ino / 2 ^ sb.aginoLog) % 2 ^ 32, (ino % 2 ^ sb.aginoLog) % 2 ^ 32)

/-- Directory block size in bytes. -/
def dirBlockSize (sb : Superblock) : Result Nat := shl32 sb.blockSize sb.dirblkLog

/-- Byte offset on the device of filesystem block `fsbno`.  Block numbers are not
linear: the AG number sits above bit `agblkLog`, and an AG is `agBlocks` long. -/
def fsbToByte (sb : Superblock) (fsbno : Nat) : Result Nat :=
  let agno := fsbno / 2 ^ sb.agblkLog
  let agbno := fsbno % 2 ^ sb.agblkLog
  if sb.agCount ≤ agno ∨ sb.agBlocks ≤ agbno then
    .error (.corrupt s!"block {fsbno} outside the filesystem")
  else .ok (((agno * sb.agBlocks + agbno) <<< sb.blockLog) % 2 ^ 64)

/-- Byte offset on the device of inode `ino`. -/
def inoToByte (sb : Superblock) (ino : Nat) : Result Nat :=
  let agno := ino / 2 ^ sb.aginoLog
  let agino := ino % 2 ^ sb.aginoLog
  let agbno := agino / 2 ^ sb.inopbLog
  let index := agino % 2 ^ sb.inopbLog
  if ino = 0 ∨ sb.agCount ≤ agno ∨ sb.agBlocks ≤ agbno then
    .error (.corrupt s!"inode {ino} outside the filesystem")
  else .ok (((agno * sb.agBlocks + agbno) <<< sb.blockLog) % 2 ^ 64 + index * sb.inodeSize)

/-! ## What a parsed superblock promises -/

/-- The relations between fields that parsing has checked. -/
structure Sound (sb : Superblock) : Prop where
  blockLog_ge : 9 ≤ sb.blockLog
  blockLog_le : sb.blockLog ≤ 16
  blockSize_eq : sb.blockSize = 2 ^ sb.blockLog
  inopb_eq : sb.inodesPerBlock = 2 ^ sb.inopbLog
  inode_fill : sb.inodesPerBlock * sb.inodeSize = sb.blockSize
  inodeSize_ge : 256 ≤ sb.inodeSize
  inodeSize_le : sb.inodeSize ≤ 2048
  agCount_pos : 0 < sb.agCount
  agBlocks_pos : 0 < sb.agBlocks
  agBlocks_le : sb.agBlocks ≤ 2 ^ sb.agblkLog
  agblkLog_le : sb.agblkLog ≤ 31
  metaUuid_len : sb.metaUuid.length = 16

theorem shl32_one {n v : Nat} (h : shl32 1 n = .ok v) : n < 32 ∧ v = 2 ^ n := by
  unfold shl32 at h
  split at h
  · rename_i hn
    have hlt : 2 ^ n < 2 ^ 32 := Nat.pow_lt_pow_right (by norm_num) hn
    rw [Nat.one_shiftLeft, Nat.mod_eq_of_lt hlt] at h
    exact ⟨hn, by simpa using h.symm⟩
  · simp at h

theorem shl64_one {n v : Nat} (h : shl64 1 n = .ok v) : n < 64 ∧ v = 2 ^ n := by
  unfold shl64 at h
  split at h
  · rename_i hn
    have hlt : 2 ^ n < 2 ^ 64 := Nat.pow_lt_pow_right (by norm_num) hn
    rw [Nat.one_shiftLeft, Nat.mod_eq_of_lt hlt] at h
    exact ⟨hn, by simpa using h.symm⟩
  · simp at h

theorem sound_of_checkGeometry {sb : Superblock} (hu : sb.metaUuid.length = 16)
    (h : sb.checkGeometry = .ok ()) : sb.Sound := by
  simp only [checkGeometry, except_throwIf_eq_ok, except_bind_eq_ok, exists_const] at h
  obtain ⟨hbs, -, bu, hbu, hbue, -, hisz, hfill, iu, hiu, hiue, hagc, hagb, au, hau, haue,
    hal, -⟩ := h
  obtain ⟨_, rfl⟩ := shl32_one hbu
  obtain ⟨_, rfl⟩ := shl32_one hiu
  obtain ⟨_, rfl⟩ := shl64_one hau
  have hpow : sb.blockSize = 2 ^ sb.blockLog := (not_not.mp hbue).symm
  have h9 : 9 ≤ sb.blockLog := by
    by_contra hlt
    have : 2 ^ sb.blockLog ≤ 2 ^ 8 := Nat.pow_le_pow_right (by norm_num) (by omega)
    omega
  have h16 : sb.blockLog ≤ 16 := by
    by_contra hgt
    have : 2 ^ 17 ≤ 2 ^ sb.blockLog := Nat.pow_le_pow_right (by norm_num) (by omega)
    omega
  exact
    { blockLog_ge := h9
      blockLog_le := h16
      blockSize_eq := hpow
      inopb_eq := (not_not.mp hiue).symm
      inode_fill := not_not.mp hfill
      inodeSize_ge := (not_not.mp hisz).1
      inodeSize_le := (not_not.mp hisz).2
      agCount_pos := Nat.pos_of_ne_zero hagc
      agBlocks_pos := Nat.pos_of_ne_zero hagb
      agBlocks_le := not_lt.mp haue
      agblkLog_le := not_lt.mp hal
      metaUuid_len := hu }

theorem sound_of_parse {buf : Bytes} {sb : Superblock} (h : parse buf = .ok sb) :
    sb.Sound := by
  simp only [parse, except_throwIf_eq_ok, except_bind_eq_ok, exists_const] at h
  obtain ⟨hlen, _, _, _, _, hg, hsb⟩ := h
  have hsb : fields buf = sb := by simpa [pure, Except.pure] using hsb
  have hu : (fields buf).metaUuid.length = 16 := by
    have h1 : (slice buf 248 16).length = 16 := length_slice (by omega)
    have h2 : (slice buf 32 16).length = 16 := length_slice (by omega)
    simp only [fields]
    split_ifs <;> assumption
  exact hsb ▸ sound_of_checkGeometry hu hg

theorem agCount_lt_of_parse {buf : Bytes} {sb : Superblock} (h : parse buf = .ok sb) :
    sb.agCount < 2 ^ 32 := by
  simp only [parse, except_throwIf_eq_ok, except_bind_eq_ok, exists_const] at h
  obtain ⟨-, -, -, -, -, -, hsb⟩ := h
  obtain rfl : fields buf = sb := by simpa [pure, Except.pure] using hsb
  exact (getBe_lt 4 buf 88).trans_eq (by norm_num)

/-! ## Two numbers in one word -/

section
variable {n k b : Nat}

/-- A group's number above the `n` bits of a number in it. -/
theorem packed_eq (hn : n ≤ 32) (hk : k < 2 ^ 32) (hb : b < 2 ^ n) :
    (k <<< n) % 2 ^ 64 ||| b = k * 2 ^ n + b := by
  have hlt : k * 2 ^ n < 2 ^ 64 :=
    calc k * 2 ^ n ≤ k * 2 ^ 32 :=
          Nat.mul_le_mul_left _ (Nat.pow_le_pow_right (by norm_num) hn)
      _ < 2 ^ 64 := by omega
  rw [Nat.shiftLeft_eq, Nat.mod_eq_of_lt hlt, ← Nat.shiftLeft_eq, shiftLeft_or hb,
    Nat.shiftLeft_eq]

theorem packed_div (hb : b < 2 ^ n) : (k * 2 ^ n + b) / 2 ^ n = k := by
  rw [Nat.mul_comm, Nat.mul_add_div (Nat.two_pow_pos _), Nat.div_eq_of_lt hb, Nat.add_zero]

theorem packed_mod (hb : b < 2 ^ n) : (k * 2 ^ n + b) % 2 ^ n = b := by
  rw [Nat.mul_comm, Nat.mul_add_mod, Nat.mod_eq_of_lt hb]

/-- Both numbers come back, cut to 32 bits or not. -/
theorem unpacked_eq (hn : n ≤ 32) (hk : k < 2 ^ 32) (hb : b < 2 ^ n) :
    ((k * 2 ^ n + b) / 2 ^ n % 2 ^ 32, (k * 2 ^ n + b) % 2 ^ n % 2 ^ 32) = (k, b) := by
  have hpow : 2 ^ n ≤ 2 ^ 32 := Nat.pow_le_pow_right (by norm_num) hn
  rw [packed_div hb, packed_mod hb, Nat.mod_eq_of_lt hk, Nat.mod_eq_of_lt (hb.trans_le hpow)]

end

namespace Sound

variable {sb : Superblock}

theorem blockSize_pos (h : sb.Sound) : 0 < sb.blockSize := by
  rw [h.blockSize_eq]
  exact Nat.two_pow_pos _

theorem blockSize_ge (h : sb.Sound) : 512 ≤ sb.blockSize := by
  rw [h.blockSize_eq]
  exact (Nat.pow_le_pow_right (by norm_num) h.blockLog_ge : 2 ^ 9 ≤ 2 ^ sb.blockLog)

theorem blockSize_le (h : sb.Sound) : sb.blockSize ≤ 65536 := by
  rw [h.blockSize_eq]
  exact (Nat.pow_le_pow_right (by norm_num) h.blockLog_le : 2 ^ sb.blockLog ≤ 2 ^ 16)

theorem agBlocks_lt (h : sb.Sound) : sb.agBlocks ≤ 2 ^ 31 :=
  h.agBlocks_le.trans (Nat.pow_le_pow_right (by norm_num) h.agblkLog_le)

theorem inodesPerBlock_pos (h : sb.Sound) : 0 < sb.inodesPerBlock := by
  rw [h.inopb_eq]
  exact Nat.two_pow_pos _

theorem agbToFsb_eq (h : sb.Sound) {k b : Nat} (hk : k < 2 ^ 32) (hb : b < 2 ^ sb.agblkLog) :
    sb.agbToFsb k b = k * 2 ^ sb.agblkLog + b :=
  packed_eq (h.agblkLog_le.trans (by norm_num)) hk hb

/-- A block number is taken apart as it was put together. -/
theorem fsbToAgb_agbToFsb (h : sb.Sound) {k b : Nat} (hk : k < 2 ^ 32) (hb : b < 2 ^ sb.agblkLog) :
    sb.fsbToAgb (sb.agbToFsb k b) = (k, b) := by
  rw [h.agbToFsb_eq hk hb]
  exact unpacked_eq (h.agblkLog_le.trans (by norm_num)) hk hb

end Sound

/-- What the writer relies on. -/
theorem checkWritable_ok {sb : Superblock} (h : sb.checkWritable = .ok ()) :
    sb.isV5 = true ∧ hasBit sb.featuresIncompat FTYPE = true ∧ sb.inodesPerBlock ≤ 64 := by
  simp only [checkWritable, except_throwIf_eq_ok, except_bind_eq_ok, exists_const] at h
  obtain ⟨h1, _, _, _, h2, _, h3⟩ := h
  exact ⟨by simpa using h1, by simpa using h2, not_lt.mp h3⟩

theorem agLen_le {sb : Superblock} {agno len : Nat} (h : sb.agLen agno = .ok len) :
    len ≤ sb.agBlocks ∧ agno * sb.agBlocks + len ≤ sb.dataBlocks := by
  unfold agLen at h
  simp only at h
  split at h
  · have hl : min (sb.dataBlocks - agno * sb.agBlocks) sb.agBlocks = len := by simpa using h
    omega
  · simp at h

/-- Where a block of a group is, below the end of 64-bit addresses. -/
theorem Sound.agbToByte_eq {sb : Superblock} (hs : sb.Sound)
    (hends : sb.dataBlocks * sb.blockSize < 2 ^ 64) {agno len b : Nat}
    (hlen : sb.agLen agno = .ok len) (hb : b ≤ len) :
    sb.agbToByte agno b = (agno * sb.agBlocks + b) * sb.blockSize := by
  obtain ⟨-, hend⟩ := agLen_le hlen
  unfold agbToByte
  rw [Nat.shiftLeft_eq, ← hs.blockSize_eq]
  refine Nat.mod_eq_of_lt (Nat.lt_of_le_of_lt (Nat.mul_le_mul_right _ ?_) hends)
  omega

end Superblock

/-! ## A superblock as it is made -/

/-- A superblock of one group of `len` small blocks, with or without reverse mappings. -/
def freshSb (len : Nat) (rmapbt : Bool) : Superblock :=
  { blockSize := 512, dataBlocks := len, rootIno := 128, agBlocks := len, agCount := 1
    version := 5, sectorSize := 512, inodeSize := 256, inodesPerBlock := 2, blockLog := 9
    inopbLog := 1, agblkLog := Nat.log2 (len - 1) + 1, icount := 0, ifree := 0
    freeBlocks := len - 8
    dirblkLog := 0, features2 := 0, featuresRoCompat := if rmapbt then 2 else 0
    featuresIncompat := 1, versionnum := 5, logStart := 0, logBlocks := 0
    metaUuid := List.replicate 16 0, inodeAlign := 0, imaxPct := 0, featuresLogIncompat := 0 }

/-- Its sector. -/
def freshSector (len : Nat) (rmapbt : Bool) : Bytes :=
  let b : Bytes := List.replicate 512 0
  let b := put32 b 0 Superblock.MAGIC
  let b := put32 b 4 512
  let b := put64 b 8 len
  let b := put64 b 56 128
  let b := put32 b 84 len
  let b := put32 b 88 1
  let b := put16 b 100 5
  let b := put16 b 102 512
  let b := put16 b 104 256
  let b := put16 b 106 2
  let b := putBe 1 b 120 9
  let b := putBe 1 b 123 1
  let b := putBe 1 b 124 (Nat.log2 (len - 1) + 1)
  let b := put64 b 144 (len - 8)
  let b := put32 b 212 (if rmapbt then 2 else 0)
  let b := put32 b 216 1
  Crc.stamp b 224

set_option maxRecDepth 100000 in
theorem parse_fresh : Superblock.parse (freshSector 16 true) = .ok (freshSb 16 true) := by
  decide +kernel

end FioXfs
