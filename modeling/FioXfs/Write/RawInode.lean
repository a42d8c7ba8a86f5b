import FioXfs.Volume.Contents
import FioXfs.Write.Groups
set_option autoImplicit false

/-!
# An inode, written and read back

The writer makes an inode field by field in a buffer of zeroes, and the setters that follow
write the format, the counts, the size and the data fork.  None of them meets what parsing
checks, so what is written parses, with the fields as they were set last.
-/

namespace FioXfs

open FioXfs.Lib FioXfs.Bmap

namespace Raw

/-! ## What parsing checks -/

/-- A version 3 inode without an attribute fork: what parsing checks of it, and the fields that
are set once. -/
structure Whole (sb : Superblock) (ino m f : Nat) (r : Bytes) : Prop where
  length_eq : r.length = sb.inodeSize
  magic : be16 r 0 = Inode.MAGIC
  mode_eq : be16 r 2 = m
  version : getBe 1 r 4 = 3
  forkoff : getBe 1 r 82 = 0
  flags2_eq : be64 r 120 = f
  number : be64 r 152 = ino

section
variable {sb : Superblock} {ino m f n : Nat} {r d : Bytes} {o : Nat}

/-- A write between the version and the fork offset, or past the inode's number, keeps them. -/
theorem Whole.splice (h : Whole sb ino m f r) (hfit : o + d.length ≤ r.length)
    (hat : 5 ≤ o ∧ o + d.length ≤ 82 ∨ 160 ≤ o) : Whole sb ino m f (splice r o d) := by
  have hle : o ≤ r.length := by omega
  exact
    { length_eq := (length_splice hfit).trans h.length_eq
      magic := (getBe_splice_disjoint hle (by omega)).trans h.magic
      mode_eq := (getBe_splice_disjoint hle (by omega)).trans h.mode_eq
      version := (getBe_splice_disjoint hle (by omega)).trans h.version
      forkoff := (getBe_splice_disjoint hle (by omega)).trans h.forkoff
      flags2_eq := (getBe_splice_disjoint hle (by omega)).trans h.flags2_eq
      number := (getBe_splice_disjoint hle (by omega)).trans h.number }

theorem Whole.putBe {w v : Nat} (h : Whole sb ino m f r) (hs : sb.Sound) (hat : 5 ≤ o ∧ o + w ≤ 82) :
    Whole sb ino m f (putBe w r o v) := by
  have hlen := h.length_eq
  have hsize := hs.inodeSize_ge
  exact h.splice (by rw [length_toBe]; omega) (.inl (by rw [length_toBe]; exact hat))

/-- The data fork has all of the inode past its core. -/
theorem Whole.dataForkSize_eq (h : Whole sb ino m f r) : dataForkSize r = sb.inodeSize - CORE := by
  unfold dataForkSize
  rw [h.forkoff, h.length_eq]
  rfl

/-! ## The setters -/

/-- A fork that fits is put in, in its format, and nothing else but the rest of the fork's bytes
changes. -/
theorem setDataFork_eq_ok {r' : Bytes} {format : Format} (hs : sb.Sound) (h : Whole sb ino m f r)
    (hset : setDataFork r format d = .ok r') :
    Whole sb ino m f r' ∧ getBe 1 r' 5 = format.code ∧ slice r' CORE d.length = d ∧
      d.length ≤ sb.inodeSize - CORE := by
  have hsize := hs.inodeSize_ge
  unfold setDataFork at hset
  rw [h.dataForkSize_eq] at hset
  obtain ⟨_, hfit, hset⟩ := except_bind_eq_ok.mp hset
  have hfit := except_throwIf_eq_ok.mp hfit
  obtain rfl := Except.ok.inj hset
  have h1 : Whole sb ino m f (Lib.putBe 1 r 5 format.code) := h.putBe hs (by omega)
  have h2 : Whole sb ino m f (Lib.splice (Lib.putBe 1 r 5 format.code) CORE
      (List.replicate (sb.inodeSize - CORE) 0)) :=
    h1.splice (by rw [List.length_replicate, h1.length_eq]; unfold CORE; omega)
      (.inr (by unfold CORE; omega))
  have hfit2 : CORE + d.length ≤ (Lib.splice (Lib.putBe 1 r 5 format.code) CORE
      (List.replicate (sb.inodeSize - CORE) (0 : UInt8))).length := by
    rw [h2.length_eq]
    unfold CORE at hfit ⊢
    omega
  have hcode : format.code < 256 ^ 1 := by cases format <;> decide
  refine ⟨h2.splice hfit2 (.inr (by unfold CORE; omega)), ?_, slice_splice_same (by omega),
    not_lt.mp hfit⟩
  rw [getBe_splice_disjoint (by omega) (.inl (by unfold CORE; omega)),
    getBe_splice_disjoint (by rw [h1.length_eq]; unfold CORE; omega) (.inl (by unfold CORE; omega))]
  exact getBe_putBe_same (by rw [h.length_eq]; omega) hcode

/-- The number of extents as parsing finds it. -/
def nextentsOf (f : Nat) (r : Bytes) : Nat :=
  if hasBit f DIFLAG2_NREXT64 then be64 r 24 else be32 r 76

theorem nextentsOf_setNextents (hs : sb.Sound) (h : Whole sb ino m f r) (hn : n < 2 ^ 32) :
    nextentsOf f (setNextents r n) = n := by
  have hlen := h.length_eq
  have hsize := hs.inodeSize_ge
  unfold nextentsOf setNextents flags2
  rw [h.flags2_eq]
  cases hasBit f DIFLAG2_NREXT64 with
  | true => exact getBe_putBe_same (by omega) (hn.trans (by norm_num))
  | false => exact getBe_putBe_same (by omega) (hn.trans_eq (by norm_num))

theorem Whole.setNextents (hs : sb.Sound) (h : Whole sb ino m f r) (n : Nat) :
    Whole sb ino m f (setNextents r n) := by
  unfold Raw.setNextents
  split
  · exact h.putBe hs (by omega)
  · exact h.putBe hs (by omega)

theorem slice_setNextents (hs : sb.Sound) (h : Whole sb ino m f r) {k : Nat}
    (hat : o + k ≤ 24 ∨ 80 ≤ o) : slice (Raw.setNextents r n) o k = slice r o k := by
  have hlen := h.length_eq
  have hsize := hs.inodeSize_ge
  unfold Raw.setNextents
  split
  · exact slice_putBe_disjoint (by omega) (by omega)
  · exact slice_putBe_disjoint (by omega) (by omega)

/-- An inode with its data fork `d` laid out in a format, with a count of extents. -/
structure Laid (sb : Superblock) (ino m f : Nat) (format : Format) (n : Nat) (d r : Bytes) : Prop where
  whole : Whole sb ino m f r
  format_eq : getBe 1 r 5 = format.code
  nextents_eq : nextentsOf f r = n
  fork_eq : slice r CORE d.length = d

/-- A fork put in, and its extents counted. -/
theorem laid_of_setDataFork {r' : Bytes} {format : Format} (hs : sb.Sound) (h : Whole sb ino m f r)
    (hn : n < 2 ^ 32) (hset : setDataFork r format d = .ok r') :
    Laid sb ino m f format n d (Raw.setNextents r' n) ∧ d.length ≤ sb.inodeSize - CORE := by
  obtain ⟨hwhole, hformat, hfork, hle⟩ := setDataFork_eq_ok hs h hset
  have hbyte := @slice_setNextents sb ino m f n r' 5 hs hwhole 1 (.inl (by omega))
  refine ⟨⟨hwhole.setNextents hs n, (congrArg beNat hbyte).trans hformat,
    nextentsOf_setNextents hs hwhole hn, ?_⟩, hle⟩
  rw [slice_setNextents hs hwhole (.inr (by decide))]
  exact hfork

/-- Setting the size or the count of blocks keeps it. -/
theorem Laid.put64 {format : Format} {x : Nat} (hs : sb.Sound) (h : Laid sb ino m f format n d r)
    (hat : o = 56 ∨ o = 64) : Laid sb ino m f format n d (FioXfs.put64 r o x) := by
  have hlen := h.whole.length_eq
  have hsize := hs.inodeSize_ge
  have keep : ∀ {w o' : Nat}, o' + w ≤ 56 ∨ 72 ≤ o' →
      getBe w (FioXfs.put64 r o x) o' = getBe w r o' :=
    fun ho => getBe_putBe_disjoint (by omega) (by omega)
  refine ⟨h.whole.putBe hs (by omega), (keep (.inl (by omega))).trans h.format_eq, ?_, ?_⟩
  · have hwide : be64 (FioXfs.put64 r o x) 24 = be64 r 24 := keep (.inl (by omega))
    have hshort : be32 (FioXfs.put64 r o x) 76 = be32 r 76 := keep (.inr (by omega))
    have hn := h.nextents_eq
    unfold nextentsOf at hn ⊢
    rw [hwide, hshort]
    exact hn
  · rw [slice_putBe_disjoint (by omega) (.inr (by unfold CORE; omega))]
    exact h.fork_eq

end

/-! ## A new inode -/

section
variable {sb : Superblock} {ino m uid gid nlink gen t : Nat}

/-- The fields of a new inode and their bytes, in the order they are written. -/
def freshFields (sb : Superblock) (ino mode uid gid nlink gen t : Nat) : List (Nat × Bytes) :=
  [(0, toBe 2 Inode.MAGIC), (2, toBe 2 mode), (4, toBe 1 3), (5, toBe 1 Format.extents.code),
    (8, toBe 4 uid), (12, toBe 4 gid), (16, toBe 4 nlink), (120, toBe 8 (Volume.newFlags2 sb)),
    (32, toBe 8 t), (40, toBe 8 t), (48, toBe 8 t), (144, toBe 8 t),
    (83, toBe 1 Format.extents.code), (92, toBe 4 gen), (96, toBe 4 NULL_AGINO), (104, toBe 8 1),
    (152, toBe 8 ino), (160, sb.metaUuid)]

theorem freshRaw_eq_patch : Volume.freshRaw sb ino m uid gid nlink gen t =
    patch (List.replicate sb.inodeSize 0) (freshFields sb ino m uid gid nlink gen t) := rfl

theorem fits_freshFields (hs : sb.Sound) : Fits (List.replicate sb.inodeSize (0 : UInt8)).length
    (freshFields sb ino m uid gid nlink gen t) := by
  have hsize := hs.inodeSize_ge
  have huuid := hs.metaUuid_len
  intro p hp
  rw [List.length_replicate]
  simp only [freshFields, List.mem_cons, List.not_mem_nil, or_false] at hp
  rcases hp with rfl | rfl | rfl | rfl | rfl | rfl | rfl | rfl | rfl | rfl | rfl | rfl | rfl | rfl |
    rfl | rfl | rfl | rfl <;> simp only [length_toBe] <;> omega

theorem newFlags2_lt (sb : Superblock) : Volume.newFlags2 sb < 2 ^ 64 := by
  unfold Volume.newFlags2
  cases sb.hasBigtime <;> cases sb.hasNrext64 <;> decide

/-- A field that no later one meets. -/
theorem getBe_freshRaw (hs : sb.Sound) {i w o x : Nat}
    (hi : (freshFields sb ino m uid gid nlink gen t)[i]? = some (o, toBe w x)) (hx : x < 256 ^ w)
    (hc : Clear o w ((freshFields sb ino m uid gid nlink gen t).drop (i + 1))) :
    getBe w (Volume.freshRaw sb ino m uid gid nlink gen t) o = x := by
  rw [freshRaw_eq_patch]
  exact getBe_patch_get hi (fits_freshFields hs) hx hc

theorem format_freshRaw (hs : sb.Sound) :
    getBe 1 (Volume.freshRaw sb ino m uid gid nlink gen t) 5 = Format.extents.code :=
  @getBe_freshRaw sb ino m uid gid nlink gen t hs 3 1 5 _ rfl (by decide) (by simp [Clear, freshFields])

/-- A new inode passes the checks. -/
theorem whole_freshRaw (hs : sb.Sound) (hm : m < 2 ^ 16) (hino : ino < 2 ^ 64) :
    Whole sb ino m (Volume.newFlags2 sb) (Volume.freshRaw sb ino m uid gid nlink gen t) := by
  have hfits := @fits_freshFields sb ino m uid gid nlink gen t hs
  have huuid := hs.metaUuid_len
  have field : ∀ {i w o x : Nat}, (freshFields sb ino m uid gid nlink gen t)[i]? = some (o, toBe w x) →
      x < 256 ^ w → Clear o w ((freshFields sb ino m uid gid nlink gen t).drop (i + 1)) →
      getBe w (Volume.freshRaw sb ino m uid gid nlink gen t) o = x := getBe_freshRaw hs
  have hzero : slice (Volume.freshRaw sb ino m uid gid nlink gen t) 82 1 = [0] := by
    rw [freshRaw_eq_patch, slice_patch_clear hfits (by simp [Clear, freshFields, huuid]), slice,
      List.drop_replicate, List.take_replicate, Nat.min_eq_left (by have := hs.inodeSize_ge; omega)]
    rfl
  exact
    { length_eq := by rw [freshRaw_eq_patch, length_patch hfits, List.length_replicate]
      magic := @field 0 2 0 _ rfl (by decide) (by simp [Clear, freshFields])
      mode_eq := @field 1 2 2 _ rfl (hm.trans_eq (by norm_num)) (by simp [Clear, freshFields])
      version := @field 2 1 4 _ rfl (by decide) (by simp [Clear, freshFields])
      forkoff := congrArg beNat hzero
      flags2_eq := @field 7 8 120 _ rfl ((newFlags2_lt sb).trans_eq (by norm_num))
        (by simp [Clear, freshFields])
      number := @field 16 8 152 _ rfl (hino.trans_eq (by norm_num)) (by simp [Clear, freshFields]) }

end

/-! ## Parsing it -/

section
variable {sb : Superblock} {ino m f : Nat} {r rest : Bytes} {format : Format}

/-- What a stamped inode parses as, the fields of interest. -/
structure ParsedFrom (ino m f : Nat) (r : Bytes) (format : Format) (i : Inode) : Prop where
  ino_eq : i.ino = ino
  mode_eq : i.mode = m
  format_eq : i.format = format
  size_eq : i.size = be64 r 56
  nextents_eq : i.nextents = nextentsOf f r
  dataFork_eq : i.dataFork = r.drop CORE

theorem parse_stamped (hs : sb.Sound) (hv5 : sb.isV5 = true) (h : Whole sb ino m f r)
    (hf : getBe 1 r 5 = format.code) :
    ∃ i, Inode.parse sb ino (Crc.stamp r INODE_CRC ++ rest) = .ok i ∧
      ParsedFrom ino m f r format i := by
  have hlen := h.length_eq
  have hsize := hs.inodeSize_ge
  have hcrc : INODE_CRC + 4 ≤ r.length := by unfold INODE_CRC; omega
  have hstamp : (Crc.stamp r INODE_CRC).length = sb.inodeSize := (Crc.length_stamp hcrc).trans hlen
  have keep : ∀ {w o : Nat}, (o + w ≤ 100 ∨ 104 ≤ o) →
      getBe w (Crc.stamp r INODE_CRC) o = getBe w r o := fun hat =>
    Crc.getBe_stamp_disjoint hcrc (by unfold INODE_CRC; omega)
  have hdrop : (Crc.stamp r INODE_CRC).drop CORE = r.drop CORE := by
    have hslice := @Crc.slice_stamp_disjoint r INODE_CRC CORE (sb.inodeSize - CORE) hcrc
      (.inr (by decide))
    unfold slice at hslice
    rwa [List.take_of_length_le (by rw [List.length_drop, hstamp]),
      List.take_of_length_le (by rw [List.length_drop, hlen])] at hslice
  have hcheck : Inode.checkV3 ino 3 (Crc.stamp r INODE_CRC) = .ok () := by
    have hverify : Crc.verify (Crc.stamp r INODE_CRC) 100 = true := Crc.verify_stamp hcrc
    unfold Inode.checkV3
    rw [if_pos rfl, except_throwIf_bind_of_not (by simp [hverify])]
    exact except_throwIf_of_not (not_not.mpr ((keep (.inr (by omega))).trans h.number))
  have hcore : Inode.coreLen sb ino 3 = .ok 176 := by
    unfold Inode.coreLen
    rw [if_neg (by omega), if_pos ⟨rfl, hv5⟩]
  have hforks : Inode.splitForks ino 176 (Crc.stamp r INODE_CRC) = .ok (r.drop CORE, [], none) := by
    unfold Inode.splitForks
    rw [keep (.inl (by omega)), h.forkoff, ← hdrop]
    rfl
  have htake : (Crc.stamp r INODE_CRC ++ rest).take sb.inodeSize = Crc.stamp r INODE_CRC := by
    rw [← hstamp, List.take_left]
  unfold Inode.parse
  rw [except_throwIf_bind_of_not (by rw [List.length_append]; omega)]
  simp only [htake]
  rw [except_throwIf_bind_of_not (not_not.mpr ((keep (.inl (by omega))).trans h.magic)),
    keep (.inl (by omega)), h.version, hcore, except_ok_bind, hcheck, except_ok_bind,
    keep (.inl (by omega)), hf, Format.fromU8_code, except_ok_bind, hforks, except_ok_bind]
  refine ⟨_, rfl, rfl, (keep (.inl (by omega))).trans h.mode_eq, rfl, keep (.inl (by omega)), ?_, rfl⟩
  have hflags : be64 (Crc.stamp r INODE_CRC) 120 = f := (keep (.inr (by omega))).trans h.flags2_eq
  have hwide : be64 (Crc.stamp r INODE_CRC) 24 = be64 r 24 := keep (.inl (by omega))
  have hshort : be32 (Crc.stamp r INODE_CRC) 76 = be32 r 76 := keep (.inl (by omega))
  simp only [if_true, hflags, hwide, hshort, nextentsOf]

end

end Raw

namespace Volume

/-! ## Writing it -/

/-- The block of inode `ino`, counted over all groups. -/
def inodeBlock (sb : Superblock) (ino : Nat) : Nat :=
  ino / 2 ^ sb.aginoLog * sb.agBlocks + ino % 2 ^ sb.aginoLog / 2 ^ sb.inopbLog

section
variable {v v' : Volume} {sb : Superblock} {ino at_ : Nat} {raw : Bytes}

/-- An inode lies in one block. -/
theorem inoToByte_place (hs : sb.Sound) (h : sb.inoToByte ino = .ok at_) :
    at_ % sb.blockSize + sb.inodeSize ≤ sb.blockSize ∧
      at_ / sb.blockSize * sb.blockSize = inodeBlock sb ino * sb.blockSize % 2 ^ 64 := by
  have hbs := hs.blockSize_pos
  unfold Superblock.inoToByte at h
  simp only at h
  split at h
  · cases h
  · obtain rfl := Except.ok.inj h
    have hindex : ino % 2 ^ sb.aginoLog % 2 ^ sb.inopbLog < sb.inodesPerBlock := by
      rw [hs.inopb_eq]
      exact Nat.mod_lt _ (Nat.two_pow_pos _)
    rw [Nat.shiftLeft_eq, ← hs.blockSize_eq]
    change (inodeBlock sb ino * sb.blockSize % 2 ^ 64 + _) % _ + _ ≤ _ ∧ (inodeBlock sb ino *
      sb.blockSize % 2 ^ 64 + _) / _ * _ = _
    generalize ino % 2 ^ sb.aginoLog % 2 ^ sb.inopbLog = index at hindex
    have hend : index * sb.inodeSize + sb.inodeSize ≤ sb.blockSize :=
      calc index * sb.inodeSize + sb.inodeSize = (index + 1) * sb.inodeSize := (Nat.succ_mul _ _).symm
        _ ≤ sb.inodesPerBlock * sb.inodeSize := Nat.mul_le_mul_right _ hindex
        _ = sb.blockSize := hs.inode_fill
    have hsize := hs.inodeSize_ge
    -- a block's address is a multiple of the block size, cut to 64 bits or not
    obtain ⟨q, hq⟩ : sb.blockSize ∣ inodeBlock sb ino * sb.blockSize % 2 ^ 64 := by
      refine (Nat.dvd_mod_iff ?_).mpr (Nat.dvd_mul_left _ _)
      rw [hs.blockSize_eq]
      exact Nat.pow_dvd_pow 2 (hs.blockLog_le.trans (by norm_num))
    rw [hq, Nat.mul_add_mod, Nat.mod_eq_of_lt (by omega), Nat.mul_add_div hbs,
      Nat.div_eq_of_lt (by omega), Nat.add_zero, Nat.mul_comm q]
    exact ⟨hend, rfl⟩

/-- What writing an inode does: the whole block around it is read and written back. -/
theorem writeRaw_eq_ok (h : writeRaw ino raw v = .ok () v') : ∃ at_ buf dev,
    v.sb.inoToByte ino = .ok at_ ∧
    v.dev.readAt (at_ / v.sb.blockSize * v.sb.blockSize) v.sb.blockSize = .ok buf ∧
    Device.writeAt (at_ / v.sb.blockSize * v.sb.blockSize)
      (splice buf (at_ - at_ / v.sb.blockSize * v.sb.blockSize) (Crc.stamp raw INODE_CRC)) v.dev =
        .ok () dev ∧
    v' = { v with dev := dev } := by
  unfold writeRaw at h
  simp only [get_bind_apply] at h
  obtain ⟨at_, v1, h1, h⟩ := bind_eq_ok.mp h
  obtain ⟨hat, rfl⟩ := liftE_eq_ok.mp h1
  obtain ⟨buf, v2, h2, h⟩ := bind_eq_ok.mp h
  obtain ⟨hbuf, rfl⟩ := liftE_eq_ok.mp h2
  obtain ⟨dev, hdev, hv'⟩ := onDev_eq_ok.mp h
  exact ⟨at_, buf, dev, hat, hbuf, hdev, hv'⟩

/-- A written inode is read, and no other block has changed. -/
theorem inode_writeRaw (hs : v.sb.Sound) (hlen : raw.length = v.sb.inodeSize)
    (h : writeRaw ino raw v = .ok () v') : ∃ dev rest, v' = { v with dev := dev } ∧
      dev.size = v.dev.size ∧ v'.inode ino = Inode.parse v.sb ino (Crc.stamp raw INODE_CRC ++ rest) ∧
      ∀ o n, o + n ≤ inodeBlock v.sb ino * v.sb.blockSize % 2 ^ 64 ∨
        inodeBlock v.sb ino * v.sb.blockSize % 2 ^ 64 + v.sb.blockSize ≤ o →
        dev.readAt o n = v.dev.readAt o n := by
  obtain ⟨at_, buf, dev, hat, hbuf, hdev, rfl⟩ := writeRaw_eq_ok h
  obtain ⟨hin, hblock⟩ := inoToByte_place hs hat
  have hsize := hs.inodeSize_ge
  have hbuflen := Device.length_of_readAt hbuf
  have hstamp : (Crc.stamp raw INODE_CRC).length = v.sb.inodeSize :=
    (Crc.length_stamp (by unfold INODE_CRC; omega)).trans hlen
  have hoff : at_ - at_ / v.sb.blockSize * v.sb.blockSize = at_ % v.sb.blockSize := by
    have := Nat.div_add_mod at_ v.sb.blockSize
    rw [Nat.mul_comm] at this
    omega
  rw [hoff] at hdev
  have hfit : at_ % v.sb.blockSize + (Crc.stamp raw INODE_CRC).length ≤ buf.length := by omega
  have hwhole : (splice buf (at_ % v.sb.blockSize) (Crc.stamp raw INODE_CRC)).length = v.sb.blockSize :=
    (length_splice hfit).trans hbuflen
  refine ⟨dev, buf.drop (at_ % v.sb.blockSize + (Crc.stamp raw INODE_CRC).length), rfl,
    Device.size_writeAt hdev, ?_, fun o n ho => ?_⟩
  · have hread := Device.readAt_writeAt_same hdev
    rw [hwhole] at hread
    unfold inode
    simp only [hat, except_ok_bind, hread]
    congr 1
    unfold splice
    rw [List.append_assoc, List.drop_append, List.drop_eq_nil_of_le (by rw [List.length_take]; omega),
      List.length_take, Nat.min_eq_left (by omega), Nat.sub_self, List.drop_zero, List.nil_append]
  · exact Device.readAt_writeAt_disjoint hdev (by rw [hwhole, hblock]; exact ho)

end

end Volume

end FioXfs
