import FioXfs.Write.NewInode
set_option autoImplicit false

/-!
# Files that are created

A file that is created is read back as the data it was created with, and stays so as long as the
bytes of its inode and its blocks do.  A file that is not created leaves nothing in the ledger.
-/

namespace FioXfs

open FioXfs.Lib FioXfs.Alloc FioXfs.Bmap

namespace Raw

/-! ## The inode of a file -/

section
variable {sb : Superblock} {ino m f n size blocks links uid gid nlink gen t o w : Nat} {r r' fork : Bytes}
  {format : Format}

theorem getBe_setNextents (hs : sb.Sound) (hlen : r.length = sb.inodeSize)
    (hat : o + w ≤ 24 ∨ 32 ≤ o ∧ o + w ≤ 76 ∨ 80 ≤ o) :
    getBe w (setNextents r n) o = getBe w r o := by
  have hsize := hs.inodeSize_ge
  unfold setNextents
  split
  · exact getBe_putBe_disjoint (by omega) (by omega)
  · exact getBe_putBe_disjoint (by omega) (by omega)

/-- A data fork that is put in leaves the fields between its format and itself. -/
theorem getBe_setDataFork (hs : sb.Sound) (h : Whole sb ino m f r)
    (hset : setDataFork r format fork = .ok r') (hlo : 6 ≤ o) (hhi : o + w ≤ CORE) :
    getBe w r' o = getBe w r o := by
  have hlen := h.length_eq
  have hsize := hs.inodeSize_ge
  unfold setDataFork at hset
  rw [h.dataForkSize_eq] at hset
  obtain ⟨_, hfit, hset⟩ := except_bind_eq_ok.mp hset
  obtain rfl := Except.ok.inj hset
  have hcore : CORE ≤ sb.inodeSize := by
    unfold CORE
    omega
  have h1 : (Lib.putBe 1 r 5 format.code).length = sb.inodeSize := by
    rw [length_putBe (by omega), hlen]
  have h2 : (Lib.splice (Lib.putBe 1 r 5 format.code) CORE
      (List.replicate (sb.inodeSize - CORE) (0 : UInt8))).length = sb.inodeSize := by
    rw [length_splice (by rw [List.length_replicate]; omega), h1]
  rw [getBe_splice_disjoint (by omega) (.inl hhi), getBe_splice_disjoint (by omega) (.inl hhi)]
  exact getBe_putBe_disjoint (by omega) (by omega)

/-- What an inode says of a file that is stored. -/
structure SaysFile (sb : Superblock) (ino m f : Nat) (format : Format) (size n blocks links : Nat)
    (fork r : Bytes) : Prop where
  laid : Laid sb ino m f format n fork r
  size_eq : be64 r 56 = size
  nblocks_eq : be64 r 64 = blocks
  flags_eq : be16 r 90 = 0
  links_eq : be32 r 16 = links

/-- The steps that give an inode its file. -/
theorem saysFile_of_setDataFork (hs : sb.Sound) (h : Whole sb ino m f r) (hflags : be16 r 90 = 0)
    (hlinks : be32 r 16 = links) (hn : n < 2 ^ 32) (hsize : size < 2 ^ 64) (hblocks : blocks < 2 ^ 64)
    (hset : setDataFork r format fork = .ok r') :
    SaysFile sb ino m f format size n blocks links fork
      (setNblocks (setNextents (setSize r' size) n) blocks) := by
  have hge := hs.inodeSize_ge
  obtain ⟨h1, hformat, hfork, -⟩ := setDataFork_eq_ok hs h hset
  have h2 : Whole sb ino m f (setSize r' size) := h1.putBe hs (by omega)
  have h3 := h2.setNextents hs n
  have hlen1 := h1.length_eq
  have hlen3 := h3.length_eq
  have keep : ∀ {w o : Nat}, o + w ≤ 56 ∨ 64 ≤ o → getBe w (setSize r' size) o = getBe w r' o :=
    fun ho => getBe_putBe_disjoint (by omega) (by omega)
  have hlaid : Laid sb ino m f format n fork (setNextents (setSize r' size) n) := by
    refine ⟨h3, ?_, nextentsOf_setNextents hs h2 hn, ?_⟩
    · rw [getBe_setNextents hs h2.length_eq (by omega), keep (by omega)]
      exact hformat
    · rw [slice_setNextents hs h2 (.inr (by decide))]
      unfold setSize FioXfs.put64
      rw [slice_putBe_disjoint (by omega) (.inr (by unfold CORE; omega))]
      exact hfork
  refine ⟨hlaid.put64 hs (Or.inr rfl), ?_,
    getBe_putBe_same (by omega) (hblocks.trans_eq (by norm_num)), ?_, ?_⟩
  · unfold setNblocks FioXfs.put64 be64
    rw [getBe_putBe_disjoint (by omega) (by omega), getBe_setNextents hs h2.length_eq (by omega)]
    exact getBe_putBe_same (by omega) (hsize.trans_eq (by norm_num))
  · unfold setNblocks FioXfs.put64 be16
    rw [getBe_putBe_disjoint (by omega) (by omega), getBe_setNextents hs h2.length_eq (by omega),
      keep (by omega), getBe_setDataFork hs h hset (by omega) (by unfold CORE; omega)]
    exact hflags
  · unfold setNblocks FioXfs.put64 be32
    rw [getBe_putBe_disjoint (by omega) (by omega), getBe_setNextents hs h2.length_eq (by omega),
      keep (by omega), getBe_setDataFork hs h hset (by omega) (by unfold CORE; omega)]
    exact hlinks

/-- A new inode has no flags. -/
theorem flags_freshRaw (hs : sb.Sound) : be16 (Volume.freshRaw sb ino m uid gid nlink gen t) 90 = 0 := by
  have hfits := @fits_freshFields sb ino m uid gid nlink gen t hs
  have huuid := hs.metaUuid_len
  have hzero : slice (Volume.freshRaw sb ino m uid gid nlink gen t) 90 2 = [0, 0] := by
    rw [freshRaw_eq_patch, slice_patch_clear hfits (by simp [Clear, freshFields, huuid]), slice,
      List.drop_replicate, List.take_replicate, Nat.min_eq_left (by have := hs.inodeSize_ge; omega)]
    rfl
  exact congrArg beNat hzero

/-- It has the names it was made with. -/
theorem links_freshRaw (hs : sb.Sound) (h : nlink < 2 ^ 32) :
    be32 (Volume.freshRaw sb ino m uid gid nlink gen t) 16 = nlink :=
  @getBe_freshRaw sb ino m uid gid nlink gen t hs 6 4 16 _ rfl (h.trans_eq (by norm_num))
    (by simp [Clear, freshFields])

/-- Fields that parsing takes as they stand. -/
theorem fields_of_parse {a : Bytes} {i : Inode} (h : Inode.parse sb ino a = .ok i) :
    i.mode = be16 (a.take sb.inodeSize) 2 ∧ i.nblocks = be64 (a.take sb.inodeSize) 64 ∧
      i.flags = be16 (a.take sb.inodeSize) 90 ∧
      (getBe 1 (a.take sb.inodeSize) 82 = 0 → i.aformat = none) := by
  unfold Inode.parse at h
  obtain ⟨_, -, h⟩ := except_bind_eq_ok.mp h
  obtain ⟨_, -, h⟩ := except_bind_eq_ok.mp h
  obtain ⟨_, -, h⟩ := except_bind_eq_ok.mp h
  obtain ⟨_, -, h⟩ := except_bind_eq_ok.mp h
  obtain ⟨_, -, h⟩ := except_bind_eq_ok.mp h
  obtain ⟨forks, hforks, h⟩ := except_bind_eq_ok.mp h
  obtain rfl := Except.ok.inj h
  refine ⟨rfl, rfl, rfl, fun hoff => ?_⟩
  unfold Inode.splitForks at hforks
  simp only [hoff, Nat.zero_mul, if_true] at hforks
  obtain rfl := Except.ok.inj hforks
  rfl

/-- An inode without an attribute fork, parsed field by field. -/
theorem Whole.of_parse {a : Bytes} {i : Inode} (h : Whole sb ino m f a) (hv5 : sb.isV5 = true)
    (hparse : Inode.parse sb ino a = .ok i) : ∃ format, Format.fromU8 (getBe 1 a 5) "data" = .ok format ∧
      i = ⟨ino, be16 a 2, 3, format, be32 a 8, be32 a 12, be32 a 16, be16 a 22 * 2 ^ 16 + be16 a 20,
        Inode.readTime (hasBit f DIFLAG2_BIGTIME) (be64 a 32), Inode.readTime (hasBit f DIFLAG2_BIGTIME) (be64 a 40),
        Inode.readTime (hasBit f DIFLAG2_BIGTIME) (be64 a 48),
        some (Inode.readTime (hasBit f DIFLAG2_BIGTIME) (be64 a 144)), be64 a 56, be64 a 64,
        if hasBit f DIFLAG2_NREXT64 then be64 a 24 else be32 a 76,
        if hasBit f DIFLAG2_NREXT64 then be32 a 76 else be16 a 80, none, be16 a 90, f, be32 a 92,
        a.drop CORE, []⟩ := by
  have htake : a.take sb.inodeSize = a := List.take_of_length_le h.length_eq.le
  unfold Inode.parse at hparse
  obtain ⟨_, -, hparse⟩ := except_bind_eq_ok.mp hparse
  obtain ⟨_, -, hparse⟩ := except_bind_eq_ok.mp hparse
  obtain ⟨core, hcore, hparse⟩ := except_bind_eq_ok.mp hparse
  obtain ⟨_, -, hparse⟩ := except_bind_eq_ok.mp hparse
  obtain ⟨format, hformat, hparse⟩ := except_bind_eq_ok.mp hparse
  obtain ⟨forks, hforks, hparse⟩ := except_bind_eq_ok.mp hparse
  rw [htake] at hcore hformat hforks hparse
  rw [h.version] at hcore hparse
  have hcore : core = CORE := by
    unfold Inode.coreLen at hcore
    rw [if_neg (by omega), if_pos ⟨rfl, hv5⟩] at hcore
    exact (Except.ok.inj hcore).symm
  have hforks : forks = (a.drop CORE, [], none) := by
    unfold Inode.splitForks at hforks
    simp only [h.forkoff, Nat.zero_mul, if_true] at hforks
    rw [← hcore]
    exact (Except.ok.inj hforks).symm
  subst hforks
  refine ⟨format, hformat, (Except.ok.inj hparse).symm.trans ?_⟩
  simp only [if_true, h.flags2_eq]
  rfl

/-- What parsing takes for another count of names and another time, where nothing else has changed. -/
theorem Whole.parse_relinked {a b : Bytes} {i : Inode} (h : Whole sb ino m f a) (hv5 : sb.isV5 = true)
    (hparse : Inode.parse sb ino a = .ok i) (hb : Whole sb ino m f b) (hverify : Crc.verify b INODE_CRC = true)
    (keep : ∀ {w o : Nat}, 4 ≤ o ∧ o + w ≤ 16 ∨ 20 ≤ o ∧ o + w ≤ 48 ∨ 56 ≤ o ∧ o + w ≤ 100 ∨
      112 ≤ o → getBe w b o = getBe w a o)
    (hdrop : b.drop CORE = a.drop CORE) : Inode.parse sb ino b =
      .ok { i with
        nlink := be32 b 16, ctime := Inode.readTime (hasBit f DIFLAG2_BIGTIME) (be64 b 48) } := by
  obtain ⟨format, hformat, rfl⟩ := h.of_parse hv5 hparse
  have hlen := hb.length_eq
  have htake : b.take sb.inodeSize = b := List.take_of_length_le hlen.le
  have hcheck : Inode.checkV3 ino 3 b = .ok () := by
    unfold Inode.checkV3
    rw [if_pos rfl, except_throwIf_bind_of_not (by rw [show (100 : Nat) = INODE_CRC from rfl, hverify]; decide)]
    exact except_throwIf_of_not (not_not.mpr hb.number)
  have hcore : Inode.coreLen sb ino 3 = .ok CORE := by
    unfold Inode.coreLen
    rw [if_neg (by omega), if_pos ⟨rfl, hv5⟩]
    rfl
  have hforks : Inode.splitForks ino CORE b = .ok (a.drop CORE, [], none) := by
    unfold Inode.splitForks
    rw [hb.forkoff, hdrop]
    rfl
  unfold Inode.parse
  rw [except_throwIf_bind_of_not (by omega)]
  simp only [htake]
  rw [except_throwIf_bind_of_not (not_not.mpr hb.magic), hb.version, hcore, except_ok_bind, hcheck,
    except_ok_bind, keep (by omega), hformat, except_ok_bind, hforks, except_ok_bind]
  simp only [if_true, hb.flags2_eq, hb.mode_eq, h.mode_eq]
  unfold be16 be32 be64
  simp only [@keep 4 8 (by omega), @keep 4 12 (by omega), @keep 2 22 (by omega), @keep 2 20 (by omega),
    @keep 8 32 (by omega), @keep 8 40 (by omega), @keep 8 144 (by omega), @keep 8 56 (by omega),
    @keep 8 64 (by omega), @keep 8 24 (by omega), @keep 4 76 (by omega), @keep 2 80 (by omega),
    @keep 2 90 (by omega), @keep 4 92 (by omega)]
  rfl

/-- What a stamped inode of a file is parsed as. -/
theorem SaysFile.parse (h : SaysFile sb ino m f format size n blocks links fork r) (hs : sb.Sound)
    (hv5 : sb.isV5 = true) :
    ∃ i, Inode.parse sb ino (Crc.stamp r INODE_CRC) = .ok i ∧ i.ino = ino ∧ i.mode = m ∧
      i.format = format ∧ i.size = size ∧ i.nextents = n ∧ i.nblocks = blocks ∧ i.isRealtime = false ∧
      i.aformat = none ∧
      i.dataFork.length = sb.inodeSize - CORE ∧ ∃ pad, i.dataFork = fork ++ pad := by
  have hlen := h.laid.whole.length_eq
  have hge := hs.inodeSize_ge
  have hcrc : INODE_CRC + 4 ≤ r.length := by unfold INODE_CRC; omega
  obtain ⟨i, hparse, hfrom⟩ := @parse_stamped sb ino m f r [] format hs hv5 h.laid.whole h.laid.format_eq
  rw [List.append_nil] at hparse
  obtain ⟨-, hblocks, hflags, haf⟩ := fields_of_parse hparse
  have htake : (Crc.stamp r INODE_CRC).take sb.inodeSize = Crc.stamp r INODE_CRC :=
    List.take_of_length_le (by rw [Crc.length_stamp hcrc, hlen])
  rw [htake] at hblocks hflags haf
  have keep : ∀ {w o : Nat}, (o + w ≤ 100 ∨ 104 ≤ o) →
      getBe w (Crc.stamp r INODE_CRC) o = getBe w r o := fun hat =>
    Crc.getBe_stamp_disjoint hcrc (by unfold INODE_CRC; omega)
  refine ⟨i, hparse, hfrom.ino_eq, hfrom.mode_eq, hfrom.format_eq, hfrom.size_eq.trans h.size_eq,
    hfrom.nextents_eq.trans h.laid.nextents_eq, ?_, ?_,
    haf ((keep (.inl (by omega))).trans h.laid.whole.forkoff), ?_, (r.drop CORE).drop fork.length, ?_⟩
  · exact hblocks.trans ((keep (.inl (by omega))).trans h.nblocks_eq)
  · unfold Inode.isRealtime
    rw [hflags.trans ((keep (.inl (by omega))).trans h.flags_eq)]
    decide
  · rw [hfrom.dataFork_eq, List.length_drop, hlen]
  · rw [hfrom.dataFork_eq]
    have hfork := h.laid.fork_eq
    unfold slice at hfork
    nth_rewrite 1 [← List.take_append_drop fork.length (r.drop CORE), hfork]
    rfl

/-- A change that leaves what parsing checks, but for the mode. -/
theorem Whole.of_fields {m' : Nat} (h : Whole sb ino m f r) (hlen : r'.length = r.length)
    (hmode : be16 r' 2 = m')
    (keep : ∀ {w o : Nat}, o + w ≤ 2 ∨ o = 4 ∧ w = 1 ∨ o = 82 ∧ w = 1 ∨ 120 ≤ o →
      getBe w r' o = getBe w r o) :
    Whole sb ino m' f r' where
  length_eq := hlen.trans h.length_eq
  magic := (keep (by omega)).trans h.magic
  mode_eq := hmode
  version := (keep (by omega)).trans h.version
  forkoff := (keep (by omega)).trans h.forkoff
  flags2_eq := (keep (by omega)).trans h.flags2_eq
  number := (keep (by omega)).trans h.number

/-- A change that leaves what an inode says of its file, but for the mode. -/
theorem SaysFile.of_fields {m' : Nat} (h : SaysFile sb ino m f format size n blocks links fork r)
    (hlen : r'.length = r.length) (hmode : be16 r' 2 = m')
    (keep : ∀ {w o : Nat}, o + w ≤ 2 ∨ 4 ≤ o ∧ o + w ≤ 6 ∨ 16 ≤ o ∧ o + w ≤ 20 ∨ 24 ≤ o ∧ o + w ≤ 32 ∨
      56 ≤ o ∧ o + w ≤ 100 ∨ 120 ≤ o → getBe w r' o = getBe w r o)
    (hfork : slice r' CORE fork.length = slice r CORE fork.length) :
    SaysFile sb ino m' f format size n blocks links fork r' := by
  have hwhole := h.laid.whole.of_fields hlen hmode fun ho => keep (by omega)
  refine ⟨⟨hwhole, (keep (by omega)).trans h.laid.format_eq, ?_, hfork.trans h.laid.fork_eq⟩,
    (keep (by omega)).trans h.size_eq, (keep (by omega)).trans h.nblocks_eq,
    (keep (by omega)).trans h.flags_eq, (keep (by omega)).trans h.links_eq⟩
  have hn := h.laid.nextents_eq
  have hwide : be64 r' 24 = be64 r 24 := keep (by omega)
  have hshort : be32 r' 76 = be32 r 76 := keep (by omega)
  unfold nextentsOf at hn ⊢
  rw [hwide, hshort]
  exact hn

/-- A field that is put beside those. -/
theorem SaysFile.putBe {x : Nat} (h : SaysFile sb ino m f format size n blocks links fork r) (hs : sb.Sound)
    (hat : 6 ≤ o ∧ o + w ≤ 16 ∨ 20 ≤ o ∧ o + w ≤ 24 ∨ 32 ≤ o ∧ o + w ≤ 56 ∨ 104 ≤ o ∧ o + w ≤ 120) :
    SaysFile sb ino m f format size n blocks links fork (Lib.putBe w r o x) := by
  have hlen := h.laid.whole.length_eq
  have hge := hs.inodeSize_ge
  refine h.of_fields (length_putBe (by omega)) ?_ (fun ho => getBe_putBe_disjoint (by omega) (by omega)) ?_
  · exact (getBe_putBe_disjoint (by omega) (by omega)).trans h.laid.whole.mode_eq
  · exact slice_putBe_disjoint (by omega) (.inr (by unfold CORE; omega))

/-- Another mode. -/
theorem SaysFile.setMode {m' : Nat} (h : SaysFile sb ino m f format size n blocks links fork r) (hs : sb.Sound)
    (hm : m' < 2 ^ 16) : SaysFile sb ino m' f format size n blocks links fork (setMode r m') := by
  have hlen := h.laid.whole.length_eq
  have hge := hs.inodeSize_ge
  refine h.of_fields (length_putBe (by omega)) (getBe_putBe_same (by omega) (hm.trans_eq (by norm_num)))
    (fun ho => getBe_putBe_disjoint (by omega) (by omega)) ?_
  exact slice_putBe_disjoint (by omega) (.inr (by unfold CORE; omega))

/-- Its times are set. -/
theorem SaysFile.touch {t : Timestamp} (h : SaysFile sb ino m f format size n blocks links fork r) (hs : sb.Sound)
    (htouch : Raw.touch r t true = .ok r') : SaysFile sb ino m f format size n blocks links fork r' := by
  unfold Raw.touch at htouch
  obtain ⟨word, -, htouch⟩ := except_bind_eq_ok.mp htouch
  obtain rfl := Except.ok.inj htouch
  rw [if_pos rfl]
  exact ((h.putBe hs (by omega)).putBe hs (by omega)).putBe hs (by omega)

/-- An inode with another count of names and another time of change. -/
structure Relinked (n : Nat) (a r : Bytes) : Prop where
  length_eq : r.length = a.length
  keep : ∀ {w o : Nat}, o + w ≤ 16 ∨ 20 ≤ o ∧ o + w ≤ 48 ∨ 56 ≤ o ∧ o + w ≤ 104 ∨ 112 ≤ o →
    getBe w r o = getBe w a o
  links_eq : be32 r 16 = n
  drop_eq : r.drop CORE = a.drop CORE

theorem relinked_of_touch {a : Bytes} {t : Timestamp} (hlen : 256 ≤ a.length) (hn : n < 2 ^ 32)
    (htouch : Raw.touch (setNlink a n) t false = .ok r) : Relinked n a r := by
  unfold Raw.touch at htouch
  obtain ⟨word, -, htouch⟩ := except_bind_eq_ok.mp htouch
  have hr := Except.ok.inj htouch
  simp only [Bool.false_eq_true, if_false] at hr
  generalize be64 (put64 (setNlink a n) 48 word) 104 + 1 = count at hr
  change Lib.putBe 8 (Lib.putBe 8 (Lib.putBe 4 a 16 n) 48 word) 104 count = r at hr
  have hlen1 : (Lib.putBe 4 a 16 n).length = a.length := length_putBe (by omega)
  have hlen2 : (Lib.putBe 8 (Lib.putBe 4 a 16 n) 48 word).length = a.length :=
    (length_putBe (by omega)).trans hlen1
  have hlenr : r.length = a.length := hr ▸ (length_putBe (by omega)).trans hlen2
  refine ⟨hlenr, fun ho => ?_, ?_, ?_⟩
  · rw [← hr, getBe_putBe_disjoint (by omega) (by omega), getBe_putBe_disjoint (by omega) (by omega),
      getBe_putBe_disjoint (by omega) (by omega)]
  · rw [← hr]
    unfold be32
    rw [getBe_putBe_disjoint (by omega) (by omega), getBe_putBe_disjoint (by omega) (by omega)]
    exact getBe_putBe_same (by omega) (hn.trans_eq (by norm_num))
  · have hslice : slice r CORE a.length = slice a CORE a.length := by
      rw [← hr, slice_putBe_disjoint (by omega) (.inr (by unfold CORE; omega)),
        slice_putBe_disjoint (by omega) (.inr (by unfold CORE; omega)),
        slice_putBe_disjoint (by omega) (.inr (by unfold CORE; omega))]
    unfold slice at hslice
    rwa [List.take_of_length_le (by rw [List.length_drop]; omega),
      List.take_of_length_le (by rw [List.length_drop]; omega)] at hslice

/-- The checksum changes nothing of what parsing checks. -/
theorem Whole.stamp (h : Whole sb ino m f r) (hs : sb.Sound) : Whole sb ino m f (Crc.stamp r INODE_CRC) := by
  have hlen := h.length_eq
  have hge := hs.inodeSize_ge
  have hcrc : INODE_CRC + 4 ≤ r.length := by unfold INODE_CRC; omega
  have keep : ∀ {w o : Nat}, (o + w ≤ 100 ∨ 104 ≤ o) →
      getBe w (Crc.stamp r INODE_CRC) o = getBe w r o := fun hat =>
    Crc.getBe_stamp_disjoint hcrc (by unfold INODE_CRC; omega)
  exact h.of_fields (Crc.length_stamp hcrc) ((keep (by omega)).trans h.mode_eq) fun ho => keep (by omega)

/-- A regular file's inode as it stands in its slot, with its counts of blocks and of names. -/
structure OfFile (sb : Superblock) (ino blocks links : Nat) (a : Bytes) : Prop where
  whole : ∃ m f, Whole sb ino m f a ∧ m < 2 ^ 16 ∧ m &&& Mode.IFMT = Mode.IFREG
  flags_eq : be16 a 90 = 0
  nblocks_eq : be64 a 64 = blocks
  links_eq : be32 a 16 = links

theorem SaysFile.ofFile (h : SaysFile sb ino m f format size n blocks links fork r) (hs : sb.Sound)
    (hm : m < 2 ^ 16) (htype : m &&& Mode.IFMT = Mode.IFREG) :
    OfFile sb ino blocks links (Crc.stamp r INODE_CRC) := by
  have hlen := h.laid.whole.length_eq
  have hge := hs.inodeSize_ge
  have hcrc : INODE_CRC + 4 ≤ r.length := by unfold INODE_CRC; omega
  have keep : ∀ {w o : Nat}, (o + w ≤ 100 ∨ 104 ≤ o) →
      getBe w (Crc.stamp r INODE_CRC) o = getBe w r o := fun hat =>
    Crc.getBe_stamp_disjoint hcrc (by unfold INODE_CRC; omega)
  exact ⟨⟨m, f, h.laid.whole.stamp hs, hm, htype⟩, (keep (by omega)).trans h.flags_eq,
    (keep (by omega)).trans h.nblocks_eq, (keep (by omega)).trans h.links_eq⟩

end

end Raw

namespace Volume

section
variable {v v' : Volume} {sb : Superblock} {L : Ledger} {d d' : Device} {P : Nat → Prop} {ino links : Nat}
  {data : Bytes} {runs tree : List (Nat × Nat)}

/-! ## Files in place -/

/-- Inode `ino` is a regular file, and any range of it reads as that of `data`. -/
def ReadsFile (v : Volume) (ino : Nat) (data : Bytes) : Prop :=
  ∃ i es, v.inode ino = .ok i ∧ i.fileType = Mode.IFREG ∧ i.size = data.length ∧
    v.extents i false = .ok es ∧
      ∀ offset len, v.readInodeRange i es offset len = .ok (slice data offset len)

/-- Inode `ino` is a regular file with as many names as `links` says, which holds `data` in the blocks
`runs`, under a B+tree in those of `tree` if need be. -/
structure FileAt (sb : Superblock) (d : Device) (ino links : Nat) (data : Bytes)
    (runs tree : List (Nat × Nat)) : Prop where
  node : ∃ k b i, NodeAt sb ino k b i
  inAg : ∀ r ∈ runs ++ tree, InOneAg sb r
  apart : (runs ++ tree).Pairwise (Apart Prod.fst fun r => r.1 + r.2)
  short : ∀ r ∈ runs, r.2 ≤ MAX_EXTENT
  granted : Granted sb runs (divCeil data.length sb.blockSize)
  holds : HoldsData sb data (extentsFrom 0 runs) d
  slot : ∃ a i bs, SlotAt d sb ino a ∧ Raw.OfFile sb ino ((runs ++ tree).map (·.2)).sum links a ∧
    Inode.parse sb ino a = .ok i ∧ i.fileType = Mode.IFREG ∧
    i.ino = ino ∧ i.format ≠ .local_ ∧ i.aformat = none ∧ i.isRealtime = false ∧ i.size = data.length ∧
      Bmap.forkMap d sb i false = .ok (extentsFrom 0 runs, bs) ∧ bs.Perm (expand tree)

/-- What a file has: its inode and its blocks. -/
def fileLedger (ino : Nat) (runs tree : List (Nat × Nat)) : Ledger := ⟨covered (runs ++ tree), {ino}⟩

/-- Blocks read the same where their bytes are the same. -/
theorem readBlocks_of_sameOn {b : Nat} {r : Nat × Nat} (hf : sb.Fitting) (hr : InOneAg sb r)
    (hlo : r.1 ≤ b) (hhi : b < r.1 + r.2) (hsame : Device.SameOn P d d')
    (hP : ∀ p, sb.BytesOf (covered [(b, 1)]) p → P p) :
    readBlocks d' sb b 1 = readBlocks d sb b 1 := by
  have hs := hf.addressable.sound
  obtain ⟨hin, -, at_, hat⟩ := hr.block_run hf hlo hhi
  obtain ⟨-, rfl⟩ := inside_of_fsbToByte hat
  unfold readBlocks
  rw [hat, except_ok_bind, except_ok_bind, Nat.add_sub_cancel, hat, except_ok_bind, except_ok_bind]
  refine hsame.readAt_eq fun p hp hp' => hP p (bytesOf_run hf hin hp ?_)
  rwa [Nat.shiftLeft_eq, ← hs.blockSize_eq] at hp'

/-- A fork is mapped the same where its B+tree's bytes are the same. -/
theorem forkMap_of_sameOn {i : Inode} {es : List Extent} {bs : List Nat} (hf : sb.Fitting)
    (hin : ∀ r ∈ tree, InOneAg sb r) (h : Bmap.forkMap d sb i false = .ok (es, bs))
    (hbs : bs.Perm (expand tree)) (hsame : Device.SameOn P d d')
    (hP : ∀ p, sb.BytesOf (covered tree) p → P p) : Bmap.forkMap d' sb i false = .ok (es, bs) := by
  refine forkMap_congr h fun b hb => ?_
  obtain ⟨r, hr, hlo, hhi⟩ := mem_expand_iff.mp (hbs.subset hb)
  refine readBlocks_of_sameOn hf (hin r hr) hlo hhi hsame fun p hp => hP p ⟨hp.1, ?_⟩
  obtain ⟨r', hr', hlo', hhi'⟩ := hp.2
  obtain rfl := List.mem_singleton.mp hr'
  simp only at hlo' hhi'
  exact ⟨r, hr, by omega, by omega⟩

/-- A file stays where its inode's bytes and its blocks' do. -/
theorem FileAt.sameOn (h : FileAt sb d ino links data runs tree) (hf : sb.Fitting) (hsame : Device.SameOn P d d')
    (hP : ∀ p, (fileLedger ino runs tree).Names sb p → P p) : FileAt sb d' ino links data runs tree := by
  obtain ⟨k, b, i, hnode⟩ := h.node
  obtain ⟨a, i, bs, hslot, hof, hparse, htype, hino, hformat, haf, hrt, hsize, hmap, hbs⟩ := h.slot
  have hblocks : ∀ p, sb.BytesOf (covered (runs ++ tree)) p → P p := fun p hp => hP p (Or.inl hp.2)
  have hruns : covered runs ⊆ covered (runs ++ tree) := covered_append ▸ Set.subset_union_left
  have htree : covered tree ⊆ covered (runs ++ tree) := covered_append ▸ Set.subset_union_right
  refine
    { node := h.node
      inAg := h.inAg
      apart := h.apart
      short := h.short
      granted := h.granted
      holds := holdsData_of_sameOn hf h.granted.inAg h.holds hsame fun p hp =>
        hblocks p (bytesOf_mono hp hruns)
      slot := ⟨a, i, bs, ?_, hof, hparse, htype, hino, hformat, haf, hrt, hsize, ?_, hbs⟩ }
  · exact hslot.sameOn hf hnode hsame fun p _ hino => hP p (Or.inr hino)
  · exact forkMap_of_sameOn hf (fun r hr => h.inAg r (List.mem_append_right _ hr)) hmap hbs hsame fun p hp =>
      hblocks p (bytesOf_mono hp htree)

/-- An inode's slot holds one string of bytes. -/
theorem SlotAt.unique {a b : Bytes} (h : SlotAt d sb ino a) (h' : SlotAt d sb ino b) : a = b := by
  obtain ⟨⟨at_, hat, -, hslice⟩, -⟩ := h
  obtain ⟨⟨at_', hat', -, hslice'⟩, -⟩ := h'
  obtain rfl := Except.ok.inj (hat.symm.trans hat')
  exact hslice.symm.trans hslice'

/-- The inode says how many names the file has. -/
theorem FileAt.nlink_eq (h : FileAt v.sb v.dev ino links data runs tree) (hf : v.sb.Fitting) {i : Inode}
    (hinode : v.inode ino = .ok i) : i.nlink = links := by
  obtain ⟨a, i', bs, hslot, ⟨⟨m, f, hwhole, -⟩, -, -, hlinks⟩, hparse, -⟩ := h.slot
  obtain rfl := Except.ok.inj (hinode.symm.trans ((hslot.inode_eq hf.addressable.sound).trans hparse))
  obtain ⟨_, -, rfl⟩ := hwhole.of_parse hf.isV5 hparse
  exact hlinks

/-- A file with another count of names and another time is the same file. -/
theorem FileAt.relinked {raw raw' : Bytes} {t : Timestamp} {n : Nat}
    (h : FileAt sb d ino links data runs tree) (hf : sb.Fitting) (hn : n < 2 ^ 32)
    (hraw : SlotAt d sb ino raw) (htouch : Raw.touch (Raw.setNlink raw n) t false = .ok raw')
    (hslot : SlotAt d' sb ino (Crc.stamp raw' INODE_CRC)) (hsame : Device.SameOn P d d')
    (hP : ∀ p, sb.BytesOf (covered (runs ++ tree)) p → P p) : FileAt sb d' ino n data runs tree := by
  have hs := hf.addressable.sound
  have hge := hs.inodeSize_ge
  obtain ⟨a, i, bs, hold, ⟨⟨m, f, hwhole, hlt, hm⟩, hflags, hnblocks, -⟩, hparse, htype, hino, hformat, haf,
    hrt, hsize, hmap, hbs⟩ := h.slot
  obtain rfl := hold.unique hraw
  have hlen := hwhole.length_eq
  obtain ⟨hlenr, keepr, hlinksr, hdropr⟩ := Raw.relinked_of_touch (by omega) hn htouch
  have hcrc : INODE_CRC + 4 ≤ raw'.length := by unfold INODE_CRC; omega
  have keep : ∀ {w o : Nat}, o + w ≤ 16 ∨ 20 ≤ o ∧ o + w ≤ 48 ∨ 56 ≤ o ∧ o + w ≤ 100 ∨ 112 ≤ o →
      getBe w (Crc.stamp raw' INODE_CRC) o = getBe w a o := fun ho =>
    (Crc.getBe_stamp_disjoint hcrc (by unfold INODE_CRC; omega)).trans (keepr (by omega))
  have hlinks : be32 (Crc.stamp raw' INODE_CRC) 16 = n :=
    (Crc.getBe_stamp_disjoint hcrc (by unfold INODE_CRC; omega)).trans hlinksr
  have hlenb : (Crc.stamp raw' INODE_CRC).length = a.length := (Crc.length_stamp hcrc).trans hlenr
  have hwhole' : Raw.Whole sb ino m f (Crc.stamp raw' INODE_CRC) :=
    hwhole.of_fields hlenb ((keep (by omega)).trans hwhole.mode_eq) fun ho => keep (by omega)
  have hdrop : (Crc.stamp raw' INODE_CRC).drop CORE = a.drop CORE := by
    rw [← hdropr]
    have hslice := @Crc.slice_stamp_disjoint raw' INODE_CRC CORE raw'.length hcrc (.inr (by decide))
    unfold slice at hslice
    rwa [List.take_of_length_le (by rw [List.length_drop]; omega),
      List.take_of_length_le (by rw [List.length_drop]; omega)] at hslice
  have hparse' := hwhole.parse_relinked hf.isV5 hparse hwhole' (Crc.verify_stamp hcrc) (fun ho => keep (by omega))
    hdrop
  have hruns : covered runs ⊆ covered (runs ++ tree) := covered_append ▸ Set.subset_union_left
  have htree : covered tree ⊆ covered (runs ++ tree) := covered_append ▸ Set.subset_union_right
  have hmap' := forkMap_of_sameOn hf (fun r hr => h.inAg r (List.mem_append_right _ hr)) hmap hbs hsame fun p hp =>
    hP p (bytesOf_mono hp htree)
  exact
    { node := h.node
      inAg := h.inAg
      apart := h.apart
      short := h.short
      granted := h.granted
      holds := holdsData_of_sameOn hf h.granted.inAg h.holds hsame fun p hp => hP p (bytesOf_mono hp hruns)
      slot := ⟨_, _, bs, hslot, ⟨⟨m, f, hwhole', hlt, hm⟩, (keep (by omega)).trans hflags,
        (keep (by omega)).trans hnblocks, hlinks⟩, hparse', htype, hino, hformat, haf, hrt, hsize, hmap', hbs⟩ }

/-- A file in place is read. -/
theorem FileAt.reads (h : FileAt v.sb v.dev ino links data runs tree) (ho : v.Opened) : v.ReadsFile ino data := by
  obtain ⟨a, i, bs, hslot, -, hparse, htype, -, hformat, -, hrt, hsize, hmap, -⟩ := h.slot
  have hord := inOrder_extentsFrom (fun r hr => by
    obtain ⟨_, _, _, _, _, _, hpos, _⟩ := h.granted.inAg r hr
    exact hpos) 0
  have hread : v.Readable (extentsFrom 0 runs) := fun e he _ =>
    (h.granted.inAg _ (mem_extentsFrom he).1).onDevice ho
  refine ⟨i, extentsFrom 0 runs, (hslot.inode_eq ho.sound).trans hparse, htype, hsize, ?_,
    fun offset len => ?_⟩
  · unfold extents forkMap
    rw [hmap]
    rfl
  · rw [readInodeRange_eq ho.sound ho.size_lt hord hread hformat hrt, hsize,
      contents_of_holds ho h.granted h.holds]

/-! ## Creating one -/

/-- The mode of a regular file that is created. -/
theorem mode_file (a : Attrs) : Mode.IFREG ||| a.perms < 2 ^ 16 ∧
    (Mode.IFREG ||| a.perms) &&& Mode.IFMT = Mode.IFREG := by
  unfold Attrs.perms
  have hperms : a.mode &&& 0o7777 < 2 ^ 16 := Nat.and_lt_two_pow _ (by norm_num)
  refine ⟨Nat.or_lt_two_pow (by decide) hperms, ?_⟩
  have hnone : a.mode &&& 0o7777 &&& Mode.IFMT = 0 := by
    rw [Nat.and_assoc]
    exact Nat.and_zero _
  rw [Nat.and_or_distrib_right, hnone]
  decide

/-- A count of extents is at most that of their blocks. -/
theorem length_extentsFrom_le {lblk : Nat} (hin : ∀ r ∈ runs, InOneAg sb r) :
    (extentsFrom lblk runs).length ≤ (runs.map (·.2)).sum := by
  have hlen := congrArg List.length (map_extentsFrom lblk runs)
  rw [List.length_map] at hlen
  rw [hlen, ← List.length_map (·.2)]
  refine List.length_le_sum_of_one_le _ fun n hn => ?_
  obtain ⟨r, hr, rfl⟩ := List.mem_map.mp hn
  obtain ⟨_, _, _, _, _, _, hpos, _⟩ := hin r hr
  exact hpos

/-- Runs that share no block have no more than there are. -/
theorem sum_runs_le (hf : sb.Fitting) (hin : ∀ r ∈ runs, InOneAg sb r)
    (hapart : runs.Pairwise (Apart Prod.fst fun r => r.1 + r.2)) : (runs.map (·.2)).sum ≤ 2 ^ 52 := by
  have hnodup := nodup_expand hapart
  have hsub : (expand runs).toFinset ⊆ Finset.range (2 ^ 52) := by
    intro x hx
    obtain ⟨r, hr, hlo, hhi⟩ := mem_expand_iff.mp (List.mem_toFinset.mp hx)
    exact Finset.mem_range.mpr ((hin r hr).block_run hf hlo hhi).2.1
  have hcard := Finset.card_le_card hsub
  rwa [List.toFinset_card_of_nodup hnodup, Finset.card_range, length_expand] at hcard

/-- An inode's number fits in its field. -/
theorem NodeAt.ino_lt {k b i : Nat} (h : NodeAt sb ino k b i) (hf : sb.Fitting) : ino < 2 ^ 64 := by
  have ha := hf.addressable
  have hagino := ha.aginoAt_lt h.block h.index
  have hlog : 2 ^ sb.aginoLog ≤ 2 ^ 32 := Nat.pow_le_pow_right (by norm_num) ha.agino_le
  have hk := h.ag.trans ha.agCount_lt
  rw [← h.number, ha.aginoToIno_eq h.ag hagino]
  calc k * 2 ^ sb.aginoLog + sb.aginoAt b i < (k + 1) * 2 ^ sb.aginoLog := by
        rw [Nat.succ_mul]
        omega
    _ ≤ 2 ^ 32 * 2 ^ 32 := Nat.mul_le_mul hk hlog
    _ = 2 ^ 64 := by norm_num

/-- What was stored for an inode, once the inode is written, is its file. -/
theorem DataMade.fileAt {k b i m f : Nat} {format : Format} {fork raw : Bytes} {n blocks forkSize : Nat}
    {d₁ : Device} (h : DataMade L v ino forkSize data (format, fork, blocks, n) runs tree v')
    (hf : v.sb.Fitting) (hn : NodeAt v.sb ino k b i)
    (hforkSize : forkSize = v.sb.inodeSize - CORE) (hlt : m < 2 ^ 16) (hm : m &&& Mode.IFMT = Mode.IFREG)
    (htells : Raw.SaysFile v.sb ino m f format data.length n blocks links fork raw)
    (hslot : SlotAt d₁ v.sb ino (Crc.stamp raw INODE_CRC))
    (hsame : Device.SameOn P v'.dev d₁) (hP : ∀ p, v.sb.BytesOf (covered (runs ++ tree)) p → P p) :
    FileAt v.sb d₁ ino links data runs tree := by
  have hs := hf.addressable.sound
  obtain ⟨i, hparse, hino, hmode, hformat, hsize, hnext, hblocks, hrt, haf, hlen, pad, hfork⟩ :=
    htells.parse hs hf.isV5
  have hsum : blocks ≤ 2 ^ 52 := h.blocks.trans_le (sum_runs_le hf h.taken.inAg h.taken.apart)
  obtain ⟨bs, hmap, hperm⟩ := h.reads i pad hino hformat hfork (hlen.trans hforkSize.symm) hnext
    hblocks.ge (by rw [hblocks]; omega)
  rw [h.kept.sb] at hmap
  have hruns : covered runs ⊆ covered (runs ++ tree) := covered_append ▸ Set.subset_union_left
  have htree : covered tree ⊆ covered (runs ++ tree) := covered_append ▸ Set.subset_union_right
  refine
    { node := ⟨_, _, _, hn⟩
      inAg := h.taken.inAg
      apart := h.taken.apart
      short := h.short
      granted := h.granted
      holds := holdsData_of_sameOn hf h.granted.inAg h.holds hsame fun p hp => hP p (bytesOf_mono hp hruns)
      slot := ⟨_, i, bs, hslot, h.blocks ▸ htells.ofFile hs hlt hm, hparse, ?_, hino, ?_, haf, hrt, hsize,
        ?_, hperm⟩ }
  · unfold Inode.fileType
    rw [hmode]
    exact hm
  · rcases h.format_eq with heq | heq
    · rw [hformat, show format = .extents from heq]
      decide
    · rw [hformat, show format = .btree from heq]
      decide
  · exact forkMap_of_sameOn hf (fun r hr => h.taken.inAg r (List.mem_append_right _ hr)) hmap hperm hsame
      fun p hp => hP p (bytesOf_mono hp htree)

/-- What creating a file leaves: it is in place, in an inode and blocks that were nobody's. -/
structure FileMade (L : Ledger) (v : Volume) (ino links : Nat) (data : Bytes) (v' : Volume) : Prop where
  new : ino ∉ L.inodes
  made : ∃ runs tree, Kept (L.Names v.sb) ((L.withInode ino).withBlocks (covered (runs ++ tree))) v v' ∧
    FileAt v.sb v'.dev ino links data runs tree ∧ (L.withInode ino).Lacks v.sb (covered (runs ++ tree)) ∧
      ∃ k b i, NodeAt v.sb ino k b i ∧ v.sb.agbToFsb k b ∉ L.blocks

theorem FileMade.still {v₂ : Volume} (h : FileMade L v ino links data v') (hs : Still v' v₂) :
    FileMade L v ino links data v₂ := by
  obtain ⟨hnew, runs, tree, hkept, hfile, hlacks, hnode⟩ := h
  exact ⟨hnew, runs, tree, hkept.trans (hs.kept hkept.minds), hs.dev ▸ hfile, hlacks, hnode⟩

/-- What was in the ledger is kept, whatever becomes of the file. -/
theorem FileMade.dropped (h : FileMade L v ino links data v') (ha : v.sb.Addressable) :
    Kept (L.Names v.sb) L v v' := by
  obtain ⟨-, runs, tree, hkept, -⟩ := h
  exact hkept.mono ha (Ledger.le_trans (Ledger.le_withInode L ino) (Ledger.le_withBlocks _ _))

/-- Data of fewer blocks than are counted in 32 bits. -/
theorem length_lt_of_blocks (hs : sb.Sound) (h : divCeil data.length sb.blockSize < 2 ^ 32) :
    data.length < 2 ^ 54 := by
  have hbs : sb.blockSize ≤ 2 ^ 16 := by
    rw [hs.blockSize_eq]
    exact Nat.pow_le_pow_right (by norm_num) hs.blockLog_le
  calc data.length ≤ divCeil data.length sb.blockSize * sb.blockSize := le_divCeil_mul hs.blockSize_pos
    _ ≤ 2 ^ 32 * 2 ^ 16 := Nat.mul_le_mul h.le hbs
    _ < 2 ^ 54 := by norm_num

/-- The counts of what was stored fit where an inode keeps them. -/
theorem DataMade.counts {forkSize : Nat} {out : Format × Bytes × Nat × Nat}
    (h : DataMade L v ino forkSize data out runs tree v') (hf : v.sb.Fitting)
    (hdata : divCeil data.length v.sb.blockSize < 2 ^ 32) : out.2.2.2 < 2 ^ 32 ∧ out.2.2.1 ≤ 2 ^ 52 := by
  have hle := @length_extentsFrom_le _ runs 0 h.granted.inAg
  rw [← h.count, h.granted.total] at hle
  exact ⟨hle.trans_lt hdata, h.blocks.trans_le (sum_runs_le hf h.taken.inAg h.taken.apart)⟩

/-- The inode is written last, and then the file is made. -/
theorem DataMade.write_leaves {K : Ledger} {v₁ v₂ v₃ : Volume} {k b i m f : Nat} {format : Format}
    {fork raw : Bytes} {n blocks forkSize : Nat}
    (h : DataMade K v₁ ino forkSize data (format, fork, blocks, n) runs tree v₂) (hf : v.sb.Fitting)
    (hsb₁ : v₁.sb = v.sb) (hn : NodeAt v.sb ino k b i) (hnew : ino ∉ L.inodes)
    (hfree : v.sb.agbToFsb k b ∉ L.blocks) (hlacks : (L.withInode ino).Lacks v.sb (covered (runs ++ tree)))
    (hforkSize : forkSize = v.sb.inodeSize - CORE) (hlt : m < 2 ^ 16) (hm : m &&& Mode.IFMT = Mode.IFREG)
    (htells : Raw.SaysFile v.sb ino m f format data.length n blocks links fork raw)
    (hkept : Kept (L.Names v.sb) ((L.withInode ino).withBlocks (covered (runs ++ tree))) v v₃)
    (hsame : Device.SameOn ((L.withBlocks (covered (runs ++ tree))).Names v.sb) v₂.dev v₃.dev) :
    Leaves (writeRaw ino raw) v₃ (fun _ v' => Kept (L.Names v.sb) L v v')
      fun _ v' => FileMade L v ino links data v' := by
  have ha := hf.addressable
  have hsb₃ := hkept.sb
  have hold : ∀ p, L.Names v.sb p → (L.withBlocks (covered (runs ++ tree))).Names v.sb p := fun p hp =>
    hp.mono (Ledger.le_withBlocks _ _)
  -- the inode is in none of the file's blocks
  have hnode : LacksNode v.sb (L.withBlocks (covered (runs ++ tree))) ino := by
    refine hn.lacks hf hnew fun hmem => hmem.elim hfree fun hR => ?_
    exact hlacks.inodes k hn.ag b hn.block hR i hn.index (Or.inl hn.number)
  have hwrite := @writeRaw_leaves v₃ (L.withBlocks (covered (runs ++ tree)))
    ((L.withInode ino).withBlocks (covered (runs ++ tree))) ino k b i _ hkept.minds (hsb₃ ▸ hf) (hsb₃ ▸ hn)
    (hsb₃ ▸ hnode) (Or.inl rfl) (hsb₃.symm ▸ htells.laid.whole.length_eq)
  rw [hsb₃] at hwrite
  have hback : L ≤ (L.withInode ino).withBlocks (covered (runs ++ tree)) :=
    Ledger.le_trans (Ledger.le_withInode L ino) (Ledger.le_withBlocks _ _)
  refine hwrite.mono (fun _ v₄ h₄ => (hkept.trans (h₄.of_bytes hold)).mono ha hback) fun _ v₄ h₄ => ?_
  obtain ⟨hkept₄, hslot⟩ := h₄
  have hfile : FileAt v₁.sb v₄.dev ino links data runs tree :=
    h.fileAt (hsb₁ ▸ hf) (hsb₁ ▸ hn) (by rw [hsb₁]; exact hforkSize) hlt hm (hsb₁ ▸ htells)
      (hsb₁ ▸ hslot)
      (hsame.trans hkept₄.dev) fun p hp => by
        rw [hsb₁] at hp
        exact Or.inl (Or.inr hp.2)
  rw [hsb₁] at hfile
  exact ⟨hnew, runs, tree, hkept.trans (hkept₄.of_bytes hold), hfile, hlacks, k, b, i, hn, hfree⟩

/-- A file is created, or what was there is as it was; in either case what the ledger names stays. -/
theorem createFile_leaves {path : Bytes} {a : Attrs} (h : v.Minds L) (hf : v.sb.Fitting) (ho : v.Opened)
    (hdata : divCeil data.length v.sb.blockSize < 2 ^ 32) :
    Leaves (createFile path data a) v (fun _ v' => Kept (L.Names v.sb) L v v')
      fun ino v' => FileMade L v ino 1 data v' := by
  have ha := hf.addressable
  have hs := ha.sound
  obtain ⟨hmode, htype⟩ := mode_file a
  unfold createFile
  refine (createNode_leaves h hf).bind fun node v1 hready => ?_
  obtain ⟨dino, name, ino, raw⟩ := node
  obtain ⟨⟨hkept1, ⟨k, b, i, len, hnode, hlen, hb, hfree⟩, hnew⟩, gen, t, hraw⟩ := hready
  simp only at hkept1 hnode hnew hraw ⊢
  have hsb1 := hkept1.sb
  have hino := hnode.ino_lt hf
  have hback := Ledger.le_withInode L ino
  have hwhole : Raw.Whole v.sb ino (Mode.IFREG ||| a.perms) (newFlags2 v.sb) raw :=
    hraw ▸ Raw.whole_freshRaw hs hmode hino
  have hsize := hs.inodeSize_ge
  have hsize' := hs.inodeSize_le
  have hdata' := length_lt_of_blocks hs hdata
  rw [hwhole.dataForkSize_eq]
  have hstore := @storeData_leaves v1 (L.withInode ino) data ino (v.sb.inodeSize - CORE) hkept1.minds
    (hsb1 ▸ hf) (ho.kept hkept1) hino (by unfold CORE; omega) (by omega) hdata'
  rw [hsb1] at hstore
  have hnames : ∀ p, L.Names v.sb p → (L.withInode ino).Names v.sb p := fun p hp => hp.mono hback
  -- the inode is given back when the data are not stored
  refine Leaves.bind (Q := fun out v2 => ∃ runs tree,
    DataMade (L.withInode ino) v1 ino (v.sb.inodeSize - CORE) data out runs tree v2)
    (leaves_recover (hstore.mono (fun e v2 h2 => ?_) fun _ _ => id)) fun out v2 hout => ?_
  · have hkept2 := hkept1.trans (h2.of_bytes hnames)
    have hun := @unallocIno_leaves v2 L (L.Names v.sb) ino hkept2.minds (hkept2.sb ▸ hf)
      ⟨k, b, i, hkept2.sb ▸ hnode⟩ hnew
    exact (hun.mono (fun _ v3 h3 => hkept2.trans h3) fun _ _ => id).bind fun _ v3 h3 =>
      leaves_throw (hkept2.trans h3)
  obtain ⟨runs, tree, hmade⟩ := hout
  obtain ⟨format, fork, blocks, n⟩ := out
  simp only
  have hkept12 := hmade.kept
  rw [hsb1] at hkept12
  have hkept2 := hkept1.trans (hkept12.of_bytes hnames)
  have hback2 : L ≤ (L.withInode ino).withBlocks (covered (runs ++ tree)) :=
    Ledger.le_trans hback (Ledger.le_withBlocks _ _)
  refine Leaves.bind
    (leaves_liftE (Q := fun raw' v3 => Raw.setDataFork raw format fork = .ok raw' ∧ v3 = v2)
    (fun _ _ => hkept2.mono ha hback2) fun raw' hset => ⟨hset, rfl⟩) fun raw' v3 h3 => ?_
  obtain ⟨hset, rfl⟩ := h3
  have hsb2 := hkept2.sb
  obtain ⟨hcount, hsum⟩ := hmade.counts (hsb1 ▸ hf) (hsb1 ▸ hdata)
  have htells := Raw.saysFile_of_setDataFork hs hwhole (hraw ▸ Raw.flags_freshRaw hs)
    (hraw ▸ Raw.links_freshRaw hs (by norm_num)) hcount
    (hdata'.trans (by norm_num)) (hsum.trans_lt (by norm_num) : blocks < 2 ^ 64) hset
  have htaken := hmade.taken
  rw [hsb1] at htaken
  have hwrite := hmade.write_leaves hf hsb1 hnode hnew hfree htaken.lacks rfl hmode htype htells hkept2
    (.refl _ _)
  refine hwrite.bind fun _ v4 h4 => ?_
  unfold addName
  refine (changeNames_still.mono (fun _ v5 h5 => (h4.still h5).dropped ha) fun _ _ => id).bind
    fun _ v5 h5 => ?_
  exact leaves_pure (h4.still h5)

end

end Volume

end FioXfs
