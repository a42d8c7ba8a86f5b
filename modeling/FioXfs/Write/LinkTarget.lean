import FioXfs.Write.Symlink
set_option autoImplicit false

/-!
# The target of a link

A link's inode is written last, over a block none of the link's own blocks meets, and reads back
with its target.
-/

namespace FioXfs

open FioXfs.Lib FioXfs.Alloc FioXfs.Bmap FioXfs.Dir

namespace Volume

/-! ## The whole link -/

/-- The extents of a link, as they are read: one block each, at consecutive offsets, and none next
to the one before it. -/
structure OneByOne (sb : Superblock) (es : List Extent) : Prop where
  offsets : es.map (·.offset) = List.range es.length
  single : ∀ e ∈ es, e.count = 1
  apart : es.IsChain fun a b => ¬NextTo sb a.block b.block

/-- The inode is a link to `target`, inline or in blocks that lie one by one. -/
def LinksTo (v : Volume) (ino : Nat) (target : Bytes) : Prop :=
  ∃ i, v.inode ino = .ok i ∧ v.symlinkTarget i = .ok target ∧
    (i.format = .local_ ∨
      i.format = .extents ∧ ∃ es, v.extents i false = .ok es ∧ OneByOne v.sb es)

/-- A volume to make links on: its blocks are on the device, its groups in order, and the inodes
that are there are clear of the free space. -/
structure LinkReady (v : Volume) : Prop where
  fits : v.sb.dataBlocks * v.sb.blockSize ≤ v.dev.size
  size_lt : v.dev.size < 2 ^ 64
  groups : v.GroupsOk
  clear : v.InodesClear

section
variable {v v' : Volume} {i : Inode} {ino f : Nat} {raw target : Bytes} {es : List Extent}

/-- The mode of a link. -/
def LINK_MODE : Nat := Mode.IFLNK ||| 0o777

theorem fileType_link (h : i.mode = LINK_MODE) : i.fileType = Mode.IFLNK := by
  unfold Inode.fileType
  rw [h]
  decide

/-- The fork of a link in blocks reads as its extents. -/
theorem extents_eq {r : Bytes} (hpack : ∀ e ∈ es, e.Packable)
    (hsorted : es.Pairwise fun a b => a.stop ≤ b.offset) (hlen : r.length < 2 ^ 64)
    (hformat : i.format = .extents) (hnext : i.nextents = es.length) (hfork : i.dataFork = r.drop CORE)
    (hpart : slice r CORE (packExtents es).length = packExtents es) : v.extents i false = .ok es := by
  have hsplit : r.drop CORE = packExtents es ++ (r.drop CORE).drop (packExtents es).length := by
    have htake : (r.drop CORE).take (packExtents es).length = packExtents es := hpart
    exact ((congrArg (· ++ _) htake).symm.trans (List.take_append_drop _ _)).symm
  have hbound : (packExtents es).length ≤ r.length := by
    rw [← hpart, slice, List.length_take, List.length_drop]
    omega
  rw [length_packExtents] at hbound
  have hmap : v.forkMap i false = .ok (es, []) :=
    forkMap_inline hpack hsorted (by omega) hformat hnext (hfork.trans hsplit)
  unfold extents
  rw [hmap]
  rfl

theorem LinkBlocks.oneByOne {v₀ : Volume} (h : LinkBlocks v₀ v es) : OneByOne v.sb es :=
  ⟨h.offsets, fun e he => (h.single e he).1, h.apart⟩

theorem OneByOne.sorted {sb : Superblock} (h : OneByOne sb es) :
    es.Pairwise fun a b => a.stop ≤ b.offset := by
  have hlt : es.Pairwise fun a b => a.offset < b.offset := by
    have hrange : (es.map (·.offset)).Pairwise (· < ·) := h.offsets ▸ List.pairwise_lt_range
    exact List.pairwise_map.mp hrange
  refine hlt.imp_of_mem fun {a b} ha _ hab => ?_
  unfold Extent.stop
  rw [h.single a ha]
  exact hab

/-- A link in blocks before its inode is written: the inode's bytes, and the parts in blocks that
do not meet the inode's. -/
structure RemoteLaid (v : Volume) (ino f : Nat) (target raw : Bytes) (es : List Extent) : Prop where
  laid : Raw.Laid v.sb ino LINK_MODE f .extents es.length (packExtents es) raw
  blocks : OneByOne v.sb es
  written : ∀ e ∈ es, e.unwritten = false
  packable : ∀ e ∈ es, e.Packable
  enough : target.length ≤ es.length * (v.sb.blockSize - SYMLINK_HDR)
  parts : PartsAt v.dev v.sb ino target 0 es
  clear : ∀ e ∈ es, byteOf v.sb e.block + v.sb.blockSize ≤ inodeBlock v.sb ino * v.sb.blockSize ∨
    inodeBlock v.sb ino * v.sb.blockSize + v.sb.blockSize ≤ byteOf v.sb e.block

/-- The blocks are taken and written, and the extents put in the inode. -/
theorem remoteSymlink_eq_ok {path raw' : Bytes} (hs : v.sb.Sound) (hcount : v.sb.agCount < 2 ^ 32)
    (hper : v.sb.inodesPerBlock ≤ 64) (hfit : NumbersFit v.sb)
    (hbytes : v.sb.dataBlocks * v.sb.blockSize < 2 ^ 64) (hok : v.GroupsOk) (hheld : v.InoHeld ino)
    (hraw : Raw.Whole v.sb ino LINK_MODE f raw)
    (h : remoteSymlink path ino raw target v = .ok raw' v') :
    v'.sb = v.sb ∧ v'.dev.size = v.dev.size ∧ ∃ es, v'.RemoteLaid ino f target raw' es := by
  unfold remoteSymlink at h
  simp only [get_bind_apply] at h
  obtain ⟨⟨es, all⟩, v1, h1, h2⟩ := bind_eq_ok.mp h
  cases all with
  | false =>
    obtain ⟨_, v2, -, h3⟩ := bind_eq_ok.mp h2
    obtain ⟨_, v3, -, h4⟩ := bind_eq_ok.mp h3
    cases h4
  | true =>
    have hnil : LinkBlocks v v [] := ⟨rfl, nofun, nofun, List.nodup_nil, .nil⟩
    obtain ⟨hkeep, hblocks, hlen⟩ := symlinkExtents_eq_ok hs hcount (.refl v) hok hnil rfl h1
    have hok1 := hkeep.groups hok
    simp only [Bool.not_true, Bool.false_eq_true, if_false] at h2
    obtain ⟨_, v2, h3, h4⟩ := bind_eq_ok.mp h2
    obtain ⟨r1, v3, h5, h6⟩ := bind_eq_ok.mp h4
    obtain ⟨hset, rfl⟩ := liftE_eq_ok.mp h5
    obtain ⟨rfl, rfl⟩ := EStateM.Result.ok.inj h6
    have hsb1 := hkeep.sb
    obtain ⟨hpair, hclear⟩ :=
      hblocks.bytesApart (hsb1 ▸ hs) (hsb1 ▸ hcount) (hsb1 ▸ hbytes) hok1 hkeep
    rw [← hsb1] at h3
    obtain ⟨dev, rfl, hsize, hparts, -⟩ := writeSymlink_eq_ok (hsb1 ▸ hs) hpair h3
    obtain ⟨-, -, -, hfork⟩ := Raw.setDataFork_eq_ok hs hraw hset
    have hinode := hs.inodeSize_le
    rw [length_packExtents] at hfork
    obtain ⟨hlaid, -⟩ := @Raw.laid_of_setDataFork _ _ _ _ es.length _ _ _ _ hs hraw (by omega) hset
    have hpack := hblocks.packable (hsb1 ▸ hs) (hsb1 ▸ hcount) (hsb1 ▸ hfit) hok1 (by omega)
    obtain ⟨k, hk, agino, hino, hown⟩ := hheld
    have hplace := (inodeBlock_eq hs hper hfit hk (hown.lt hok hk).1).2
    refine ⟨hsb1, hsize.trans hkeep.size, es, ?_⟩
    exact
      { laid := by
          change Raw.Laid v1.sb _ _ _ _ _ _ _
          rw [hsb1]
          exact hlaid.put64 hs (.inr rfl)
        blocks := hblocks.oneByOne
        written := fun e he => (hblocks.single e he).2
        packable := hpack
        enough := by
          change _ ≤ _ * (v1.sb.blockSize - _)
          have hbs := hs.blockSize_ge
          rw [hlen, hsb1, List.length_nil, Nat.zero_add]
          exact le_divCeil_mul (by unfold SYMLINK_HDR; omega)
        parts := hparts
        clear := fun e he => by
          change byteOf v1.sb _ + v1.sb.blockSize ≤ inodeBlock v1.sb _ * v1.sb.blockSize ∨ _
          have hapart := hclear k (hsb1 ▸ hk) _ hown e he
          rw [hsb1] at hapart ⊢
          rw [hino, hplace]
          exact hapart }

/-! ## Reading it -/

theorem inode_congr (hdev : v'.dev = v.dev) (hsb : v'.sb = v.sb) (ino : Nat) :
    v'.inode ino = v.inode ino := by
  unfold inode
  rw [hdev, hsb]

/-- The target in the inode. -/
theorem symlinkTarget_inline {sb : Superblock} {n : Nat}
    (hlaid : Raw.Laid sb ino LINK_MODE f .local_ n target raw)
    (hp : Raw.ParsedFrom ino LINK_MODE f raw .local_ i) (hsize : be64 raw 56 = target.length)
    (hpos : target ≠ []) (hle : target.length ≤ MAX_LINK) : v.symlinkTarget i = .ok target := by
  have hpos := List.length_pos_iff.mpr hpos
  have htake : i.dataFork.take target.length = target := by
    rw [hp.dataFork_eq]
    exact hlaid.fork_eq
  have hfork : target.length ≤ i.dataFork.length := by
    have hmin := congrArg List.length htake
    rw [List.length_take] at hmin
    omega
  unfold symlinkTarget
  rw [except_throwIf_bind_of_not (not_not.mpr (fileType_link hp.mode_eq))]
  simp only [hp.size_eq, hsize]
  rw [except_throwIf_bind_of_not (by omega), if_pos hp.format_eq, except_throwIf_bind_of_not (by omega),
    htake]
  rfl

/-- The target in its blocks. -/
theorem symlinkTarget_remote (hs : v.sb.Sound) (hv5 : v.sb.isV5 = true) (hino : ino < 2 ^ 64)
    (hextents : v.extents i false = .ok es) (hblocks : OneByOne v.sb es)
    (hwritten : ∀ e ∈ es, e.unwritten = false)
    (henough : target.length ≤ es.length * (v.sb.blockSize - SYMLINK_HDR))
    (hparts : PartsAt v.dev v.sb ino target 0 es)
    (hp : Raw.ParsedFrom ino LINK_MODE f raw .extents i) (hsize : be64 raw 56 = target.length)
    (hpos : target ≠ []) (hle : target.length ≤ MAX_LINK) : v.symlinkTarget i = .ok target := by
  have hpos := List.length_pos_iff.mpr hpos
  have hisize : i.size = target.length := hp.size_eq.trans hsize
  have hread := @symlinkBlocks_eq v 0 target es i hs (by rw [hp.ino_eq]; exact hino)
    (by unfold MAX_LINK at hle; omega) hisize (fun e he => ⟨hblocks.single e he, hwritten e he⟩)
    (by rw [hp.ino_eq]; exact hparts) (by rw [Nat.zero_add]; exact henough)
  rw [List.take_zero] at hread
  unfold symlinkTarget
  rw [except_throwIf_bind_of_not (not_not.mpr (fileType_link hp.mode_eq))]
  simp only [hisize]
  rw [except_throwIf_bind_of_not (by omega), if_neg (by rw [hp.format_eq]; decide), hextents,
    except_ok_bind, if_neg (by simp [hv5]), hread, except_ok_bind,
    except_throwIf_bind_of_not (not_not.mpr rfl)]
  rfl

/-- The inode that is written last is read, and the other blocks are as they were. -/
theorem link_written {format : Format} {n size dino out : Nat} {d name : Bytes} (hs : v.sb.Sound)
    (hv5 : v.sb.isV5 = true) (hlaid : Raw.Laid v.sb ino LINK_MODE f format n d raw)
    (hsize : size < 2 ^ 64)
    (hlin : inodeBlock v.sb ino * v.sb.blockSize % 2 ^ 64 = inodeBlock v.sb ino * v.sb.blockSize)
    (h : (do
      writeRaw ino (Raw.setSize raw size)
      addName dino name ino .symlink
      return ino : Act Volume Nat) v = .ok out v') :
    out = ino ∧ v'.sb = v.sb ∧ ∃ i r, v'.inode ino = .ok i ∧
      Raw.ParsedFrom ino LINK_MODE f r format i ∧
      Raw.Laid v.sb ino LINK_MODE f format n d r ∧ be64 r 56 = size ∧
      ∀ o, o + v.sb.blockSize ≤ inodeBlock v.sb ino * v.sb.blockSize ∨
        inodeBlock v.sb ino * v.sb.blockSize + v.sb.blockSize ≤ o →
        v'.dev.readAt o v.sb.blockSize = v.dev.readAt o v.sb.blockSize := by
  have hnew : Raw.Laid v.sb ino LINK_MODE f format n d (Raw.setSize raw size) := hlaid.put64 hs (.inl rfl)
  have hroom := hlaid.whole.length_eq
  have hinode := hs.inodeSize_ge
  obtain ⟨_, v1, h1, h2⟩ := bind_eq_ok.mp h
  obtain ⟨_, v2, h3, h4⟩ := bind_eq_ok.mp h2
  obtain ⟨rfl, rfl⟩ := EStateM.Result.ok.inj h4
  obtain ⟨dev, rest, rfl, -, hread, hother⟩ := inode_writeRaw hs hnew.whole.length_eq h1
  obtain ⟨hdev, hsb⟩ := addName_eq_ok h3
  obtain ⟨i, hparse, hp⟩ := @Raw.parse_stamped v.sb ino LINK_MODE f _ rest format hs hv5 hnew.whole
    hnew.format_eq
  refine ⟨rfl, hsb, i, _, ?_, hp, hnew, getBe_putBe_same (by omega) (hsize.trans_eq (by norm_num)),
    fun o ho => ?_⟩
  · rw [inode_congr hdev hsb, hread, hparse]
  · rw [hdev]
    rw [hlin] at hother
    exact hother o _ ho

/-- What `symlink` makes reads back. -/
theorem linksTo_of_symlink {path : Bytes} (hs : v.sb.Sound) (hcount : v.sb.agCount < 2 ^ 32)
    (hw : v.sb.checkWritable = .ok ()) (hfit : NumbersFit v.sb) (hready : v.LinkReady)
    (h : symlink path target v = .ok ino v') : v'.LinksTo ino target := by
  obtain ⟨hv5, -, hper⟩ := Superblock.checkWritable_ok hw
  have hbytes := lt_of_le_of_lt hready.fits hready.size_lt
  unfold symlink at h
  obtain ⟨hlen, h1⟩ := act_throwIf_bind_eq_ok.mp h
  obtain ⟨hpos, hle⟩ := not_or.mp hlen
  have hle : target.length ≤ MAX_LINK := by unfold MAX_TARGET at hle; unfold MAX_LINK; omega
  obtain ⟨⟨dino, name, ino1, raw1⟩, v1, h2, h3⟩ := bind_eq_ok.mp h1
  obtain ⟨hkeep1, hheld, gen, t, hraw⟩ :=
    createNode_eq_ok ⟨hs, hper, hfit.agino_le, hready.groups, hready.clear⟩ h2
  have hok1 := hkeep1.groups hready.groups
  have hsb1 := hkeep1.sb
  simp only at hheld hraw h3
  -- where the inode is
  obtain ⟨hino, hlin, hown⟩ : ino1 < 2 ^ 64 ∧
      inodeBlock v.sb ino1 * v.sb.blockSize % 2 ^ 64 = inodeBlock v.sb ino1 * v.sb.blockSize ∧
      v1.InoHeld ino1 := by
    obtain ⟨k, hk, agino, heq, hblock⟩ := id hheld
    have hlt := hblock.lt hok1 hk
    rw [hsb1] at hk heq hlt
    obtain ⟨hino, hplace⟩ := inodeBlock_eq hs hper hfit hk hlt.1
    rw [← heq] at hino hplace
    refine ⟨hino, Nat.mod_eq_of_lt (lt_of_le_of_lt (Nat.mul_le_mul_right _ ?_) hbytes), hheld⟩
    rw [hplace]
    exact hlt.2.le
  have hwhole : Raw.Whole v.sb ino1 LINK_MODE (newFlags2 v.sb) raw1 := by
    rw [hraw]
    exact Raw.whole_freshRaw hs (by decide) hino
  have hlt64 : target.length < 2 ^ 64 := by unfold MAX_LINK at hle; omega
  by_cases hinline : target.length ≤ Raw.dataForkSize raw1
  · rw [if_pos hinline] at h3
    obtain ⟨r, v2, h4, h5⟩ := bind_eq_ok.mp h3
    obtain ⟨hset, rfl⟩ := liftE_eq_ok.mp h4
    obtain ⟨hlaid, -⟩ := @Raw.laid_of_setDataFork _ _ _ _ 0 _ _ _ _ hs hwhole (by norm_num) hset
    rw [← hsb1] at hs hv5 hlaid hlin
    obtain ⟨rfl, hsb, i, r', hinode, hp, hlaid', hsize, -⟩ :=
      link_written hs hv5 hlaid hlt64 hlin h5
    exact ⟨i, hinode, symlinkTarget_inline hlaid' hp hsize hpos hle, .inl hp.format_eq⟩
  · rw [if_neg hinline] at h3
    obtain ⟨r, v2, h4, h5⟩ := bind_eq_ok.mp h3
    rw [← hsb1] at hs hcount hper hfit hbytes hwhole hv5 hlin
    obtain ⟨hsb2, -, es, hremote⟩ :=
      remoteSymlink_eq_ok hs hcount hper hfit hbytes hok1 hheld hwhole h4
    rw [← hsb2] at hs hv5 hlin
    obtain ⟨rfl, hsb, i, r', hinode, hp, hlaid', hsize, hother⟩ :=
      link_written hs hv5 hremote.laid hlt64 hlin h5
    have hparts : PartsAt v'.dev v2.sb ino target 0 es :=
      hremote.parts.frame fun e he => hother _ (hremote.clear e he)
    have hlen : r'.length < 2 ^ 64 := by
      have hle := hs.inodeSize_le
      rw [hlaid'.whole.length_eq]
      omega
    have hextents : v'.extents i false = .ok es := extents_eq hremote.packable hremote.blocks.sorted
      hlen hp.format_eq (hp.nextents_eq.trans hlaid'.nextents_eq) hp.dataFork_eq hlaid'.fork_eq
    rw [← hsb] at hs hv5 hparts
    have hblocks : OneByOne v'.sb es := by
      rw [hsb]
      exact hremote.blocks
    exact ⟨i, hinode, symlinkTarget_remote hs hv5 hino hextents hblocks hremote.written
      (by rw [hsb]; exact hremote.enough) hparts hp hsize hpos hle,
      .inr ⟨hp.format_eq, es, hextents, hblocks⟩⟩

end

end Volume

end FioXfs
