import FioXfs.Bmap.ReadBack
import FioXfs.Write.Held
set_option autoImplicit false

/-!
# Symbolic links, written and read back

A target that fits goes into its inode.  A longer one goes into blocks that are taken one by
one, none next to the one before it, so that the reader, which expects one header for each
mapped extent, finds one in each block.
-/

namespace FioXfs

open FioXfs.Lib FioXfs.Alloc FioXfs.Bmap FioXfs.Dir

namespace Volume

/-! ## One block at a time -/

/-- Block `y` directly follows block `x` in one AG. -/
def NextTo (sb : Superblock) (x y : Nat) : Prop :=
  (sb.fsbToAgb y).1 = (sb.fsbToAgb x).1 ∧ (sb.fsbToAgb y).2 = (sb.fsbToAgb x).2 + 1

/-- The extents of a link whose blocks were taken since `v₀`: one block each, at consecutive
offsets, no block twice, and none next to the one before it. -/
structure LinkBlocks (v₀ v : Volume) (es : List Extent) : Prop where
  offsets : es.map (·.offset) = List.range es.length
  single : ∀ e ∈ es, e.count = 1 ∧ e.unwritten = false
  placed : ∀ e ∈ es, ∃ k < v.sb.agCount, ∃ b, e.block = v.sb.agbToFsb k b ∧ v.BlockHeld k b ∧ ¬v₀.BlockHeld k b
  nodup : (es.map (·.block)).Nodup
  apart : es.IsChain fun a b => ¬NextTo v.sb a.block b.block

section
variable {v₀ v v' : Volume} {ag ag' : Ag} {ino i agno not : Nat} {prev : Option Nat}
  {agnos : List Nat}

theorem allocBlockExcept_none (h : allocBlockExcept not ag = .ok none ag') : ag' = ag := by
  unfold allocBlockExcept at h
  simp only [get_bind_apply] at h
  split at h
  · exact (EStateM.Result.ok.inj h).2.symm
  · cases hb : ag.free.entries.findSome? (blockExcept not) with
    | none =>
      simp only [hb] at h
      exact (EStateM.Result.ok.inj h).2.symm
    | some b =>
      simp only [hb] at h
      obtain ⟨_, _, -, hret⟩ := bind_eq_ok.mp h
      cases (EStateM.Result.ok.inj hret).1

theorem keeps_rmapExtent {fsb len owner offset k b : Nat} (hat : v.sb.fsbToAgb fsb = (k, b))
    (hag : v.ag? k = some ag) (h : rmapExtent fsb len owner offset v = .ok () v') : Keeps v v' := by
  unfold rmapExtent at h
  simp only [get_bind_apply, hat] at h
  obtain ⟨ag', hrun, rfl⟩ := (onAg_eq_ok hag).mp h
  unfold rmapAdd at hrun
  split at hrun
  · obtain ⟨-, rfl⟩ := EStateM.Result.ok.inj hrun
    exact keeps_putAg_same hag rfl rfl rfl
  · obtain ⟨-, rfl⟩ := EStateM.Result.ok.inj hrun
    exact keeps_putAg_same hag rfl rfl rfl

/-- The block for a part was free, is held, and is not next to the one before. -/
theorem symlinkBlock_eq_ok (hs : v.sb.Sound) (hcount : v.sb.agCount < 2 ^ 32) {fsb : Nat}
    (hlt : ∀ k ∈ agnos, k < v.sb.agCount) (hok : v.GroupsOk)
    (h : symlinkBlock ino i prev agnos v = .ok (some fsb) v') : Keeps v v' ∧
      ∃ k < v.sb.agCount, ∃ b, fsb = v.sb.agbToFsb k b ∧ v'.BlockHeld k b ∧ ¬v.BlockHeld k b ∧
        ∀ p, prev = some p → ¬NextTo v.sb p fsb := by
  induction agnos generalizing v with
  | nil => cases (EStateM.Result.ok.inj h).1
  | cons a agnos ih =>
    have ha := hlt a List.mem_cons_self
    unfold symlinkBlock at h
    obtain ⟨_, v1, h1, h2⟩ := bind_eq_ok.mp h
    obtain ⟨hkeep1, ag, hag⟩ := keeps_loadAg h1
    have hok1 := hkeep1.groups hok
    simp only [get_bind_apply] at h2
    obtain ⟨found, v2, h3, h4⟩ := bind_eq_ok.mp h2
    obtain ⟨ag2, hrun, rfl⟩ := (onAg_eq_ok hag).mp h3
    cases found with
    | none =>
      obtain rfl := allocBlockExcept_none hrun
      have hkeep2 := hkeep1.trans (keeps_putAg_same hag rfl rfl rfl)
      obtain ⟨hkeep, k, hk, b, hfsb, hheld, hnot, hnext⟩ := @ih (v1.putAg a ag2) (hkeep2.sb ▸ hs)
        (hkeep2.sb ▸ hcount) (hkeep2.sb ▸ fun j hj => hlt j (List.mem_cons_of_mem _ hj))
        (hkeep2.groups hok) h4
      rw [hkeep2.sb] at hk hfsb hnext
      exact ⟨hkeep2.trans hkeep, k, hk, b, hfsb, hheld, fun hv => hnot (hkeep2.held _ _ hv), hnext⟩
    | some b =>
      have hgroup := hok1 a (hkeep1.sb ▸ ha) ag hag
      obtain ⟨hal, hne⟩ := allocBlockExcept_ok hgroup.space.freeOk hrun
      obtain ⟨hkeep2, hheld⟩ := keeps_allocated hok1 (hkeep1.sb ▸ ha) hag hal
      obtain ⟨hheld2, hnot⟩ := hheld b (Nat.le_refl _) (Nat.lt_succ_self _)
      have hkeep := hkeep1.trans hkeep2
      have hblt := (hheld2.lt (hkeep.groups hok) (hkeep.sb ▸ ha)).1
      rw [hkeep.sb] at hblt
      have hagb : v.sb.fsbToAgb (v.sb.agbToFsb a b) = (a, b) :=
        hs.fsbToAgb_agbToFsb (ha.trans hcount) (hblt.trans_le hs.agBlocks_le)
      simp only at h4
      rw [hkeep1.sb] at h4
      obtain ⟨_, v3, h5, h6⟩ := bind_eq_ok.mp h4
      have hkeep3 := @keeps_rmapExtent (v1.putAg a ag2) _ ag2 _ _ _ _ a b
        (by rw [hkeep.sb]; exact hagb) (ag?_putAg_self hag) h5
      obtain ⟨hsome, rfl⟩ := EStateM.Result.ok.inj h6
      obtain rfl := Option.some.inj hsome
      refine ⟨hkeep.trans hkeep3, a, ha, b, rfl, hkeep3.held _ _ hheld2,
        fun hv => hnot (hkeep1.held _ _ hv), fun p hp hnext => ?_⟩
      -- the block after `p` is the one that was left out
      obtain ⟨hsame, hsucc⟩ := hnext
      rw [hagb] at hsame hsucc
      refine hne ?_
      rw [hp, Option.map_some, hkeep1.sb]
      change _ = if (v.sb.fsbToAgb p).1 = a then _ else _
      rw [if_pos hsame.symm]
      exact hsucc

/-- The blocks for all parts. -/
theorem symlinkExtents_eq_ok {count : Nat} {taken es : List Extent} (hs : v.sb.Sound)
    (hcount : v.sb.agCount < 2 ^ 32) (hkeep₀ : Keeps v₀ v) (hok : v.GroupsOk)
    (htaken : LinkBlocks v₀ v taken) (hi : i = taken.length)
    (h : symlinkExtents ino agno i taken count v = .ok (es, true) v') :
    Keeps v v' ∧ LinkBlocks v₀ v' es ∧ es.length = taken.length + count := by
  induction count generalizing v i taken with
  | zero =>
    obtain ⟨hes, rfl⟩ := EStateM.Result.ok.inj h
    obtain ⟨rfl, -⟩ := Prod.mk.inj hes
    exact ⟨.refl _, htaken, rfl⟩
  | succ count ih =>
    unfold symlinkExtents at h
    simp only [get_bind_apply] at h
    obtain ⟨agnos, v1, h1, h2⟩ := bind_eq_ok.mp h
    obtain ⟨horder, rfl⟩ := liftE_eq_ok.mp h1
    obtain ⟨found, v2, h3, h4⟩ := bind_eq_ok.mp h2
    cases found with
    | none => cases (Prod.mk.inj (EStateM.Result.ok.inj h4).1).2
    | some fsb =>
      obtain ⟨hkeep, k, hk, b, hfsb, hheld, hnot, hnext⟩ := symlinkBlock_eq_ok hs hcount
        (fun k hk => mem_agOrder hs.agCount_pos horder hk) hok h3
      have hok2 := hkeep.groups hok
      have htaken2 : LinkBlocks v₀ v2 (taken ++ [⟨i, fsb, 1, false⟩]) := by
        refine ⟨?_, fun e he => ?_, fun e he => ?_, ?_, ?_⟩
        · rw [List.map_append, htaken.offsets, List.length_append, List.length_singleton,
            List.range_succ, hi]
          rfl
        · rcases List.mem_append.mp he with he | he
          · exact htaken.single e he
          · obtain rfl := List.mem_singleton.mp he
            exact ⟨rfl, rfl⟩
        · rw [hkeep.sb]
          rcases List.mem_append.mp he with he | he
          · obtain ⟨j, hj, c, hblock, hheld', hnot'⟩ := htaken.placed e he
            exact ⟨j, hj, c, hblock, hkeep.held _ _ hheld', hnot'⟩
          · obtain rfl := List.mem_singleton.mp he
            exact ⟨k, hk, b, hfsb, hheld, fun hv => hnot (hkeep₀.held _ _ hv)⟩
        · -- a block taken before is held
          rw [List.map_append, List.nodup_append]
          refine ⟨htaken.nodup, List.nodup_singleton _, ?_⟩
          rintro x hx y hy rfl
          obtain rfl := List.mem_singleton.mp hy
          obtain ⟨e, he, hex⟩ := List.mem_map.mp hx
          obtain ⟨j, hj, c, hblock, hheld', -⟩ := htaken.placed e he
          have hjlt := hheld'.lt hok hj
          have hklt := hheld.lt hok2 (hkeep.sb ▸ hk)
          rw [hkeep.sb] at hklt
          have hsame := congrArg v.sb.fsbToAgb (hblock.symm.trans (hex.trans hfsb))
          rw [hs.fsbToAgb_agbToFsb (hj.trans hcount) (hjlt.1.trans_le hs.agBlocks_le),
            hs.fsbToAgb_agbToFsb (hk.trans hcount) (hklt.1.trans_le hs.agBlocks_le)] at hsame
          obtain ⟨rfl, rfl⟩ := Prod.mk.inj hsame
          exact hnot hheld'
        · rw [hkeep.sb, List.isChain_append]
          refine ⟨htaken.apart, List.isChain_singleton _, fun x hx y hy => ?_⟩
          obtain rfl := Option.some.inj hy
          exact hnext x.block (by rw [Option.mem_def.mp hx]; rfl)
      obtain ⟨hkeep', hblocks, hlen⟩ := ih (hkeep.sb ▸ hs) (hkeep.sb ▸ hcount) (hkeep₀.trans hkeep)
        hok2 htaken2 (by rw [List.length_append, hi]; rfl) h4
      refine ⟨hkeep.trans hkeep', hblocks, ?_⟩
      rw [hlen, List.length_append, List.length_singleton]
      omega

end

/-! ## The blocks on the device -/

/-- The device has the part of `target` from byte `off` on in the first extent's block, the next
part in the next one's, and so on. -/
def PartsAt (dev : Device) (sb : Superblock) (ino : Nat) (target : Bytes) : Nat → List Extent → Prop
  | _, [] => True
  | off, e :: es =>
      (∃ at_, BlockAt dev sb e.block
        (symlinkBuf sb ino off at_ (slice target off (sb.blockSize - SYMLINK_HDR)))) ∧
      PartsAt dev sb ino target (off + (sb.blockSize - SYMLINK_HDR)) es

/-- Two blocks share no byte. -/
def BytesApart (sb : Superblock) (x y : Nat) : Prop :=
  byteOf sb x + sb.blockSize ≤ byteOf sb y ∨ byteOf sb y + sb.blockSize ≤ byteOf sb x

section
variable {v v' : Volume} {sb : Superblock} {dev dev' : Device} {ino off at_ : Nat}
  {target part : Bytes} {e : Extent} {es : List Extent}

/-- A block's fields, in the order they are written. -/
def linkFields (sb : Superblock) (ino off at_ : Nat) (part : Bytes) : List (Nat × Bytes) :=
  [(0, toBe 4 SYMLINK_MAGIC), (4, toBe 4 off), (8, toBe 4 part.length), (16, sb.metaUuid),
    (32, toBe 8 ino), (40, toBe 8 (at_ / 512)), (SYMLINK_HDR, part)]

theorem symlinkBuf_eq_patch : symlinkBuf sb ino off at_ part =
    Crc.stamp (patch (List.replicate sb.blockSize 0) (linkFields sb ino off at_ part)) 12 := rfl

theorem fits_linkFields (hs : sb.Sound) (hpart : SYMLINK_HDR + part.length ≤ sb.blockSize) :
    Fits (List.replicate sb.blockSize (0 : UInt8)).length (linkFields sb ino off at_ part) := by
  have hbs := hs.blockSize_ge
  have huuid := hs.metaUuid_len
  unfold SYMLINK_HDR at hpart
  intro p hp
  rw [List.length_replicate]
  simp only [linkFields, List.mem_cons, List.not_mem_nil, or_false] at hp
  rcases hp with rfl | rfl | rfl | rfl | rfl | rfl | rfl <;>
    simp only [length_toBe, SYMLINK_HDR] <;> omega

/-- What the reader looks at in a block, as the writer has put it there. -/
structure LinkBuf (sb : Superblock) (ino off : Nat) (part buf : Bytes) : Prop where
  length_eq : buf.length = sb.blockSize
  magic : be32 buf 0 = SYMLINK_MAGIC
  verified : Crc.verify buf 12 = true
  owner : be64 buf 32 = ino
  offset : be32 buf 4 = off
  bytes : be32 buf 8 = part.length
  part_eq : slice buf SYMLINK_HDR part.length = part

theorem linkBuf_symlinkBuf (hs : sb.Sound) (hino : ino < 2 ^ 64) (hoff : off < 2 ^ 32)
    (hpart : SYMLINK_HDR + part.length ≤ sb.blockSize) :
    LinkBuf sb ino off part (symlinkBuf sb ino off at_ part) := by
  have hbs := hs.blockSize_ge
  have hle := hs.blockSize_le
  have huuid := hs.metaUuid_len
  have hfits := @fits_linkFields sb ino off at_ part hs hpart
  have hlen : (patch (List.replicate sb.blockSize 0) (linkFields sb ino off at_ part)).length =
      sb.blockSize := by
    rw [length_patch hfits, List.length_replicate]
  have hcrc : 12 + 4 ≤ (patch (List.replicate sb.blockSize 0) (linkFields sb ino off at_ part)).length := by
    omega
  have field : ∀ {i w o n : Nat}, (linkFields sb ino off at_ part)[i]? = some (o, toBe w n) →
      n < 256 ^ w → Clear o w ((linkFields sb ino off at_ part).drop (i + 1)) →
      o + w ≤ 12 ∨ 16 ≤ o → getBe w (symlinkBuf sb ino off at_ part) o = n := by
    intro i w o n hi hn hc hat
    rw [symlinkBuf_eq_patch, Crc.getBe_stamp_disjoint hcrc hat]
    exact getBe_patch_get hi hfits hn hc
  exact
    { length_eq := (Crc.length_stamp hcrc).trans hlen
      magic := @field 0 4 0 _ rfl (by decide) (by simp [Clear, linkFields, SYMLINK_HDR]) (by omega)
      verified := Crc.verify_stamp hcrc
      owner := @field 4 8 32 _ rfl (hino.trans_eq (by norm_num))
        (by simp [Clear, linkFields, SYMLINK_HDR]) (by omega)
      offset := @field 1 4 4 _ rfl (hoff.trans_eq (by norm_num))
        (by simp [Clear, linkFields, SYMLINK_HDR]) (by omega)
      bytes := @field 2 4 8 _ rfl (by omega) (by simp [Clear, linkFields, SYMLINK_HDR]) (by omega)
      part_eq := by
        rw [symlinkBuf_eq_patch, Crc.slice_stamp_disjoint hcrc (.inr (by unfold SYMLINK_HDR; omega))]
        exact slice_patch [(0, toBe 4 SYMLINK_MAGIC), (4, toBe 4 off), (8, toBe 4 part.length),
          (16, sb.metaUuid), (32, toBe 8 ino), (40, toBe 8 (at_ / 512))] hfits rfl
          (fun q hq => absurd hq List.not_mem_nil) }

theorem length_symlinkBuf (hs : sb.Sound) (hpart : SYMLINK_HDR + part.length ≤ sb.blockSize) :
    (symlinkBuf sb ino off at_ part).length = sb.blockSize := by
  have hfits := @fits_linkFields sb ino off at_ part hs hpart
  have hbs := hs.blockSize_ge
  rw [symlinkBuf_eq_patch, Crc.length_stamp] <;> rw [length_patch hfits, List.length_replicate]
  omega

theorem length_part_le (hs : sb.Sound) (off : Nat) (target : Bytes) :
    SYMLINK_HDR + (slice target off (sb.blockSize - SYMLINK_HDR)).length ≤ sb.blockSize := by
  have hbs := hs.blockSize_ge
  unfold slice SYMLINK_HDR
  rw [List.length_take]
  omega

/-- What is not written stays. -/
theorem PartsAt.frame (h : PartsAt dev sb ino target off es)
    (hsame : ∀ e ∈ es, dev'.readAt (byteOf sb e.block) sb.blockSize =
      dev.readAt (byteOf sb e.block) sb.blockSize) : PartsAt dev' sb ino target off es := by
  induction es generalizing off with
  | nil => trivial
  | cons e es ih =>
    obtain ⟨⟨at_, a, ha, hread⟩, hrest⟩ := h
    obtain ⟨-, rfl⟩ := inside_of_fsbToByte ha
    exact ⟨⟨at_, _, ha, (hsame e List.mem_cons_self).trans hread⟩,
      ih hrest fun e he => hsame e (List.mem_cons_of_mem _ he)⟩

/-- Writing them, in blocks that share no byte. -/
theorem writeSymlink_eq_ok (hs : v.sb.Sound)
    (hapart : es.Pairwise fun a b => BytesApart v.sb a.block b.block)
    (h : writeSymlink ino (v.sb.blockSize - SYMLINK_HDR) target off es v = .ok () v') :
    ∃ dev, v' = { v with dev := dev } ∧ dev.size = v.dev.size ∧
      PartsAt dev v.sb ino target off es ∧
      ∀ x, (∀ e ∈ es, BytesApart v.sb x e.block) →
        dev.readAt (byteOf v.sb x) v.sb.blockSize = v.dev.readAt (byteOf v.sb x) v.sb.blockSize := by
  induction es generalizing v off with
  | nil =>
    obtain ⟨-, rfl⟩ := EStateM.Result.ok.inj h
    exact ⟨_, rfl, rfl, trivial, fun _ _ => rfl⟩
  | cons e es ih =>
    obtain ⟨hfirst, hrest⟩ := List.pairwise_cons.mp hapart
    unfold writeSymlink at h
    simp only [get_bind_apply] at h
    obtain ⟨a, v1, h1, h2⟩ := bind_eq_ok.mp h
    obtain ⟨ha, rfl⟩ := liftE_eq_ok.mp h1
    obtain ⟨-, rfl⟩ := inside_of_fsbToByte ha
    obtain ⟨_, v2, h3, h4⟩ := bind_eq_ok.mp h2
    obtain ⟨dev, hwrite, rfl⟩ := onDev_eq_ok.mp h3
    -- the length of what is written does not depend on the numbers in it
    have hlen : (symlinkBuf v.sb ino off (byteOf v.sb e.block)
        (slice target off (v.sb.blockSize - SYMLINK_HDR))).length = v.sb.blockSize :=
      length_symlinkBuf hs (length_part_le hs off target)
    obtain ⟨dev', rfl, hsize, hparts, hother⟩ := @ih { v with dev := dev } _ hs hrest h4
    have hsame := Device.readAt_writeAt_same hwrite
    rw [hlen] at hsame
    refine ⟨dev', rfl, hsize.trans (Device.size_writeAt hwrite),
      ⟨⟨_, _, ha, (hother e.block hfirst).trans hsame⟩, hparts⟩, fun x hx => ?_⟩
    rw [hother x fun e' he' => hx e' (List.mem_cons_of_mem _ he')]
    exact Device.readAt_writeAt_disjoint hwrite (by rw [hlen]; exact hx e List.mem_cons_self)

/-! ## Reading them -/

/-- From any part on, the reader gets the rest of the target. -/
theorem symlinkBlocks_eq {i : Inode} (hs : v.sb.Sound) (hino : i.ino < 2 ^ 64)
    (hlong : target.length < 2 ^ 32) (hsize : i.size = target.length)
    (hsingle : ∀ e ∈ es, e.count = 1 ∧ e.unwritten = false)
    (hparts : PartsAt v.dev v.sb i.ino target off es)
    (henough : target.length ≤ off + es.length * (v.sb.blockSize - SYMLINK_HDR)) :
    v.symlinkBlocks i (target.take off) es = .ok target := by
  induction es generalizing off with
  | nil =>
    rw [List.length_nil, Nat.zero_mul, Nat.add_zero] at henough
    rw [symlinkBlocks, List.take_of_length_le henough]
    rfl
  | cons e es ih =>
    obtain ⟨⟨at_, hblock⟩, hrest⟩ := hparts
    obtain ⟨hcount, hwritten⟩ := hsingle e List.mem_cons_self
    unfold symlinkBlocks
    by_cases hdone : i.size ≤ (target.take off).length
    · rw [if_pos hdone]
      rw [hsize, List.length_take] at hdone
      rw [List.take_of_length_le (by omega)]
      rfl
    · rw [if_neg hdone]
      rw [hsize, List.length_take] at hdone
      have htaken : (target.take off).length = off := by rw [List.length_take]; omega
      have hbuf := @linkBuf_symlinkBuf v.sb i.ino off at_ _ hs hino (by omega) (length_part_le hs off target)
      rw [except_throwIf_bind_of_not (by simp [hwritten]), hcount, readBlocks_of_blockAt hs hblock,
        except_ok_bind]
      simp only [hbuf.bytes, hbuf.part_eq]
      have hfits := length_part_le hs off target
      rw [except_throwIf_bind_of_not (by
        rw [hbuf.magic, hbuf.verified, hbuf.owner, hbuf.offset, htaken, hbuf.length_eq]
        simp only [ne_eq, not_true_eq_false, Bool.true_eq_false, false_or, not_lt]
        exact hfits)]
      have hnext : target.take off ++ slice target off (v.sb.blockSize - SYMLINK_HDR) =
          target.take (off + (v.sb.blockSize - SYMLINK_HDR)) := by
        rw [slice, List.take_add]
      rw [hnext]
      exact ih (fun e he => hsingle e (List.mem_cons_of_mem _ he)) hrest
        (by rw [List.length_cons, Nat.succ_mul] at henough; omega)

end

/-! ## Where the blocks are -/

/-- Block numbers fit in the 52 bits an extent's record has for them, and the inode numbers of a
group in 32. -/
structure NumbersFit (sb : Superblock) : Prop where
  block_le : sb.agCount * 2 ^ sb.agblkLog ≤ 2 ^ 52
  agino_le : sb.agBlocks * sb.inodesPerBlock ≤ 2 ^ 32

section
variable {v v' : Volume} {sb : Superblock} {k b k' b' ino agino : Nat}

/-- A block of the data device begins where the blocks before it end. -/
theorem byteOf_agbToFsb (hs : sb.Sound) (hk : k < 2 ^ 32) (hb : b < sb.agBlocks)
    (hlt : (k * sb.agBlocks + b) * sb.blockSize < 2 ^ 64) :
    byteOf sb (sb.agbToFsb k b) = (k * sb.agBlocks + b) * sb.blockSize := by
  have hblt := hb.trans_le hs.agBlocks_le
  rw [hs.agbToFsb_eq hk hblt]
  unfold byteOf agOf agbOf
  rw [Superblock.packed_div hblt, Superblock.packed_mod hblt, Nat.shiftLeft_eq, ← hs.blockSize_eq,
    Nat.mod_eq_of_lt hlt]

/-- Different blocks of the data device share no byte. -/
theorem apart_of_ne (hb : b < sb.agBlocks) (hb' : b' < sb.agBlocks) (hne : ¬(k = k' ∧ b = b')) :
    (k * sb.agBlocks + b) * sb.blockSize + sb.blockSize ≤ (k' * sb.agBlocks + b') * sb.blockSize ∨
      (k' * sb.agBlocks + b') * sb.blockSize + sb.blockSize ≤ (k * sb.agBlocks + b) * sb.blockSize := by
  rw [← Nat.succ_mul, ← Nat.succ_mul]
  rcases Nat.lt_trichotomy (k * sb.agBlocks + b) (k' * sb.agBlocks + b') with hlt | heq | hgt
  · exact .inl (Nat.mul_le_mul_right _ hlt)
  · exact absurd (Superblock.Addressable.linear_injective hb hb' heq) hne
  · exact .inr (Nat.mul_le_mul_right _ hgt)

/-- An inode's number, and its block over all groups. -/
theorem inodeBlock_eq (hs : sb.Sound) (hper : sb.inodesPerBlock ≤ 64) (hfit : NumbersFit sb)
    (hk : k < sb.agCount) (hb : blockOf sb agino < sb.agBlocks) :
    sb.aginoToIno k agino < 2 ^ 64 ∧
      inodeBlock sb (sb.aginoToIno k agino) = k * sb.agBlocks + blockOf sb agino := by
  have hinopb : 2 ^ sb.inopbLog ≤ 64 := hs.inopb_eq ▸ hper
  have hlog : 2 ^ sb.aginoLog = 2 ^ sb.agblkLog * 2 ^ sb.inopbLog := Nat.pow_add _ _ _
  have hlt : agino < 2 ^ sb.aginoLog := by
    have hdiv := (Nat.div_lt_iff_lt_mul (Nat.two_pow_pos _)).mp (hb.trans_le hs.agBlocks_le)
    rw [hlog]
    exact hdiv
  have hend : (k + 1) * 2 ^ sb.aginoLog ≤ 2 ^ 58 :=
    calc (k + 1) * 2 ^ sb.aginoLog = (k + 1) * 2 ^ sb.agblkLog * 2 ^ sb.inopbLog := by
          rw [hlog, Nat.mul_assoc]
      _ ≤ sb.agCount * 2 ^ sb.agblkLog * 2 ^ sb.inopbLog :=
          Nat.mul_le_mul_right _ (Nat.mul_le_mul_right _ hk)
      _ ≤ 2 ^ 52 * 64 := Nat.mul_le_mul hfit.block_le hinopb
      _ = 2 ^ 58 := by norm_num
  rw [Nat.succ_mul] at hend
  have hino : sb.aginoToIno k agino = k * 2 ^ sb.aginoLog + agino := by
    unfold Superblock.aginoToIno
    rw [Nat.shiftLeft_eq, Nat.mod_eq_of_lt (by omega), ← Nat.shiftLeft_eq, shiftLeft_or hlt,
      Nat.shiftLeft_eq]
  rw [hino]
  refine ⟨by omega, ?_⟩
  unfold inodeBlock
  rw [Superblock.packed_div hlt, Superblock.packed_mod hlt]
  rfl

/-- The blocks of a link lie apart, and apart from what was held when they were taken. -/
theorem LinkBlocks.bytesApart {v₀ : Volume} {es : List Extent} (hs : v.sb.Sound)
    (hcount : v.sb.agCount < 2 ^ 32) (hbytes : v.sb.dataBlocks * v.sb.blockSize < 2 ^ 64)
    (hok : v.GroupsOk) (hkeep : Keeps v₀ v) (h : LinkBlocks v₀ v es) :
    es.Pairwise (fun x y => BytesApart v.sb x.block y.block) ∧
      ∀ k < v.sb.agCount, ∀ b, v₀.BlockHeld k b → ∀ e ∈ es,
        byteOf v.sb e.block + v.sb.blockSize ≤ (k * v.sb.agBlocks + b) * v.sb.blockSize ∨
          (k * v.sb.agBlocks + b) * v.sb.blockSize + v.sb.blockSize ≤ byteOf v.sb e.block := by
  have place : ∀ {k b : Nat}, k < v.sb.agCount → v.BlockHeld k b → b < v.sb.agBlocks ∧
      byteOf v.sb (v.sb.agbToFsb k b) = (k * v.sb.agBlocks + b) * v.sb.blockSize := by
    intro k b hk hheld
    obtain ⟨hb, hlin⟩ := hheld.lt hok hk
    exact ⟨hb, byteOf_agbToFsb hs (hk.trans hcount) hb
      (lt_of_le_of_lt (Nat.mul_le_mul_right _ hlin.le) hbytes)⟩
  refine ⟨?_, fun k hk b hheld e he => ?_⟩
  · refine (List.pairwise_map.mp h.nodup).imp_of_mem fun {x y} hx hy hne => ?_
    obtain ⟨k, hk, b, hxb, hheld, -⟩ := h.placed x hx
    obtain ⟨k', hk', b', hyb, hheld', -⟩ := h.placed y hy
    obtain ⟨hb, hplace⟩ := place hk hheld
    obtain ⟨hb', hplace'⟩ := place hk' hheld'
    unfold BytesApart
    rw [hxb, hyb, hplace, hplace']
    refine apart_of_ne hb hb' ?_
    rintro ⟨rfl, rfl⟩
    exact hne (hxb.trans hyb.symm)
  · obtain ⟨k', hk', b', hblock, hheld', hnot⟩ := h.placed e he
    obtain ⟨hb, -⟩ := place hk (hkeep.held _ _ hheld)
    obtain ⟨hb', hplace⟩ := place hk' hheld'
    rw [hblock, hplace]
    refine apart_of_ne hb' hb ?_
    rintro ⟨rfl, rfl⟩
    exact hnot hheld

/-- The extents of a link have a place in their records. -/
theorem LinkBlocks.packable {v₀ : Volume} {es : List Extent} (hs : v.sb.Sound)
    (hcount : v.sb.agCount < 2 ^ 32) (hfit : NumbersFit v.sb) (hok : v.GroupsOk)
    (h : LinkBlocks v₀ v es) (hlen : es.length ≤ 2 ^ 54) : ∀ e ∈ es, e.Packable := by
  intro e he
  obtain ⟨hone, -⟩ := h.single e he
  obtain ⟨k, hk, b, hblock, hheld, -⟩ := h.placed e he
  have hb := (hheld.lt hok hk).1.trans_le hs.agBlocks_le
  have hoff : e.offset ∈ List.range es.length := h.offsets ▸ List.mem_map_of_mem he
  refine ⟨(List.mem_range.mp hoff).trans_le hlen, ?_, by omega, by omega⟩
  rw [hblock, hs.agbToFsb_eq (hk.trans hcount) hb]
  calc k * 2 ^ v.sb.agblkLog + b < (k + 1) * 2 ^ v.sb.agblkLog := by rw [Nat.succ_mul]; omega
    _ ≤ v.sb.agCount * 2 ^ v.sb.agblkLog := Nat.mul_le_mul_right _ hk
    _ ≤ 2 ^ 52 := hfit.block_le

end

end Volume

end FioXfs
