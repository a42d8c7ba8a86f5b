import FioXfs.Alloc.Chunks
import FioXfs.Write.Blocks
set_option autoImplicit false

/-!
# Inodes from any group

`alloc_ino` goes round the AGs from the preferred one and takes a free inode of an existing
chunk or places a new one.  The limit on inodes is looked at inside that loop, at the first
AG without a free inode.
-/

namespace FioXfs

open FioXfs.Lib FioXfs.Alloc

namespace Volume

/-! ## Which groups have an inode to give -/

/-- An inode of the group is free and really there. -/
def HasFree (ag : Ag) : Prop := ∃ e ∈ ag.chunks.entries, 0 < e.2.freeCount

/-- A new chunk can be placed in the group. -/
def CanPlace (sb : Superblock) (ag : Ag) : Prop := ¬NoPlace ag (chunkBlocks sb) (chunkAlign sb)

/-- The chunks added since the last flush. -/
def newChunks (v : Volume) : Nat := (v.w.map (·.newChunks)).getD 0

/-- The group has an inode to give, in a chunk it has or, within the limit, a new one. -/
def Eligible (sb : Superblock) (newChunks : Nat) (ag : Ag) : Prop :=
  HasFree ag ∨ overLimit sb newChunks = false ∧ CanPlace sb ag

/-- The sums and products of the limit fit in 64 bits. -/
def LimitFits (sb : Superblock) (newChunks : Nat) : Prop :=
  0 < sb.imaxPct → sb.dataBlocks * sb.imaxPct < 2 ^ 64 ∧ maxInodes sb < 2 ^ 64 ∧
    sb.icount + (newChunks + 1) * CHUNK_INODES < 2 ^ 64

/-- `ino` is a free inode of group `ag`, AG `k`: one that is there, or one of a new chunk on
blocks that were free. -/
def FreeIn (sb : Superblock) (k : Nat) (ag : Ag) (ino : Nat) : Prop :=
  ∃ agino, ino = sb.aginoToIno k agino ∧ ¬InUse ag.chunks agino ∧
    (HasFree ag → Present ag.chunks agino) ∧
    (¬HasFree ag → ∃ s, (∀ b, s ≤ b → b < s + chunkBlocks sb → 0 < freeAt ag.free b) ∧
      s ≤ blockOf sb agino ∧ blockOf sb agino < s + chunkBlocks sb)

section
variable {sb : Superblock} {nc : Nat}

/-- The limit is refused, passed or not worked out. -/
theorem checkLimit_ok (hfits : LimitFits sb nc) (hover : overLimit sb nc = false) :
    checkLimit sb nc = .ok () := by
  unfold checkLimit
  split
  · rename_i hpos
    obtain ⟨h1, h2, h3⟩ := hfits hpos
    rw [except_throwIf_bind_of_not (by omega), except_throwIf_bind_of_not (by omega)]
    exact except_throwIf_of_not (by simp [hover])
  · rfl

theorem checkLimit_over (hfits : LimitFits sb nc) (hover : overLimit sb nc = true) :
    checkLimit sb nc = .error (.noSpace s!"inodes may take {sb.imaxPct}% of the space") := by
  have hpos : 0 < sb.imaxPct := (of_decide_eq_true hover).1
  obtain ⟨h1, h2, h3⟩ := hfits hpos
  unfold checkLimit
  rw [if_pos hpos, except_throwIf_bind_of_not (by omega), except_throwIf_bind_of_not (by omega)]
  exact except_throwIf_eq_error.mpr ⟨hover, rfl⟩

theorem checkLimit_panics (hfits : ¬LimitFits sb nc) : ∃ what, checkLimit sb nc = .error (.panic what) := by
  unfold LimitFits at hfits
  rw [Classical.not_imp] at hfits
  obtain ⟨hpos, hnot⟩ := hfits
  unfold checkLimit
  rw [if_pos hpos]
  by_cases hmul : 2 ^ 64 ≤ sb.dataBlocks * sb.imaxPct ∨ 2 ^ 64 ≤ maxInodes sb ∨
      2 ^ 64 ≤ (nc + 1) * CHUNK_INODES
  · exact ⟨_, except_bind_eq_error.mpr (Or.inl (except_throwIf_eq_error.mpr ⟨hmul, rfl⟩))⟩
  · rw [except_throwIf_bind_of_not hmul]
    exact ⟨_, except_bind_eq_error.mpr (Or.inl (except_throwIf_eq_error.mpr ⟨by omega, rfl⟩))⟩

end

/-! ## Making the chunk's inodes -/

section
variable {v v' : Volume} {k : Nat}

@[simp] theorem newChunks_putAg {ag : Ag} : (v.putAg k ag).newChunks = v.newChunks := by
  unfold newChunks putAg
  cases v.w <;> rfl

theorem newChunks_loadAg (h : loadAg k v = .ok () v') : v'.newChunks = v.newChunks := by
  unfold loadAg at h
  obtain ⟨_, v1, h1, h⟩ := bind_eq_ok.mp h
  have hwriter : v1.newChunks = v.newChunks := by
    cases hw : v.w with
    | some w =>
        rw [writer_of_isSome (by simp [hw])] at h1
        cases h1
        rfl
    | none =>
        unfold writer at h1
        simp only [get_bind_apply, hw, Option.isNone_none, if_true] at h1
        obtain ⟨_, v2, -, h1⟩ := bind_eq_ok.mp h1
        obtain ⟨-, h1⟩ := act_throwIf_bind_eq_ok.mp h1
        obtain ⟨t, v3, -, h1⟩ := bind_eq_ok.mp h1
        cases h1
        simp [newChunks, hw, Writer.new]
  obtain ⟨w, hw⟩ := Option.isSome_iff_exists.mp (writer_eq_ok h1).2.2.1
  rw [bind_of_ok (getWriter_apply hw)] at h
  rw [← hwriter]
  cases hget : w.ags.get? k with
  | some ag =>
      simp only [hget, Option.isNone_some, Bool.false_eq_true, if_false] at h
      cases h
      rfl
  | none =>
      simp only [hget, Option.isNone_none, if_true, get_bind_apply] at h
      obtain ⟨ag, v2, h2, h⟩ := bind_eq_ok.mp h
      obtain ⟨-, rfl⟩ := liftE_eq_ok.mp h2
      cases h
      exact newChunks_putAg

theorem length_freeRaw {sb : Superblock} (hs : sb.Sound) (ino gen : Nat) :
    (freeRaw sb ino gen).length = sb.inodeSize := by
  have h1 := hs.inodeSize_ge
  have h2 := hs.metaUuid_len
  have hput : ∀ {w o v : Nat} {r : Bytes}, r.length = sb.inodeSize → o + w ≤ 256 →
      (putBe w r o v).length = sb.inodeSize := fun hr ho => by rw [length_putBe (by omega), hr]
  have hfields := hput (v := ino) (o := 152) (w := 8) (hput (v := NULL_AGINO) (o := 96) (w := 4)
    (hput (v := gen) (o := 92) (w := 4) (hput (v := 3) (o := 4) (w := 1) (hput (v := Inode.MAGIC) (o := 0)
      (w := 2) (List.length_replicate (n := sb.inodeSize) (a := 0)) (by omega)) (by omega)) (by omega))
        (by omega)) (by omega)
  have hfits : 160 + sb.metaUuid.length ≤ (put64 (put32 (put32 (putBe 1 (put16
      (List.replicate sb.inodeSize 0) 0 Inode.MAGIC) 4 3) 92 gen) 96 NULL_AGINO) 152 ino).length :=
    hfields.symm ▸ (by omega)
  unfold freeRaw INODE_CRC
  rw [Crc.length_stamp, length_splice hfits]
  · exact hfields
  · rw [length_splice hfits]
    omega

/-- The generation numbers are all that making inodes changes. -/
theorem freeInodes_ok {sb : Superblock} (hs : sb.Sound) : ∀ {count ino : Nat} {v : Volume},
    v.w.isSome → ∃ buf v', freeInodes sb ino count v = .ok buf v' ∧
      buf.length = count * sb.inodeSize ∧ v'.dev = v.dev := by
  intro count
  induction count with
  | zero => exact fun {ino v} _ => ⟨[], v, rfl, by simp, rfl⟩
  | succ count ih =>
      intro ino v hw
      obtain ⟨w, hw⟩ := Option.isSome_iff_exists.mp hw
      have hgen : nextGen v = .ok w.nextGen.1 { v with w := some w.nextGen.2 } := by
        unfold nextGen modifyWriter
        rw [bind_of_ok (getWriter_apply hw), bind_of_ok (modify_apply _ _), hw]
        rfl
      obtain ⟨buf, v', hrun, hlen, hdev⟩ := @ih (ino + 1) { v with w := some w.nextGen.2 } rfl
      unfold freeInodes
      rw [bind_of_ok hgen, bind_of_ok hrun]
      refine ⟨_, v', rfl, ?_, hdev⟩
      rw [List.length_append, length_freeRaw hs, hlen]
      ring

end

/-- The device holds the filesystem, and no write fails. -/
structure DeviceWorks (v : Volume) : Prop where
  faults : v.dev.faults = []
  holds : v.sb.dataBlocks * v.sb.blockSize ≤ v.dev.size
  size_lt : v.dev.size < 2 ^ 64

section
variable {v v' : Volume} {ags : Nat → Ag} {k : Nat}

theorem DeviceWorks.of_same (h : DeviceWorks v) (hdev : v'.dev = v.dev) (hsb : v'.sb = v.sb) :
    DeviceWorks v' :=
  ⟨hdev ▸ h.faults, by rw [hdev, hsb]; exact h.holds, hdev ▸ h.size_lt⟩

/-- The inodes of a chunk inside an AG can be written. -/
theorem initChunk_ok (hs : v.sb.Sound) (hper : v.sb.inodesPerBlock ≤ 64) (hdev : DeviceWorks v)
    (hw : v.w.isSome) {s len : Nat} (hlen : v.sb.agLen k = .ok len)
    (hle : s + chunkBlocks v.sb ≤ len) : ∃ v', initChunk k s v = .ok () v' := by
  obtain ⟨buf, v1, h1, hbuf, hdev1⟩ := @freeInodes_ok v.sb hs CHUNK_INODES
    (v.sb.aginoToIno k ((s <<< v.sb.inopbLog) % 2 ^ 32)) v hw
  have hfill : CHUNK_INODES * v.sb.inodeSize = chunkBlocks v.sb * v.sb.blockSize := by
    rw [← chunkBlocks_mul hs hper, ← hs.inode_fill, hs.inopb_eq]
    ring
  obtain ⟨-, hend⟩ := Superblock.agLen_le hlen
  have hfit : (k * v.sb.agBlocks + s) * v.sb.blockSize + buf.length ≤ v.dev.size := by
    rw [hbuf, hfill, ← Nat.add_mul]
    exact (Nat.mul_le_mul_right _ (by omega)).trans hdev.holds
  have hat : v.sb.agbToByte k s = (k * v.sb.agBlocks + s) * v.sb.blockSize := by
    unfold Superblock.agbToByte
    rw [Nat.shiftLeft_eq, ← hs.blockSize_eq]
    refine Nat.mod_eq_of_lt ?_
    have := hdev.size_lt
    omega
  have hwrite : ∃ dev, Device.writeAt (v.sb.agbToByte k s) buf v1.dev = .ok () dev := by
    unfold Device.writeAt Device.nextFault
    rw [hdev1, if_pos (by rw [hat]; exact hfit), hdev.faults]
    exact ⟨_, rfl⟩
  obtain ⟨dev, hwrite⟩ := hwrite
  unfold initChunk
  simp only [get_bind_apply]
  rw [bind_of_ok h1]
  exact ⟨_, onDev_eq_ok.mpr ⟨dev, hwrite, rfl⟩⟩

/-! ## One group -/

/-- A volume whose inodes are in order: its groups' space and chunks are sound, AG inode
numbers fit their 32 bits, and the device does not fail. -/
structure InodesOk (v : Volume) (ags : Nat → Ag) : Prop where
  groups : v.HasGroups ags
  ok : ∀ k < v.sb.agCount, GroupOk v.sb k (ags k)
  chunks : ∀ k < v.sb.agCount, ChunksSound v.sb (ags k)
  log : v.sb.agblkLog + v.sb.inopbLog < 32
  perBlock : v.sb.inodesPerBlock ≤ 64
  device : DeviceWorks v

/-- The same volume but for what is in memory. -/
structure Reloaded (v v' : Volume) : Prop where
  dev : v'.dev = v.dev
  sb : v'.sb = v.sb
  newChunks : v'.newChunks = v.newChunks

theorem InodesOk.reloaded (h : InodesOk v ags) (hr : Reloaded v v') (hg : v'.HasGroups ags) :
    InodesOk v' ags where
  groups := hg
  ok := by rw [hr.sb]; exact h.ok
  chunks := by rw [hr.sb]; exact h.chunks
  log := by rw [hr.sb]; exact h.log
  perBlock := by rw [hr.sb]; exact h.perBlock
  device := h.device.of_same hr.dev hr.sb

/-- An AG is in memory before it is asked. -/
theorem allocInoFrom_loaded (h : InodesOk v ags) (hk : k < v.sb.agCount) (agnos : List Nat) :
    ∃ v1, Reloaded v v1 ∧ v1.HasGroups ags ∧ v1.ag? k = some (ags k) ∧
      allocInoFrom (k :: agnos) v = (do
        match ← onAg k allocInode with
        | some agino => return v.sb.aginoToIno k agino
        | none => do
            let w ← getWriter
            liftE (checkLimit v.sb w.newChunks)
            match ← onAg k (allocChunk v.sb) with
            | none => allocInoFrom agnos
            | some agbno => do
                match ← onAg k allocInode with
                | none => throw (.panic "a new chunk has free inodes")
                | some agino => do
                    modifyWriter fun w => { w with newChunks := w.newChunks + 1 }
                    initChunk k agbno
                    return v.sb.aginoToIno k agino : Act Volume Nat) v1 := by
  obtain ⟨v1, h1, hb⟩ := h.groups.loaded hk
  have hg := h.groups.became hb
  rw [Function.update_eq_self] at hg
  refine ⟨v1, ⟨hb.dev, hb.sb, newChunks_loadAg h1⟩, hg, hb.ag, ?_⟩
  rw [← hb.sb]
  conv_lhs => unfold allocInoFrom
  exact bind_of_ok h1

/-- An AG with a free inode gives it. -/
theorem allocInoFrom_free (h : InodesOk v ags) (hk : k < v.sb.agCount) (agnos : List Nat)
    (hfree : HasFree (ags k)) : ∃ ino v', allocInoFrom (k :: agnos) v = .ok ino v' ∧
      FreeIn v.sb k (ags k) ino := by
  obtain ⟨v1, -, -, hag, hrun⟩ := allocInoFrom_loaded h hk agnos
  obtain ⟨e, he, hpos⟩ := hfree
  rcases allocInode_eq fun e he => ((h.chunks k hk).sound e he).stop_le with
    ⟨-, hno⟩ | ⟨x, hx, i, hi, hu, halloc⟩
  · exact absurd hpos (hno e he)
  · obtain ⟨hthere, hnot⟩ := usable_free (h.chunks k hk) hx hi hu
    rw [hrun, bind_of_ok ((onAg_eq_ok hag).mpr ⟨_, halloc, rfl⟩)]
    exact ⟨_, _, rfl, x.1 + i, rfl, hnot, fun _ => hthere, fun hno => absurd ⟨e, he, hpos⟩ hno⟩

theorem allocInode_none {ag : Ag} (hfree : ¬HasFree ag) : allocInode ag = .ok none ag := by
  rcases @allocInode_cases ag with ⟨hrun, -⟩ | ⟨e, he, i, hi, hu, -⟩
  · exact hrun
  · exact absurd ⟨e, he, Chunk.freeCount_pos.mpr ⟨i, hi, hu⟩⟩ hfree

/-- An AG without a free inode comes to the limit, and then to placing a chunk. -/
theorem allocInoFrom_full (h : InodesOk v ags) (hk : k < v.sb.agCount) (agnos : List Nat)
    (hfree : ¬HasFree (ags k)) :
    ∃ v1, Reloaded v v1 ∧ v1.HasGroups ags ∧ v1.ag? k = some (ags k) ∧
      allocInoFrom (k :: agnos) v = (do
        liftE (checkLimit v.sb v.newChunks)
        match ← onAg k (allocChunk v.sb) with
        | none => allocInoFrom agnos
        | some agbno => do
            match ← onAg k allocInode with
            | none => throw (.panic "a new chunk has free inodes")
            | some agino => do
                modifyWriter fun w => { w with newChunks := w.newChunks + 1 }
                initChunk k agbno
                return v.sb.aginoToIno k agino : Act Volume Nat) v1 := by
  obtain ⟨v1, hr, hg, hag, hrun⟩ := allocInoFrom_loaded h hk agnos
  have hb := @became_put _ _ (ags k) _ hag
  have hg' := hg.became hb
  rw [Function.update_eq_self] at hg'
  refine ⟨v1.putAg k (ags k), ⟨hr.dev, hr.sb, newChunks_putAg.trans hr.newChunks⟩, hg', hb.ag, ?_⟩
  rw [hrun, bind_of_ok ((onAg_eq_ok hag).mpr ⟨_, allocInode_none hfree, rfl⟩)]
  obtain ⟨w, hw⟩ := Option.isSome_iff_exists.mp (isSome_of_ag? hb.ag)
  have hnc : w.newChunks = v.newChunks := by
    rw [← hr.newChunks, ← @newChunks_putAg v1 k (ags k)]
    simp [newChunks, hw]
  simp only
  rw [bind_of_ok (getWriter_apply hw), hnc]

/-- Where the limit is not passed, the search ends at the first AG without a free inode. -/
theorem allocInoFrom_refused (h : InodesOk v ags) (hk : k < v.sb.agCount) (agnos : List Nat)
    (hfree : ¬HasFree (ags k)) {e : Error} (hlimit : checkLimit v.sb v.newChunks = .error e) :
    ∃ v', allocInoFrom (k :: agnos) v = .error e v' := by
  obtain ⟨v1, -, -, -, hrun⟩ := allocInoFrom_full h hk agnos hfree
  exact ⟨v1, hrun.trans (bind_of_error (liftE_eq_error.mpr ⟨hlimit, rfl⟩))⟩

/-- An AG with neither a free inode nor room for a chunk is passed over. -/
theorem allocInoFrom_next (h : InodesOk v ags) (hs : v.sb.Sound) (hk : k < v.sb.agCount)
    (agnos : List Nat) (hfree : ¬HasFree (ags k)) (hplace : ¬CanPlace v.sb (ags k))
    (hlimit : checkLimit v.sb v.newChunks = .ok ()) : ∃ v1, Reloaded v v1 ∧ InodesOk v1 ags ∧
      allocInoFrom (k :: agnos) v = allocInoFrom agnos v1 := by
  obtain ⟨v1, hr, hg, hag, hrun⟩ := allocInoFrom_full h hk agnos hfree
  have hb := @became_put _ _ (ags k) _ hag
  have hg' := hg.became hb
  rw [Function.update_eq_self] at hg'
  have hr' : Reloaded v (v1.putAg k (ags k)) :=
    ⟨hr.dev, hr.sb, newChunks_putAg.trans hr.newChunks⟩
  refine ⟨v1.putAg k (ags k), hr', h.reloaded hr' hg', ?_⟩
  rw [hrun, bind_of_ok (liftE_eq_ok.mpr ⟨hlimit, rfl⟩)]
  rcases @allocChunk_eq v.sb _ (h.ok k hk).space.freeOk (chunkBlocks_pos hs h.perBlock) with
    ⟨hnone, -⟩ | ⟨-, -, -, -, -, hcan⟩
  · rw [bind_of_ok ((onAg_eq_ok hag).mpr ⟨_, hnone, rfl⟩)]
  · exact absurd hcan hplace

/-- An AG with room for a chunk gives an inode of a new one. -/
theorem allocInoFrom_place (h : InodesOk v ags) (hs : v.sb.Sound) (hk : k < v.sb.agCount)
    (agnos : List Nat) (hfree : ¬HasFree (ags k)) (hplace : CanPlace v.sb (ags k))
    (hlimit : checkLimit v.sb v.newChunks = .ok ()) :
    ∃ ino v', allocInoFrom (k :: agnos) v = .ok ino v' ∧ FreeIn v.sb k (ags k) ino := by
  obtain ⟨v1, hr, hg, hag, hrun⟩ := allocInoFrom_full h hk agnos hfree
  have hok := h.ok k hk
  rcases @allocChunk_eq v.sb _ hok.space.freeOk (chunkBlocks_pos hs h.perBlock) with
    ⟨-, hno⟩ | ⟨s, ag1, hsome, -, hal, -⟩
  · exact absurd hno hplace
  obtain ⟨free', htk, rfl⟩ := hal.takes
  -- The chunk's blocks were free, so they lie in the group.
  have hrunfree : ∀ b, s ≤ b → b < s + chunkBlocks v.sb → 0 < freeAt (ags k).free b := by
    intro b h1 h2
    have := htk.at_ b
    rw [within_eq_one.mpr ⟨h1, h2⟩] at this
    omega
  have hpos := chunkBlocks_pos hs h.perBlock
  have hlen := (Superblock.agLen_le hok.agLen).1
  have hend : s + chunkBlocks v.sb ≤ (ags k).len := by
    have := hok.space.inside _ (hrunfree (s + chunkBlocks v.sb - 1) (by omega) (by omega))
    omega
  have hstart := chunkStart_eq hs h.log (s := s) (by omega)
  -- No other chunk has a free inode, so the new one is taken from.
  obtain ⟨i, hi, ag2, halloc⟩ : ∃ i < CHUNK_INODES, ∃ ag2, allocInode (withChunk v.sb
      { ags k with free := free', freeTotal := (ags k).freeTotal - chunkBlocks v.sb, dirty := true } s) =
      .ok (some (s * 2 ^ v.sb.inopbLog + i)) ag2 := by
    rcases @allocInode_cases (withChunk v.sb { ags k with
      free := free', freeTotal := (ags k).freeTotal - chunkBlocks v.sb, dirty := true } s) with
      ⟨-, hnone⟩ | ⟨e, he, i, hi, hu, halloc⟩
    · have hall : 0 < (⟨0, CHUNK_INODES, 2 ^ 64 - 1⟩ : Chunk).freeCount := by decide
      refine absurd hall (hnone (s * 2 ^ v.sb.inopbLog, ⟨0, CHUNK_INODES, 2 ^ 64 - 1⟩) ?_)
      · simp only [withChunk, hstart]
        exact OrdMap.mem_insert.mpr (Or.inl rfl)
    · simp only [withChunk, hstart] at he
      rcases OrdMap.mem_insert.mp he with rfl | ⟨he, -⟩
      · -- The chunk lies in the group, and its numbers within their width.
        have hsmall : s * 2 ^ v.sb.inopbLog + CHUNK_INODES ≤ 2 ^ 32 := by
          rw [← chunkBlocks_mul hs h.perBlock, ← Nat.add_mul]
          calc (s + chunkBlocks v.sb) * 2 ^ v.sb.inopbLog
              ≤ 2 ^ v.sb.agblkLog * 2 ^ v.sb.inopbLog :=
                Nat.mul_le_mul_right _ ((hend.trans hlen).trans hs.agBlocks_le)
            _ = 2 ^ (v.sb.agblkLog + v.sb.inopbLog) := (Nat.pow_add _ _ _).symm
            _ ≤ 2 ^ 32 := Nat.pow_le_pow_right (by norm_num) h.log.le
        rw [if_neg (by simp only; omega)] at halloc
        exact ⟨i, hi, _, halloc⟩
      · exact absurd ⟨e, he, Chunk.freeCount_pos.mpr ⟨i, hi, hu⟩⟩ hfree
  obtain ⟨hblock, hlt⟩ := blockOf_chunk hs h.perBlock s hi
  generalize i / 2 ^ v.sb.inopbLog = d at hblock hlt
  have hb := @became_put _ _ ag2 _ (@became_put _ _ (withChunk v.sb { ags k with
    free := free', freeTotal := (ags k).freeTotal - chunkBlocks v.sb, dirty := true } s) _ hag).ag
  rw [hrun, bind_of_ok (liftE_eq_ok.mpr ⟨hlimit, rfl⟩),
    bind_of_ok ((onAg_eq_ok hag).mpr ⟨_, hsome, rfl⟩)]
  simp only
  rw [bind_of_ok ((onAg_eq_ok (became_put hag).ag).mpr ⟨ag2, halloc, rfl⟩)]
  simp only
  unfold modifyWriter
  rw [bind_of_ok (modify_apply _ _)]
  obtain ⟨v3, hinit⟩ := @initChunk_ok { (v1.putAg k (withChunk v.sb { ags k with
      free := free', freeTotal := (ags k).freeTotal - chunkBlocks v.sb, dirty := true } s)).putAg k ag2 with
        w := ((v1.putAg k (withChunk v.sb { ags k with
          free := free', freeTotal := (ags k).freeTotal - chunkBlocks v.sb
          dirty := true } s)).putAg k ag2).w.map fun w => { w with newChunks := w.newChunks + 1 } } k
    (hr.sb ▸ hs) (hr.sb ▸ h.perBlock) (h.device.of_same hr.dev hr.sb)
    (by rw [Option.isSome_map]; exact isSome_of_ag? hb.ag) s _ (hr.sb ▸ hok.agLen) (hr.sb ▸ hend)
  rw [bind_of_ok hinit]
  refine ⟨_, v3, rfl, s * 2 ^ v.sb.inopbLog + i, rfl, ?_, fun hf => absurd hf hfree,
    fun _ => ⟨s, hrunfree, by omega, by omega⟩⟩
  -- An inode in use would have its block taken.
  rintro ⟨e, he, hin, hhole, -⟩
  have htaken := ((h.chunks k hk).sound e he).taken (s * 2 ^ v.sb.inopbLog + i - e.1)
    (by have := hin.1; have := hin.2; omega) hhole
  rw [show e.1 + (s * 2 ^ v.sb.inopbLog + i - e.1) = s * 2 ^ v.sb.inopbLog + i by
    have := hin.1; omega, hblock] at htaken
  have := hrunfree (s + d) (by omega) (by omega)
  omega

/-! ## All groups -/

/-- Within the limit the search ends at the first AG that has an inode to give. -/
theorem allocInoFrom_run : ∀ {agnos : List Nat} {v : Volume}, InodesOk v ags → v.sb.Sound →
    LimitFits v.sb v.newChunks → overLimit v.sb v.newChunks = false →
    (∀ k ∈ agnos, k < v.sb.agCount) →
    (∃ before k after ino v', agnos = before ++ k :: after ∧
      (∀ j ∈ before, ¬Eligible v.sb v.newChunks (ags j)) ∧ Eligible v.sb v.newChunks (ags k) ∧
      allocInoFrom agnos v = .ok ino v' ∧ FreeIn v.sb k (ags k) ino) ∨
    (∀ k ∈ agnos, ¬Eligible v.sb v.newChunks (ags k)) ∧
      ∃ what v', allocInoFrom agnos v = .error (.noSpace what) v' := by
  intro agnos
  induction agnos with
  | nil => exact fun _ _ _ _ _ => Or.inr ⟨by simp, _, _, rfl⟩
  | cons k agnos ih =>
      intro v h hs hfits hover hlt
      have hk := hlt k List.mem_cons_self
      have hlimit := checkLimit_ok hfits hover
      by_cases hfree : HasFree (ags k)
      · obtain ⟨ino, v', hrun, hgiven⟩ := allocInoFrom_free h hk agnos hfree
        exact Or.inl ⟨[], k, agnos, ino, v', rfl, by simp, Or.inl hfree, hrun, hgiven⟩
      by_cases hplace : CanPlace v.sb (ags k)
      · obtain ⟨ino, v', hrun, hgiven⟩ := allocInoFrom_place h hs hk agnos hfree hplace hlimit
        exact Or.inl ⟨[], k, agnos, ino, v', rfl, by simp, Or.inr ⟨hover, hplace⟩, hrun, hgiven⟩
      have hnot : ¬Eligible v.sb v.newChunks (ags k) := by
        rintro (hf | ⟨-, hp⟩)
        · exact hfree hf
        · exact hplace hp
      obtain ⟨v1, hr, h1, hrun⟩ := allocInoFrom_next h hs hk agnos hfree hplace hlimit
      have hnext := ih h1 (hr.sb ▸ hs) (by rw [hr.sb, hr.newChunks]; exact hfits)
        (by rw [hr.sb, hr.newChunks]; exact hover)
        (by rw [hr.sb]; exact fun j hj => hlt j (List.mem_cons_of_mem _ hj))
      rw [hr.sb, hr.newChunks, ← hrun] at hnext
      rcases hnext with ⟨before, j, after, ino, v', heq, hbefore, hj, hok, hgiven⟩ | ⟨hall, herr⟩
      · refine Or.inl ⟨k :: before, j, after, ino, v', by rw [heq]; rfl, fun i hi => ?_, hj, hok, hgiven⟩
        rcases List.mem_cons.mp hi with rfl | hi
        · exact hnot
        · exact hbefore i hi
      · refine Or.inr ⟨fun j hj => ?_, herr⟩
        rcases List.mem_cons.mp hj with rfl | hj
        · exact hnot
        · exact hall j hj

/-- The `i`th AG from `pref` on. -/
def nthAg (sb : Superblock) (pref i : Nat) : Nat := (pref + i) % sb.agCount

/-- What `alloc_ino` promises of a volume with the groups `ags`, from AG `pref` on: a free
inode of the first AG in cyclic order that has one to give, or `NoSpace` when no AG has a
free inode and a chunk would be over the limit or has no place in any. -/
def InodePromise (v : Volume) (ags : Nat → Ag) (pref : Nat) : Prop :=
  (∃ i < v.sb.agCount, ∃ ino v', allocIno pref v = .ok ino v' ∧
    Eligible v.sb v.newChunks (ags (nthAg v.sb pref i)) ∧
    (∀ j < i, ¬Eligible v.sb v.newChunks (ags (nthAg v.sb pref j))) ∧
    FreeIn v.sb (nthAg v.sb pref i) (ags (nthAg v.sb pref i)) ino) ∨
  (∃ what v', allocIno pref v = .error (.noSpace what) v') ∧ (∀ k < v.sb.agCount, ¬HasFree (ags k)) ∧
    (overLimit v.sb v.newChunks = true ∨ ∀ k < v.sb.agCount, ¬CanPlace v.sb (ags k))

/-- The order of the AGs can be worked out, and either the first of them has a free inode or
the limit can be worked out and stops nothing but new chunks. -/
def InodesFound (v : Volume) (ags : Nat → Ag) (pref : Nat) : Prop :=
  pref % v.sb.agCount + v.sb.agCount ≤ 2 ^ 32 ∧
    (¬HasFree (ags (pref % v.sb.agCount)) → LimitFits v.sb v.newChunks ∧
      (overLimit v.sb v.newChunks = true → ∀ k < v.sb.agCount, ¬HasFree (ags k)))

theorem allocIno_start (hs : v.sb.Sound) {pref : Nat}
    (hpref : pref % v.sb.agCount + v.sb.agCount ≤ 2 ^ 32) : allocIno pref v =
      allocInoFrom ((List.range v.sb.agCount).rotate (pref % v.sb.agCount)) v := by
  unfold allocIno
  simp only [get_bind_apply]
  refine bind_of_ok (liftE_eq_ok.mpr ⟨?_, rfl⟩)
  rw [agOrder_eq hs.agCount_pos, if_neg (by omega)]

theorem getElem_order {n pref i : Nat} (hi : i < ((List.range n).rotate (pref % n)).length) :
    ((List.range n).rotate (pref % n))[i] = (pref + i) % n := by
  rw [List.getElem_rotate]
  simp [Nat.add_comm]

/-- It is kept exactly when the limit, looked at in the first AG, cannot hide a free inode
of another. -/
theorem inodes_found {buf : Bytes} (hsb : Superblock.parse buf = .ok v.sb) (h : InodesOk v ags)
    (pref : Nat) : InodePromise v ags pref ↔ InodesFound v ags pref := by
  have hs := Superblock.sound_of_parse hsb
  have hn := hs.agCount_pos
  have hfirst : pref % v.sb.agCount < v.sb.agCount := Nat.mod_lt _ hn
  by_cases hpref : pref % v.sb.agCount + v.sb.agCount ≤ 2 ^ 32
  swap
  · -- The order overflows.
    have hrun : allocIno pref v = .error (.panic "attempt to add with overflow") v := by
      unfold allocIno
      simp only [get_bind_apply]
      refine bind_of_error (liftE_eq_error.mpr ⟨?_, rfl⟩)
      rw [agOrder_eq hn, if_pos (by omega)]
    refine ⟨fun hprom => ?_, fun hfound => absurd hfound.1 hpref⟩
    rcases hprom with ⟨_, _, _, _, hbad, _⟩ | ⟨⟨_, _, hbad⟩, _⟩ <;> rw [hrun] at hbad <;> cases hbad
  obtain ⟨rest, horder⟩ : ∃ rest, (List.range v.sb.agCount).rotate (pref % v.sb.agCount) =
      pref % v.sb.agCount :: rest := by
    have hpos : 0 < ((List.range v.sb.agCount).rotate (pref % v.sb.agCount)).length := by simpa using hn
    obtain ⟨x, rest, hx⟩ := List.exists_cons_of_length_pos hpos
    have hget := getElem_order hpos
    simp only [hx, List.getElem_cons_zero, Nat.add_zero] at hget
    exact ⟨rest, by rw [hx, hget]⟩
  have hnth : nthAg v.sb pref 0 = pref % v.sb.agCount := rfl
  have hmem : ∀ k ∈ (List.range v.sb.agCount).rotate (pref % v.sb.agCount), k < v.sb.agCount :=
    fun k hk => List.mem_range.mp (List.mem_rotate.mp hk)
  by_cases hfree : HasFree (ags (pref % v.sb.agCount))
  · -- The first AG gives an inode.
    refine ⟨fun _ => ⟨hpref, fun hno => absurd hfree hno⟩, fun _ => Or.inl ⟨0, hn, ?_⟩⟩
    obtain ⟨ino, v', hrun, hgiven⟩ := allocInoFrom_free h hfirst rest hfree
    rw [← horder, ← allocIno_start hs hpref] at hrun
    exact ⟨ino, v', hrun, Or.inl hfree, fun j hj => absurd hj (Nat.not_lt_zero j), hgiven⟩
  by_cases hfits : LimitFits v.sb v.newChunks
  swap
  · obtain ⟨what, hlimit⟩ := checkLimit_panics hfits
    obtain ⟨v', hrun⟩ := allocInoFrom_refused h hfirst rest hfree hlimit
    rw [← horder, ← allocIno_start hs hpref] at hrun
    refine ⟨fun hprom => ?_, fun hfound => absurd (hfound.2 hfree).1 hfits⟩
    rcases hprom with ⟨_, _, _, _, hbad, _⟩ | ⟨⟨_, _, hbad⟩, _⟩ <;> rw [hrun] at hbad <;> cases hbad
  cases hover : overLimit v.sb v.newChunks with
  | true =>
      obtain ⟨v', hrun⟩ := allocInoFrom_refused h hfirst rest hfree (checkLimit_over hfits hover)
      rw [← horder, ← allocIno_start hs hpref] at hrun
      constructor
      · rintro (⟨_, _, _, _, hbad, _⟩ | ⟨-, hnone, -⟩)
        · rw [hrun] at hbad
          cases hbad
        · exact ⟨hpref, fun _ => ⟨hfits, fun _ => hnone⟩⟩
      · rintro ⟨-, hfound⟩
        exact Or.inr ⟨⟨_, _, hrun⟩, (hfound hfree).2 hover, Or.inl hover⟩
  | false =>
      refine ⟨fun _ => ⟨hpref, fun _ => ⟨hfits, fun htrue => ?_⟩⟩, fun _ => ?_⟩
      · rw [hover] at htrue
        cases htrue
      rcases allocInoFrom_run h hs hfits hover hmem with
        ⟨before, k, after, ino, v', heq, hbefore, hk, hrun, hgiven⟩ | ⟨hall, what, v', hrun⟩
      · have hlen : before.length < ((List.range v.sb.agCount).rotate (pref % v.sb.agCount)).length := by
          rw [heq]
          simp
        have hat : nthAg v.sb pref before.length = k := by
          have hget := getElem_order hlen
          simp only [heq, List.getElem_append_right (Nat.le_refl _), Nat.sub_self,
            List.getElem_cons_zero] at hget
          exact hget.symm
        refine Or.inl ⟨before.length, by simpa using hlen, ino, v', ?_, hat ▸ hk, fun j hj => ?_,
          hat ▸ hgiven⟩
        · rw [allocIno_start hs hpref]
          exact hrun
        · have hget := getElem_order (hj.trans hlen)
          simp only [heq, List.getElem_append_left hj] at hget
          have := hbefore _ (List.getElem_mem hj)
          rwa [hget] at this
      · have hnone : ∀ k < v.sb.agCount, ¬Eligible v.sb v.newChunks (ags k) := fun k hk =>
          hall k (List.mem_rotate.mpr (List.mem_range.mpr hk))
        refine Or.inr ⟨⟨what, v', ?_⟩, fun k hk hf => hnone k hk (Or.inl hf),
          Or.inr fun k hk hp => hnone k hk (Or.inr ⟨hover, hp⟩)⟩
        rw [allocIno_start hs hpref]
        exact hrun

end

/-! ## A limit that hides a free inode -/

/-- Two groups of 64 blocks, a quarter of the space for inodes: one chunk. -/
def quarterSb : Superblock :=
  { freshSb 64 false with dataBlocks := 128, agCount := 2, icount := 64, ifree := 63, imaxPct := 25 }

/-- Its sector. -/
def quarterSector : Bytes :=
  let b := put64 (freshSector 64 false) 8 128
  let b := put32 b 88 2
  let b := putBe 1 b 127 25
  let b := put64 b 128 64
  Crc.stamp (put64 b 136 63) 224

/-- The chunk is in group 1, with one inode in use. -/
def quarterAg (k : Nat) : Ag :=
  if k = 0 then freshAg 64 false
  else { freshAg 64 false with
    agno := k, free := .ofList [(8, 24)], freeTotal := 24
    chunks := .ofList [(64, ⟨0, 64, 2 ^ 64 - 2⟩)] }

/-- Both groups in memory. -/
def quarterVolume : Volume :=
  { dev := ⟨List.replicate 65536 0, []⟩, sb := quarterSb, log := .clean
    w := some { Writer.new ⟨0, 0⟩ with ags := .ofList [(0, quarterAg 0), (1, quarterAg 1)] }
    time := none, clock := [] }

set_option maxRecDepth 100000 in
theorem parse_quarter : Superblock.parse quarterSector = .ok quarterSb := by decide +kernel

theorem chunkSound_quarter : ChunkSound quarterSb (quarterAg 1).free (64, ⟨0, 64, 2 ^ 64 - 2⟩) where
  short := by decide
  aligned := ⟨1, rfl⟩
  holes i _ hi := by simp [Chunk.hole] at hi
  count := by decide
  taken := by
    have hall : ∀ i < 64, freeAt (quarterAg 1).free (blockOf quarterSb (64 + i)) = 0 := by
      decide +kernel
    exact fun i hi _ => hall i hi

theorem spaceOk_quarter (k : Nat) : SpaceOk (quarterAg k) := by
  have hone : ∀ {n : Nat}, 0 < n → FreeOk (.ofList [(8, n)]) := fun {n} hn =>
    freeOk_of_pairwise (by simpa [OrdMap.ofList, OrdMap.empty, OrdMap.insert, insertEntry] using hn)
      (List.pairwise_singleton _ _)
  by_cases hk : k = 0
  · unfold quarterAg
    rw [if_pos hk]
    refine ⟨hone (by decide), by decide, fun b hb => ?_⟩
    obtain ⟨e, he, h1, h2⟩ := exists_of_freeAt_pos hb
    obtain rfl := List.mem_singleton.mp he
    exact h2
  · unfold quarterAg
    rw [if_neg hk]
    refine ⟨hone (by decide), rfl, fun b hb => ?_⟩
    obtain ⟨e, he, h1, h2⟩ := exists_of_freeAt_pos hb
    obtain rfl := List.mem_singleton.mp he
    change b < 8 + 24 at h2
    change b < 64
    omega

theorem inodesOk_quarter : InodesOk quarterVolume quarterAg where
  groups :=
    { writable := Or.inl rfl
      holds := fun k hk => by
        have hk : k = 0 ∨ k = 1 := by
          change k < 2 at hk
          omega
        rcases hk with rfl | rfl
        · exact Or.inl rfl
        · exact Or.inl rfl }
  ok k hk := by
    refine ⟨spaceOk_quarter k, ?_⟩
    have hk : k = 0 ∨ k = 1 := by
      change k < 2 at hk
      omega
    rcases hk with rfl | rfl
    · rfl
    · rfl
  chunks k _ := by
    refine chunksSound_of_each fun e he => ?_
    by_cases hk : k = 0
    · rw [hk] at he
      exact absurd he OrdMap.not_mem_empty
    · unfold quarterAg at he ⊢
      rw [if_neg hk] at he ⊢
      obtain rfl := List.mem_singleton.mp he
      exact chunkSound_quarter
  log := by decide
  perBlock := by decide
  device :=
    { faults := rfl
      holds := by
        change 128 * 512 ≤ (List.replicate 65536 0).length
        rw [List.length_replicate]
      size_lt := by
        change (List.replicate 65536 0).length < 2 ^ 64
        rw [List.length_replicate]
        norm_num }

theorem hasFree_quarter : HasFree (quarterAg 1) :=
  ⟨(64, ⟨0, 64, 2 ^ 64 - 2⟩), by decide, by decide⟩

/-- From group 1 on the free inode is found. -/
theorem inodes_found_quarter : InodePromise quarterVolume quarterAg 1 :=
  (inodes_found parse_quarter inodesOk_quarter 1).mpr
    ⟨by decide, fun hno => absurd hasFree_quarter hno⟩

set_option maxRecDepth 100000 in
/-- From group 0 on the limit stops the search with 63 inodes free in group 1. -/
theorem inode_hidden : Superblock.parse quarterSector = .ok quarterVolume.sb ∧
    InodesOk quarterVolume quarterAg ∧ HasFree (quarterAg 1) ∧
    (∃ what v', allocIno 0 quarterVolume = .error (.noSpace what) v') ∧
    ¬InodePromise quarterVolume quarterAg 0 := by
  have hrun : errorWith Error.isNoSpace (allocIno 0 quarterVolume) = true := by
    decide +kernel
  obtain ⟨e, v', h, hfull⟩ := exists_of_errorWith hrun
  obtain ⟨what, rfl⟩ : ∃ what, e = .noSpace what := by
    cases e <;> first | exact ⟨_, rfl⟩ | cases hfull
  refine ⟨parse_quarter, inodesOk_quarter, hasFree_quarter, ⟨what, v', h⟩, ?_⟩
  rintro (⟨_, _, _, _, hbad, _⟩ | ⟨-, hnone, -⟩)
  · rw [h] at hbad
    cases hbad
  · exact hnone 1 (by decide) hasFree_quarter

end Volume

end FioXfs
