import FioXfs.Write.Inodes
import FioXfs.Write.Storing
set_option autoImplicit false

/-!
# A new inode

An inode that is given was nobody's, in a chunk that was there or in one that is made in free
blocks; its bytes are put in its slot, and the other inodes of the block keep theirs.
-/

namespace FioXfs

open FioXfs.Lib FioXfs.Alloc FioXfs.Bmap

namespace Volume

/-! ## Steps that leave the groups and the device alone -/

/-- Neither the device nor a group in memory has changed. -/
structure Still (v v' : Volume) : Prop where
  sb : v'.sb = v.sb
  dev : v'.dev = v.dev
  ags : ∀ k, v'.ag? k = v.ag? k

section
variable {v v' v'' : Volume} {L L' : Ledger} {P : Nat → Prop}

theorem Still.refl (v : Volume) : Still v v := ⟨rfl, rfl, fun _ => rfl⟩

theorem Still.trans (h : Still v v') (h' : Still v' v'') : Still v v'' :=
  ⟨h'.sb.trans h.sb, h'.dev.trans h.dev, fun k => (h'.ags k).trans (h.ags k)⟩

theorem Still.kept (hs : Still v v') (h : v.Minds L) : Kept P L v v' := kept_of_same h hs.sb hs.dev hs.ags

theorem writer_still : Leaves writer v (fun _ v' => Still v v') fun _ v' => Still v v' :=
  writer_leaves.mono (fun _ _ h => h ▸ .refl v) fun _ _ h => ⟨h.1, h.2.1, h.2.2.2⟩

theorem now_still : Leaves now v (fun _ v' => Still v v') fun _ v' => Still v v' := by
  refine leaves_iff.mpr ⟨fun t v' h => ?_, fun e v' h => ?_⟩
  · obtain ⟨hdev, hsb, hw⟩ := now_eq_ok h
    refine ⟨hsb, hdev, fun k => ?_⟩
    unfold ag?
    rw [hw]
  · unfold now readClock at h
    cases ht : v.time with
    | some t0 =>
      simp only [get_bind_apply, ht] at h
      cases h
    | none => cases hc : v.clock <;> simp only [ht, hc, get_bind_apply] at h <;> cases h

theorem getWriter_still : Leaves getWriter v (fun _ v' => Still v v') fun w v' => v' = v ∧ v.w = some w := by
  refine leaves_get_bind ?_
  cases hw : v.w with
  | none => exact leaves_throw (.refl v)
  | some w => exact leaves_pure ⟨rfl, rfl⟩

theorem modifyWriter_still {f : Writer → Writer} (hf : ∀ w, v.w = some w → (f w).ags = w.ags) :
    Leaves (modifyWriter f) v (fun _ v' => Still v v') fun _ v' => Still v v' := by
  refine leaves_modify ⟨rfl, rfl, fun k => ?_⟩
  unfold ag?
  cases hw : v.w with
  | none => rfl
  | some w =>
    change (f w).ags.get? k = w.ags.get? k
    rw [hf w hw]

theorem nextGen_still : Leaves nextGen v (fun _ v' => Still v v') fun _ v' => Still v v' := by
  unfold nextGen
  refine getWriter_still.bind fun w v1 h1 => ?_
  obtain ⟨rfl, hw⟩ := h1
  exact (@modifyWriter_still v1 (fun w => w.nextGen.2) fun _ _ => rfl).bind fun _ v2 h2 => leaves_pure h2

/-- A new inode's bytes are made of the clock and the generator. -/
theorem newRaw_leaves {ino m uid gid nlink : Nat} :
    Leaves (newRaw ino m uid gid nlink) v (fun _ v' => Still v v') fun raw v' => Still v v' ∧
      ∃ gen t, raw = freshRaw v.sb ino m uid gid nlink gen t := by
  unfold newRaw
  refine now_still.bind fun t v1 h1 => ?_
  refine (nextGen_still.mono (fun _ v2 h2 => h1.trans h2) fun _ _ => id).bind fun gen v2 h2 => ?_
  have h12 := h1.trans h2
  refine leaves_get_bind (Leaves.bind (leaves_liftE (Q := fun _ v3 => v3 = v2) (fun _ _ => h12)
    fun _ _ => rfl) fun word v3 h3 => ?_)
  subst h3
  exact leaves_pure ⟨h12, gen, word, by rw [h12.sb]⟩

/-- A directory's names in memory are neither. -/
theorem dirState_still {dino : Nat} :
    Leaves (dirState dino) v (fun _ v' => Still v v') fun _ v' => Still v v' := by
  unfold dirState
  refine writer_still.bind fun _ v1 h1 => ?_
  refine (getWriter_still.mono (fun _ v2 h2 => h1.trans h2) fun _ _ => id).bind fun w v2 h2 => ?_
  obtain ⟨rfl, hw⟩ := h2
  split
  · refine leaves_get_bind ?_
    refine Leaves.bind (leaves_liftE (Q := fun _ v3 => v3 = v2) (fun _ _ => h1) fun _ _ => rfl)
      fun dir v3 h3 => ?_
    subst h3
    refine Leaves.bind (leaves_liftE (Q := fun _ v4 => v4 = v3) (fun _ _ => h1) fun _ _ => rfl)
      fun names v4 h4 => ?_
    subst h4
    have hset := @modifyWriter_still v4
      (fun w => { w with dirs := w.dirs.insert dino (dirStateOf dino names) }) fun _ _ => rfl
    exact hset.mono (fun _ v5 h5 => h1.trans h5) fun _ v5 h5 => h1.trans h5
  · exact leaves_pure h1

theorem changeNames_still {dino : Nat} {f : OrdMap Bytes (Nat × Nat) → OrdMap Bytes (Nat × Nat)} :
    Leaves (changeNames dino f) v (fun _ v' => Still v v') fun _ v' => Still v v' := by
  unfold changeNames
  refine dirState_still.bind fun _ v1 h1 => ?_
  refine (modifyWriter_still fun w _ => ?_).mono (fun _ v2 h2 => h1.trans h2) fun _ v2 h2 => h1.trans h2
  split <;> rfl

/-! ## Slots of inodes -/

/-- The bytes of inode `ino` are not the ledger's. -/
def LacksNode (sb : Superblock) (L : Ledger) (ino : Nat) : Prop :=
  ∀ p, sb.byteAg p < sb.agCount → sb.byteIno p = ino → ¬L.Names sb p

/-- Inode `ino` is the `i`th of block `b` of AG `k`. -/
structure NodeAt (sb : Superblock) (ino k b i : Nat) : Prop where
  ag : k < sb.agCount
  block : b < sb.agBlocks
  index : i < sb.inodesPerBlock
  number : sb.aginoToIno k (sb.aginoAt b i) = ino

/-- An inode of a group is one of a block. -/
theorem nodeAt_of_present {sb : Superblock} {k a : Nat} {ag : Ag} (hf : sb.Fitting) (hk : k < sb.agCount)
    (hm : Alloc.Minds sb k L ag) (hpres : Present ag.chunks a) :
    NodeAt sb (sb.aginoToIno k a) k (blockOf sb a) (a % 2 ^ sb.inopbLog) := by
  have ha := hf.addressable
  have hlt := (hm.nodes a hpres).1.trans_le (Superblock.agLen_le hm.agLen).1
  refine ⟨hk, hlt, ?_, ?_⟩
  · rw [ha.sound.inopb_eq]
    exact Nat.mod_lt _ (Nat.two_pow_pos _)
  · unfold blockOf
    rw [ha.aginoAt_eq, Nat.mul_comm, Nat.div_add_mod]

/-- The bytes that carry an inode's number are of its block. -/
theorem NodeAt.byte {sb : Superblock} {ino k b i p : Nat} (h : NodeAt sb ino k b i) (hf : sb.Fitting)
    (hp : sb.byteAg p < sb.agCount) (hino : sb.byteIno p = ino) :
    sb.byteAg p = k ∧ sb.byteAgb p = b ∧ sb.byteIndex p = i := by
  have ha := hf.addressable
  have hb := Superblock.byteAgb_lt ha.sound p
  have hi := Superblock.byteIndex_lt ha.sound p
  have hnum := congrArg sb.inoToAgino (hino.trans h.number.symm)
  unfold Superblock.byteIno at hnum
  rw [ha.inoToAgino_aginoToIno hp (ha.aginoAt_lt hb hi),
    ha.inoToAgino_aginoToIno h.ag (ha.aginoAt_lt h.block h.index)] at hnum
  obtain ⟨hk, hagino⟩ := Prod.mk.inj hnum
  rw [ha.aginoAt_eq, ha.aginoAt_eq] at hagino
  have hi' : sb.byteIndex p < 2 ^ sb.inopbLog := ha.sound.inopb_eq ▸ hi
  have hi'' : i < 2 ^ sb.inopbLog := ha.sound.inopb_eq ▸ h.index
  have hdiv := congrArg (· / 2 ^ sb.inopbLog) hagino
  have hmod := congrArg (· % 2 ^ sb.inopbLog) hagino
  simp only [Superblock.packed_div hi', Superblock.packed_div hi''] at hdiv
  simp only [Superblock.packed_mod hi', Superblock.packed_mod hi''] at hmod
  exact ⟨hk, hdiv, hmod⟩

/-- A ledger with neither an inode nor its block lacks it. -/
theorem NodeAt.lacks {sb : Superblock} {ino k b i : Nat} (h : NodeAt sb ino k b i) (hf : sb.Fitting)
    (hino : ino ∉ L.inodes) (hblock : sb.agbToFsb k b ∉ L.blocks) : LacksNode sb L ino := by
  intro p hp hpino
  obtain ⟨hk, hb, -⟩ := h.byte hf hp hpino
  rintro (hL | hL)
  · unfold Superblock.byteFsb at hL
    rw [hk, hb] at hL
    exact hblock hL
  · rw [hpino] at hL
    exact hino hL

/-! ## Allocating it -/

theorem freeInodes_leaves {sb : Superblock} (hs : sb.Sound) {count : Nat} : ∀ {ino : Nat} {v : Volume},
    Leaves (freeInodes sb ino count) v (fun _ v' => Still v v') fun buf v' =>
      Still v v' ∧ buf.length = count * sb.inodeSize := by
  induction count with
  | zero =>
    intro ino v
    exact leaves_pure ⟨.refl v, (Nat.zero_mul _).symm⟩
  | succ count ih =>
    intro ino v
    unfold freeInodes
    refine nextGen_still.bind fun gen v1 h1 => ?_
    refine (ih.mono (fun _ v2 h2 => h1.trans h2) fun _ _ => id).bind fun rest v2 h2 => ?_
    refine leaves_pure ⟨h1.trans h2.1, ?_⟩
    rw [List.length_append, length_freeRaw hs ino gen, h2.2, Nat.succ_mul, Nat.add_comm]

/-- A new chunk's inodes are written in its blocks, which are nobody's. -/
theorem initChunk_leaves {k s : Nat} {ag : Ag} (h : v.Minds L') (hf : v.sb.Fitting) (hk : k < v.sb.agCount)
    (hag : v.ag? k = some ag) (hend : s + chunkBlocks v.sb ≤ v.sb.agBlocks)
    (hclear : ∀ b, s ≤ b → b < s + chunkBlocks v.sb → v.sb.agbToFsb k b ∉ L.blocks ∧
      ∀ i < v.sb.inodesPerBlock, v.sb.aginoToIno k (v.sb.aginoAt b i) ∉ L.inodes) :
    Leaves (initChunk k s) v (fun _ v' => Kept (L.Names v.sb) L' v v')
      fun _ v' => Kept (L.Names v.sb) L' v v' := by
  have ha := hf.addressable
  have hbs := ha.sound.blockSize_pos
  have hpos := chunkBlocks_pos ha.sound hf.inodes_le
  unfold initChunk
  refine leaves_get_bind ?_
  refine ((freeInodes_leaves ha.sound).mono (fun _ v1 h1 => h1.kept h) fun _ _ => id).bind fun buf v1 h1 => ?_
  obtain ⟨hstill, hlen⟩ := h1
  have hlen' : buf.length = chunkBlocks v.sb * v.sb.blockSize := by
    rw [hlen, ← chunkBlocks_mul ha.sound hf.inodes_le, Nat.mul_assoc, ← ha.sound.inopb_eq,
      ha.sound.inode_fill]
  have hat : v.sb.agbToByte k s = (k * v.sb.agBlocks + s) * v.sb.blockSize := ha.agbToByte_eq hk (by omega)
  -- a byte of the chunk is of one of its blocks
  have hbyte : ∀ p, v.sb.agbToByte k s ≤ p → p < v.sb.agbToByte k s + buf.length →
      v.sb.byteAg p = k ∧ s ≤ v.sb.byteAgb p ∧ v.sb.byteAgb p < s + chunkBlocks v.sb := by
    intro p hlo hhi
    rw [hat] at hlo hhi
    obtain ⟨i, rfl⟩ := Nat.exists_eq_add_of_le hlo
    have hi : i < chunkBlocks v.sb * v.sb.blockSize := by omega
    have hq : i / v.sb.blockSize < chunkBlocks v.sb := Nat.div_lt_of_lt_mul (by rwa [Nat.mul_comm])
    have hsplit := Nat.div_add_mod i v.sb.blockSize
    have hmod := Nat.mod_lt i hbs
    have hplace : (k * v.sb.agBlocks + (s + i / v.sb.blockSize)) * v.sb.blockSize =
        (k * v.sb.agBlocks + s) * v.sb.blockSize + v.sb.blockSize * (i / v.sb.blockSize) := by
      rw [← Nat.add_assoc, Nat.add_mul, Nat.mul_comm (i / v.sb.blockSize)]
    obtain ⟨hag, hagb⟩ := @Superblock.byte_of_block v.sb k (s + i / v.sb.blockSize)
      ((k * v.sb.agBlocks + s) * v.sb.blockSize + i) ha.sound (by omega) (by omega) (by omega)
    exact ⟨hag, hagb ▸ Nat.le_add_right _ _, by rw [hagb]; omega⟩
  have hkept : ∀ d, Device.WroteIn v1.dev d (v.sb.agbToByte k s) buf.length →
      Kept (L.Names v.sb) L' v { v1 with dev := d } := by
    intro d hw
    have hout : ∀ p, (v.ag? (v.sb.byteAg p) = none ∨ L.Names v.sb p) →
        p < v.sb.agbToByte k s ∨ v.sb.agbToByte k s + buf.length ≤ p := by
      intro p hp
      by_contra hmeet
      obtain ⟨hpk, hlo, hhi⟩ := hbyte p (by omega) (by omega)
      rcases hp with hnone | hL | hL
      · rw [hpk, hag] at hnone
        cases hnone
      · refine (hclear _ hlo hhi).1 ?_
        rwa [← hpk]
      · refine (hclear _ hlo hhi).2 _ (Superblock.byteIndex_lt ha.sound p) ?_
        rwa [← hpk]
    have hsame : ∀ {P : Nat → Prop}, (∀ p, P p → v.ag? (v.sb.byteAg p) = none ∨ L.Names v.sb p) →
        Device.SameOn P v.dev d := fun hP => hstill.dev ▸ hw.sameOn fun p hp => hout p (hP p hp)
    exact ⟨hstill.sb, hsame fun p hp => Or.inr hp, h.of_dev hstill.sb hstill.ags
      (hsame fun p hp => Or.inl hp.1)⟩
  refine leaves_onDev (Device.writeAt_wroteIn.mono (fun _ d hw => ?_) fun _ d hw => ?_)
  · exact hkept d hw
  · exact hkept d hw

/-- What giving an inode leaves: it was nobody's, in a block that is nobody's. -/
structure NodeMade (L : Ledger) (v : Volume) (ino : Nat) (v' : Volume) : Prop where
  kept : Kept (L.Names v.sb) (L.withInode ino) v v'
  at_ : ∃ k b i len, NodeAt v.sb ino k b i ∧ v.sb.agLen k = .ok len ∧ b < len ∧ v.sb.agbToFsb k b ∉ L.blocks
  new : ino ∉ L.inodes

/-- An inode of a group in memory is given, or there is none. -/
theorem allocInode_leaves {k : Nat} {ag : Ag} (h : v.Minds L) (hf : v.sb.Fitting) (hk : k < v.sb.agCount)
    (hag : v.ag? k = some ag) :
    Leaves (onAg k allocInode) v (fun _ _ => False) fun found v' =>
      found = none ∧ Kept P L v v' ∧ v'.ag? k = some ag ∨
      ∃ a, found = some a ∧ Kept P (L.withInode (v.sb.aginoToIno k a)) v v' ∧ (v'.ag? k).isSome ∧
        Present ag.chunks a ∧ v.sb.aginoToIno k a ∉ L.inodes := by
  have ha := hf.addressable
  have hm := h.of_ag? hk hag
  refine leaves_onAg hag ?_
  rcases hm.allocInode ha hk with hnone | ⟨a, ag', hrun, hpres, hnew, hm'⟩
  · exact leaves_of_ok hnone (Or.inl ⟨rfl, kept_putAg_same h ha hag hm, ag?_putAg_self hag⟩)
  · refine leaves_of_ok hrun (Or.inr ⟨a, rfl, kept_putAg h ha hag hm' fun j hj hne => ?_, ?_, hpres, hnew⟩)
    · refine ⟨fun _ _ hL => hL, fun x hx hL => hL.resolve_left fun heq => hne ?_⟩
      have hnum := congrArg v.sb.inoToAgino heq
      rw [ha.inoToAgino_aginoToIno hj hx, ha.inoToAgino_aginoToIno hk (hm.agino_lt ha hpres)] at hnum
      exact (Prod.mk.inj hnum).1
    · rw [ag?_putAg_self hag]
      rfl

theorem nodeMade_of_present {k a : Nat} {ag : Ag} {v₀ : Volume} (hf : v.sb.Fitting) (hk : k < v.sb.agCount)
    (hsb : v.sb = v₀.sb) (hm : Alloc.Minds v.sb k L ag) (hpres : Present ag.chunks a)
    (hnew : v.sb.aginoToIno k a ∉ L.inodes)
    (hkept : Kept (L.Names v₀.sb) (L.withInode (v.sb.aginoToIno k a)) v₀ v') :
    NodeMade L v₀ (v.sb.aginoToIno k a) v' := by
  obtain ⟨hlt, hblock⟩ := hm.nodes a hpres
  have hnode := nodeAt_of_present hf hk hm hpres
  have hlen := hm.agLen
  refine ⟨hkept, ⟨k, blockOf v.sb a, a % 2 ^ v.sb.inopbLog, ag.len, ?_⟩, hnew⟩
  rw [← hsb]
  exact ⟨hnode, hlen, hlt, hblock⟩

/-- An inode is given from the groups of a list, or the ledger is minded as it was. -/
theorem allocInoFrom_leaves {agnos : List Nat} : ∀ {v : Volume}, v.Minds L → v.sb.Fitting →
    (∀ k ∈ agnos, k < v.sb.agCount) →
      Leaves (allocInoFrom agnos) v (fun _ v' => Kept (L.Names v.sb) L v v') (NodeMade L v) := by
  induction agnos with
  | nil =>
    intro v h _ _
    exact leaves_throw h.kept
  | cons k agnos ih =>
    intro v h hf hlt
    have ha := hf.addressable
    have hk := hlt k List.mem_cons_self
    unfold allocInoFrom
    refine (@loadAg_leaves v L (L.Names v.sb) k h hk).bind fun _ v1 hloaded => ?_
    obtain ⟨h1, ag, hag⟩ := hloaded
    refine leaves_get_bind ?_
    have hf1 : v1.sb.Fitting := h1.sb ▸ hf
    have hk1 : k < v1.sb.agCount := h1.sb ▸ hk
    have hone := @allocInode_leaves v1 L (L.Names v.sb) k ag h1.minds hf1 hk1 hag
    refine (hone.mono (fun _ _ hno => hno.elim) fun _ _ => id).bind fun found v2 hfound => ?_
    rcases hfound with ⟨rfl, h12, hag2⟩ | ⟨a, rfl, h12, -, hpres, hnew⟩
    · -- none in the chunks that are there
      have h2 := h1.trans h12
      have hf2 : v2.sb.Fitting := h2.sb ▸ hf
      have hk2 : k < v2.sb.agCount := h2.sb ▸ hk
      simp only
      refine ((@getWriter_still v2).mono (fun _ v3 h3 => h2.trans (h3.kept h2.minds)) fun _ _ => id).bind
        fun w v3 h3 => ?_
      obtain ⟨rfl, -⟩ := h3
      refine Leaves.bind (leaves_liftE (Q := fun _ v4 => v4 = v3) (fun _ _ => h2) fun _ _ => rfl)
        fun _ v4 h4 => ?_
      subst h4
      have hm2 := h2.minds.of_ag? hk2 hag2
      have hsb12 : v1.sb = v4.sb := h1.sb.trans h2.sb.symm
      have hchunk : Leaves (onAg k (allocChunk v1.sb)) v4 (fun _ _ => False) fun placed v5 =>
          placed = none ∧ Kept (L.Names v.sb) L v4 v5 ∨
          ∃ s ag5, placed = some s ∧ Kept (L.Names v.sb) L v4 v5 ∧ v5.ag? k = some ag5 ∧
            s + chunkBlocks v4.sb ≤ v4.sb.agBlocks ∧ ∀ b, s ≤ b → b < s + chunkBlocks v4.sb →
              v4.sb.agbToFsb k b ∉ L.blocks ∧
                ∀ i < v4.sb.inodesPerBlock, v4.sb.aginoToIno k (v4.sb.aginoAt b i) ∉ L.inodes := by
        rw [hsb12]
        refine leaves_onAg hag2 ?_
        rcases hm2.allocChunk hf2.addressable.sound hf2.inodes_le hf2.align hf2.agino_lt with
          hnone | ⟨s, ag5, hrun, hm5, hend, hfree⟩
        · exact leaves_of_ok hnone (Or.inl ⟨rfl, kept_putAg_same h2.minds hf2.addressable hag2 hm2⟩)
        · have hlen := (Superblock.agLen_le hm2.agLen).1
          refine leaves_of_ok hrun (Or.inr ⟨s, ag5, rfl, kept_putAg_same h2.minds hf2.addressable hag2 hm5,
            ag?_putAg_self hag2, hend.trans hlen, fun b hlo hhi => ?_⟩)
          exact hm2.clear_of_free hf2.addressable (by omega) (hfree b hlo hhi)
      refine (hchunk.mono (fun _ _ hno => hno.elim) fun _ _ => id).bind fun placed v5 hplaced => ?_
      rcases hplaced with ⟨rfl, h45⟩ | ⟨s, ag5, rfl, h45, hag5, hend, hclear⟩
      · -- no room for a chunk: the next group
        have h5 := h2.trans h45
        have hrest := @ih v5 h5.minds (h5.sb ▸ hf) fun j hj => h5.sb ▸ hlt j (List.mem_cons_of_mem _ hj)
        rw [h5.sb] at hrest
        refine hrest.mono (fun _ v6 h6 => h5.trans h6) fun ino v6 h6 => ?_
        obtain ⟨hkept, hat, hnew⟩ := h6
        rw [h5.sb] at hkept hat
        exact ⟨h5.trans hkept, hat, hnew⟩
      · have h5 := h2.trans h45
        have hf5 : v5.sb.Fitting := h5.sb ▸ hf
        have hk5 : k < v5.sb.agCount := h5.sb ▸ hk
        simp only
        have htwo := @allocInode_leaves v5 L (L.Names v.sb) k ag5 h5.minds hf5 hk5 hag5
        refine (htwo.mono (fun _ _ hno => hno.elim) fun _ _ => id).bind fun found v6 hfound => ?_
        rcases hfound with ⟨rfl, h56, -⟩ | ⟨a, rfl, h56, hmem, hpres, hnew⟩
        · exact leaves_throw (h5.trans h56)
        · have h6 := h5.trans h56
          have hback := Ledger.le_withInode L (v5.sb.aginoToIno k a)
          obtain ⟨ag6, hag6⟩ := Option.isSome_iff_exists.mp hmem
          simp only
          refine ((@modifyWriter_still v6 (fun w => { w with newChunks := w.newChunks + 1 })
            fun _ _ => rfl).mono (fun _ v7 h7 => (h6.trans (h7.kept h6.minds)).mono ha hback)
            fun _ _ => id).bind fun _ v7 h7 => ?_
          have h7k := h6.trans (h7.kept (P := L.Names v.sb) h6.minds)
          have hsb47 : v4.sb = v7.sb := h2.sb.trans h7k.sb.symm
          have hinit := @initChunk_leaves v7 L (L.withInode (v5.sb.aginoToIno k a)) k s ag6 h7k.minds
            (h7k.sb ▸ hf) (h7k.sb ▸ hk) ((h7.ags k).trans hag6) (hsb47 ▸ hend) (hsb47 ▸ hclear)
          rw [h7k.sb] at hinit
          refine (hinit.mono (fun _ v8 h8 => (h7k.trans h8).mono ha hback) fun _ _ => id).bind
            fun _ v8 h8 => ?_
          have hsb5 : v1.sb = v5.sb := h1.sb.trans h5.sb.symm
          rw [hsb5]
          exact leaves_pure (nodeMade_of_present hf5 hk5 h5.sb (h5.minds.of_ag? hk5 hag5) hpres hnew
            (h7k.trans h8))
    · exact leaves_pure (nodeMade_of_present hf1 hk1 h1.sb (h1.minds.of_ag? hk1 hag) hpres hnew
        (h1.trans h12))

theorem allocIno_leaves {pref : Nat} (h : v.Minds L) (hf : v.sb.Fitting) :
    Leaves (allocIno pref) v (fun _ v' => Kept (L.Names v.sb) L v v') (NodeMade L v) := by
  unfold allocIno
  refine leaves_get_bind (Leaves.bind (leaves_liftE (Q := fun agnos v' =>
    agOrder v.sb pref = .ok agnos ∧ v' = v) (fun _ _ => h.kept) fun agnos hord => ⟨hord, rfl⟩)
    fun agnos v1 h1 => ?_)
  obtain ⟨hord, rfl⟩ := h1
  exact allocInoFrom_leaves h hf fun k hk => mem_agOrder hf.addressable.sound.agCount_pos hord hk

/-- An inode that was given and never written is given back. -/
theorem unallocIno_leaves {ino : Nat} (h : v.Minds (L.withInode ino)) (hf : v.sb.Fitting)
    (hat : ∃ k b i, NodeAt v.sb ino k b i) (hnew : ino ∉ L.inodes) :
    Leaves (unallocIno ino) v (fun _ v' => Kept P L v v') fun _ v' => Kept P L v v' := by
  have ha := hf.addressable
  obtain ⟨k, b, i, hnode⟩ := hat
  have hnum : v.sb.inoToAgino ino = (k, v.sb.aginoAt b i) := by
    rw [← hnode.number]
    exact ha.inoToAgino_aginoToIno hnode.ag (ha.aginoAt_lt hnode.block hnode.index)
  unfold unallocIno
  refine leaves_get_bind ?_
  rw [hnum]
  have hback := Ledger.le_withInode L ino
  cases hag : v.ag? k with
  | none =>
    obtain ⟨e, hrun⟩ := @onAg_absent v k Unit (freeInode (v.sb.aginoAt b i)) hag
    exact leaves_of_error hrun (h.kept.mono ha hback)
  | some ag =>
    have hm := h.of_ag? hnode.ag hag
    have hfree := hm.freeInode (i := v.sb.aginoAt b i) (.of_le hback) (by rw [hnode.number]; exact hnew)
    refine leaves_onAg hag (hfree.mono (fun _ ag' heq => ?_) fun _ ag' hm' => ?_)
    · subst heq
      exact (kept_putAg_same h ha hag hm).mono ha hback
    · exact kept_putAg h ha hag hm' fun _ _ _ => .of_le hback

/-- The directory, the name and the new inode that a node is made of. -/
structure NodeReady (L : Ledger) (v : Volume) (mode uid gid nlink : Nat) (node : Nat × Bytes × Nat × Bytes)
    (v' : Volume) : Prop where
  made : NodeMade L v node.2.2.1 v'
  raw_eq : ∃ gen t, node.2.2.2 = freshRaw v.sb node.2.2.1 mode uid gid nlink gen t

theorem createNode_leaves {path : Bytes} {mode uid gid nlink : Nat} (h : v.Minds L) (hf : v.sb.Fitting) :
    Leaves (createNode path mode uid gid nlink) v (fun _ v' => Kept (L.Names v.sb) L v v')
      (NodeReady L v mode uid gid nlink) := by
  have hkept : ∀ {P : Nat → Prop}, Kept P L v v := h.kept
  unfold createNode
  refine leaves_get_bind ?_
  refine Leaves.bind (leaves_liftE (Q := fun _ v1 => v1 = v) (fun _ _ => hkept) fun _ _ => rfl)
    fun dir v1 h1 => ?_
  subst h1
  obtain ⟨dino, name⟩ := dir
  simp only
  refine Leaves.bind (leaves_liftE (Q := fun _ v2 => v2 = v1) (fun _ _ => hkept) fun _ _ => rfl)
    fun found v2 h2 => ?_
  subst h2
  refine Leaves.bind (leaves_throwIf (Q := fun _ v3 => v3 = v2) (fun _ => hkept) fun _ => rfl)
    fun _ v3 h3 => ?_
  subst h3
  refine ((@writer_still v3).mono (fun _ v4 h4 => h4.kept h) fun _ _ => id).bind fun _ v4 h4 => ?_
  have hkept4 : Kept (L.Names v3.sb) L v3 v4 := h4.kept h
  have hino := @allocIno_leaves v4 L (v3.sb.inoToAgino dino).1 hkept4.minds (hkept4.sb ▸ hf)
  rw [hkept4.sb] at hino
  refine (hino.mono (fun _ v5 h5 => hkept4.trans h5) fun _ _ => id).bind fun ino v5 h5 => ?_
  obtain ⟨hkept45, hat, hnew⟩ := h5
  rw [hkept4.sb] at hkept45 hat
  have hkept5 := hkept4.trans hkept45
  have hback := Ledger.le_withInode L ino
  refine ((@newRaw_leaves v5 ino mode uid gid nlink).mono (fun _ v6 h6 =>
    (hkept5.trans (h6.kept hkept5.minds)).mono hf.addressable hback) fun _ _ => id).bind fun raw v6 h6 => ?_
  obtain ⟨hstill, gen, t, hraw⟩ := h6
  rw [hkept5.sb] at hraw
  exact leaves_pure ⟨⟨hkept5.trans (hstill.kept hkept5.minds), hat, hnew⟩, gen, t, hraw⟩

/-! ## Writing it -/

/-- The bytes of an inode's slot, in a block of the device. -/
structure SlotAt (d : Device) (sb : Superblock) (ino : Nat) (a : Bytes) : Prop where
  placed : ∃ at_, sb.inoToByte ino = .ok at_ ∧ at_ / sb.blockSize * sb.blockSize + sb.blockSize ≤ d.size ∧
    slice d.data at_ sb.inodeSize = a
  length_eq : a.length = sb.inodeSize

/-- Where an inode is. -/
theorem NodeAt.inoToByte {sb : Superblock} {ino k b i at_ : Nat} (hn : NodeAt sb ino k b i) (hf : sb.Fitting)
    (hat : sb.inoToByte ino = .ok at_) : at_ = (k * sb.agBlocks + b) * sb.blockSize + i * sb.inodeSize := by
  have hne : ino ≠ 0 := by
    rintro rfl
    unfold Superblock.inoToByte at hat
    simp only [true_or, if_true] at hat
    cases hat
  have hplace := hf.addressable.inoToByte_aginoToIno hn.ag hn.block hn.index (hn.number ▸ hne)
  rw [hn.number, hat, hf.addressable.agbToByte_eq hn.ag hn.block] at hplace
  exact Except.ok.inj hplace

/-- The bytes of a slot carry its number. -/
theorem NodeAt.byteIno {sb : Superblock} {ino k b i at_ p : Nat} (hn : NodeAt sb ino k b i) (hf : sb.Fitting)
    (hat : sb.inoToByte ino = .ok at_) (hlo : at_ ≤ p) (hhi : p < at_ + sb.inodeSize) :
    sb.byteAg p < sb.agCount ∧ sb.byteIno p = ino := by
  have heq := hn.inoToByte hf hat
  obtain ⟨hag, hagb, hidx⟩ := Superblock.byte_of_inode hf.addressable hn.block hn.index (heq ▸ hlo)
    (by rw [heq] at hhi; exact hhi)
  refine ⟨hag.trans_lt hn.ag, ?_⟩
  unfold Superblock.byteIno
  rw [hag, hagb, hidx]
  exact hn.number

/-- A slot stays where its bytes do. -/
theorem SlotAt.sameOn {sb : Superblock} {ino k b i : Nat} {a : Bytes} {d d' : Device}
    (h : SlotAt d sb ino a) (hf : sb.Fitting) (hn : NodeAt sb ino k b i) (hsame : Device.SameOn P d d')
    (hP : ∀ p, sb.byteAg p < sb.agCount → sb.byteIno p = ino → P p) : SlotAt d' sb ino a := by
  obtain ⟨⟨at_, hat, hfit, hslice⟩, hlen⟩ := h
  refine ⟨⟨at_, hat, hsame.size_eq ▸ hfit, ?_⟩, hlen⟩
  rw [← hslice]
  refine List.ext_getElem? fun j => ?_
  rw [getElem?_slice, getElem?_slice]
  split
  · rename_i hj
    obtain ⟨hag, hino⟩ := hn.byteIno hf hat (Nat.le_add_right _ _) (Nat.add_lt_add_left hj _)
    exact hsame.bytes _ (hP _ hag hino)
  · rfl

/-- A slot is parsed, whatever else its block holds. -/
theorem parse_append {sb : Superblock} {ino : Nat} {a rest : Bytes} (hlen : a.length = sb.inodeSize) :
    Inode.parse sb ino (a ++ rest) = Inode.parse sb ino a := by
  have htake : (a ++ rest).take sb.inodeSize = a.take sb.inodeSize := by
    rw [← hlen, List.take_left, List.take_length]
  have hlong : ¬(a ++ rest).length < sb.inodeSize := by
    rw [List.length_append]
    omega
  have hwhole : ¬a.length < sb.inodeSize := by omega
  unfold Inode.parse
  rw [except_throwIf_bind_of_not hlong, except_throwIf_bind_of_not hwhole]
  simp only [htake]

theorem SlotAt.inode_eq {ino : Nat} {a : Bytes} (h : SlotAt v.dev v.sb ino a) (hs : v.sb.Sound) :
    v.inode ino = Inode.parse v.sb ino a := by
  obtain ⟨⟨at_, hat, hfit, hslice⟩, hlen⟩ := h
  obtain ⟨hin, -⟩ := inoToByte_place hs hat
  have hread : v.dev.readAt (at_ / v.sb.blockSize * v.sb.blockSize) v.sb.blockSize =
      .ok (slice v.dev.data (at_ / v.sb.blockSize * v.sb.blockSize) v.sb.blockSize) := if_pos hfit
  have hsplit := Nat.div_add_mod at_ v.sb.blockSize
  rw [Nat.mul_comm] at hsplit
  have hdrop : (slice v.dev.data (at_ / v.sb.blockSize * v.sb.blockSize) v.sb.blockSize).drop
      (at_ % v.sb.blockSize) = a ++ slice v.dev.data (at_ + v.sb.inodeSize)
        (v.sb.blockSize - (at_ % v.sb.blockSize + v.sb.inodeSize)) := by
    rw [← hslice]
    unfold slice
    rw [List.drop_take, List.drop_drop, hsplit, ← List.drop_drop, ← List.take_add]
    congr 1
    omega
  unfold inode
  simp only [hat, except_ok_bind, hread, hdrop]
  exact parse_append hlen

theorem SlotAt.readRaw_eq {ino : Nat} {a : Bytes} (h : SlotAt v.dev v.sb ino a) (hs : v.sb.Sound)
    (hmagic : be16 a 0 = Inode.MAGIC) (hcrc : Crc.verify a INODE_CRC = true) (hnum : be64 a 152 = ino) :
    v.readRaw ino = .ok a := by
  obtain ⟨⟨at_, hat, hfit, hslice⟩, hlen⟩ := h
  obtain ⟨hin, -⟩ := inoToByte_place hs hat
  have hsplit := Nat.div_add_mod at_ v.sb.blockSize
  rw [Nat.mul_comm] at hsplit
  have hread : v.dev.readAt at_ v.sb.inodeSize = .ok a := by
    rw [← hslice]
    exact if_pos (by omega)
  unfold readRaw
  rw [hat, except_ok_bind, hread, except_ok_bind, except_throwIf_bind_of_not]
  · rfl
  · rintro (hne | hne | hne)
    · exact hne hmagic
    · rw [hcrc] at hne
      cases hne
    · exact hne hnum

/-- A part that is read, changed and put back. -/
theorem splice_splice_slice {α : Type} {b d : List α} {o n j : Nat} (hd : j + d.length ≤ n)
    (hn : o + n ≤ b.length) : splice b o (splice (slice b o n) j d) = splice b (o + j) d := by
  have hlen : (slice b o n).length = n := length_slice hn
  have hmade : (splice (slice b o n) j d).length = n := (length_splice (by omega)).trans hlen
  refine List.ext_getElem? fun p => ?_
  rw [@getElem?_splice α b (splice (slice b o n) j d) o (by omega),
    @getElem?_splice α b d (o + j) (by omega), hmade, @getElem?_splice α _ d j (by omega), getElem?_slice]
  by_cases hbefore : p < o
  · rw [if_pos hbefore, if_pos (by omega)]
  rw [if_neg hbefore, Nat.add_sub_cancel' (Nat.le_of_not_lt hbefore), Nat.sub_sub]
  by_cases hin : p < o + n
  · rw [if_pos hin, if_pos (by omega : p - o < n)]
    by_cases hlow : p < o + j
    · rw [if_pos hlow, if_pos (by omega)]
    · rw [if_neg hlow, if_neg (by omega)]
      by_cases hmid : p < o + j + d.length
      · rw [if_pos hmid, if_pos (by omega)]
      · rw [if_neg hmid, if_neg (by omega)]
  · rw [if_neg hin, if_neg (by omega), if_neg (by omega)]

/-- Byte `p` is of inode `ino`. -/
def OfIno (sb : Superblock) (ino p : Nat) : Prop := sb.byteAg p < sb.agCount ∧ sb.byteIno p = ino

/-- Writing an inode changes the bytes of its own slot. -/
theorem writeRaw_slot {ino k b i : Nat} {raw : Bytes} (hf : v.sb.Fitting) (hn : NodeAt v.sb ino k b i)
    (hlen : raw.length = v.sb.inodeSize) :
    Leaves (writeRaw ino raw) v
      (fun _ v' => ∃ d, v' = { v with dev := d } ∧ Device.SameOn (fun p => ¬OfIno v.sb ino p) v.dev d)
      fun _ v' => ∃ d, v' = { v with dev := d } ∧ Device.SameOn (fun p => ¬OfIno v.sb ino p) v.dev d ∧
        SlotAt d v.sb ino (Crc.stamp raw INODE_CRC) := by
  have hs := hf.addressable.sound
  have hsame : ∃ d, v = { v with dev := d } ∧ Device.SameOn (fun p => ¬OfIno v.sb ino p) v.dev d :=
    ⟨v.dev, rfl, .refl _ _⟩
  unfold writeRaw
  refine leaves_get_bind ?_
  simp only
  refine Leaves.bind (leaves_liftE (Q := fun at_ v1 => v.sb.inoToByte ino = .ok at_ ∧ v1 = v)
    (fun _ _ => hsame) fun at_ hat => ⟨hat, rfl⟩) fun at_ v1 h1 => ?_
  obtain ⟨hat, rfl⟩ := h1
  refine Leaves.bind (leaves_liftE (Q := fun buf v2 => v1.dev.readAt (at_ / v1.sb.blockSize *
    v1.sb.blockSize) v1.sb.blockSize = .ok buf ∧ v2 = v1) (fun _ _ => hsame) fun buf hbuf => ⟨hbuf, rfl⟩)
    fun buf v2 h2 => ?_
  obtain ⟨hbuf, rfl⟩ := h2
  have hsize := hs.inodeSize_ge
  have hstamp : (Crc.stamp raw INODE_CRC).length = v2.sb.inodeSize :=
    (Crc.length_stamp (by unfold INODE_CRC; omega)).trans hlen
  obtain ⟨hinside, -⟩ := inoToByte_place hs hat
  have hbuflen := Device.length_of_readAt hbuf
  have hfit : at_ / v2.sb.blockSize * v2.sb.blockSize + v2.sb.blockSize ≤ v2.dev.size := by
    unfold Device.readAt at hbuf
    split at hbuf
    · assumption
    · cases hbuf
  have hbufeq : buf = slice v2.dev.data (at_ / v2.sb.blockSize * v2.sb.blockSize) v2.sb.blockSize := by
    unfold Device.readAt at hbuf
    rw [if_pos hfit] at hbuf
    exact (Except.ok.inj hbuf).symm
  have hsplit := Nat.div_add_mod at_ v2.sb.blockSize
  rw [Nat.mul_comm] at hsplit
  have hoff : at_ - at_ / v2.sb.blockSize * v2.sb.blockSize = at_ % v2.sb.blockSize := by omega
  rw [hoff]
  have hsplice : at_ % v2.sb.blockSize + (Crc.stamp raw INODE_CRC).length ≤ buf.length := by omega
  have hwhole : (splice buf (at_ % v2.sb.blockSize) (Crc.stamp raw INODE_CRC)).length = v2.sb.blockSize :=
    (length_splice hsplice).trans hbuflen
  -- only the slot's bytes are new: the rest of the block is written as it was read
  have hframe : ∀ d, Device.SameOn (fun p => p < at_ ∨ at_ + v2.sb.inodeSize ≤ p) v2.dev d →
      Device.SameOn (fun p => ¬OfIno v2.sb ino p) v2.dev d := by
    refine fun d hd => hd.mono fun p hp => ?_
    by_contra hmeet
    exact hp (hn.byteIno hf hat (by omega : at_ ≤ p) (by omega))
  refine leaves_onDev (leaves_iff.mpr ⟨fun _ d hw => ?_, fun e d hw => ?_⟩)
  · obtain ⟨hroom, hdata⟩ := Device.writeAt_ok hw
    rw [hwhole] at hroom
    have hbyte : ∀ p, d.data[p]? = if p < at_ then v2.dev.data[p]? else
        if p < at_ + v2.sb.inodeSize then (Crc.stamp raw INODE_CRC)[p - at_]? else v2.dev.data[p]? := by
      intro p
      rw [hdata, hbufeq, splice_splice_slice (by rw [hstamp]; omega) hroom, hsplit,
        getElem?_splice (by unfold Device.size at hroom; omega), hstamp]
    have hsize' : d.size = v2.dev.size := Device.size_writeAt hw
    refine ⟨d, rfl, hframe d ⟨hsize', fun p hp => ?_⟩, ⟨at_, hat, hsize' ▸ hfit, ?_⟩, hstamp⟩
    · rw [hbyte]
      rcases hp with hp | hp
      · rw [if_pos hp]
      · rw [if_neg (by omega), if_neg (by omega)]
    · refine List.ext_getElem? fun j => ?_
      rw [getElem?_slice]
      split
      · rename_i hj
        rw [hbyte, if_neg (by omega), if_pos (by omega), Nat.add_sub_cancel_left]
      · rename_i hj
        rw [List.getElem?_eq_none (by omega)]
  · refine ⟨d, rfl, hframe d ?_⟩
    -- a failed write leaves all bytes
    unfold Device.writeAt at hw
    split at hw
    · split at hw
      · rename_i d1 hfault
        obtain ⟨-, rfl⟩ := EStateM.Result.error.inj hw
        have hd1 : d1.data = v2.dev.data := by
          have := Device.nextFault_data v2.dev
          rwa [hfault] at this
        exact ⟨congrArg List.length hd1, fun p _ => by rw [hd1]⟩
      · cases hw
    · obtain ⟨-, rfl⟩ := EStateM.Result.error.inj hw
      exact .refl _ _

/-- The ledger may name it, and keeps the bytes of all else it names. -/
theorem writeRaw_leaves {ino k b i : Nat} {raw : Bytes} (h : v.Minds L') (hf : v.sb.Fitting)
    (hn : NodeAt v.sb ino k b i) (hlacks : LacksNode v.sb L ino) (hin : ino ∈ L'.inodes)
    (hlen : raw.length = v.sb.inodeSize) :
    Leaves (writeRaw ino raw) v (fun _ v' => Kept (L.Names v.sb) L' v v')
      fun _ v' => Kept (L.Names v.sb) L' v v' ∧ SlotAt v'.dev v.sb ino (Crc.stamp raw INODE_CRC) := by
  have hkept : ∀ d, Device.SameOn (fun p => ¬OfIno v.sb ino p) v.dev d →
      Kept (L.Names v.sb) L' v { v with dev := d } := by
    refine fun d hd => ⟨rfl, hd.mono fun p hp hof => hlacks p hof.1 hof.2 hp,
      h.of_dev rfl (fun _ => rfl) (hd.mono fun p hp hof => hp.2 (Or.inr ?_))⟩
    rw [hof.2]
    exact hin
  refine (writeRaw_slot hf hn hlen).mono (fun _ v' h' => ?_) fun _ v' h' => ?_
  · obtain ⟨d, rfl, hd⟩ := h'
    exact hkept d hd
  · obtain ⟨d, rfl, hd, hslot⟩ := h'
    exact ⟨hkept d hd, hslot⟩

end

end Volume

end FioXfs
