import FioXfs.Addresses
import FioXfs.Alloc.Chunks
import FioXfs.Lib.Leaves
import FioXfs.Write.Stored
set_option autoImplicit false

/-!
# What is spoken for

A ledger names blocks that are somebody's and inodes that are in use.  A volume minds it when in
each group, in memory or as it may come to be read, none of those blocks is free or an inode's
and all of those inodes are in use.  Reading a group in, taking what is free, giving back what
leaves the ledger and writing to what is not somebody else's all go on minding it.
-/

namespace FioXfs

open FioXfs.Lib FioXfs.Alloc FioXfs.Bmap

/-! ## Bytes that stay -/

namespace Device

/-- The devices have the same bytes wherever `P` holds. -/
structure SameOn (P : Nat → Prop) (d d' : Device) : Prop where
  size_eq : d'.size = d.size
  bytes : ∀ p, P p → d'.data[p]? = d.data[p]?

section
variable {P P' : Nat → Prop} {d d' d'' : Device} {a n o : Nat}

theorem SameOn.refl (P : Nat → Prop) (d : Device) : SameOn P d d := ⟨rfl, fun _ _ => rfl⟩

theorem SameOn.trans (h : SameOn P d d') (h' : SameOn P d' d'') : SameOn P d d'' :=
  ⟨h'.size_eq.trans h.size_eq, fun p hp => (h'.bytes p hp).trans (h.bytes p hp)⟩

theorem SameOn.symm (h : SameOn P d d') : SameOn P d' d :=
  ⟨h.size_eq.symm, fun p hp => (h.bytes p hp).symm⟩

theorem SameOn.mono (h : SameOn P d d') (hP : ∀ p, P' p → P p) : SameOn P' d d' :=
  ⟨h.size_eq, fun p hp => h.bytes p (hP p hp)⟩

theorem WroteIn.sameOn (h : WroteIn d d' a n) (hP : ∀ p, P p → p < a ∨ a + n ≤ p) : SameOn P d d' :=
  ⟨h.size_eq, fun p hp => h.outside p (hP p hp)⟩

/-- A read of bytes that stay gives what it gave. -/
theorem SameOn.readAt_eq (h : SameOn P d d') (hP : ∀ p, o ≤ p → p < o + n → P p) :
    d'.readAt o n = d.readAt o n := by
  unfold readAt
  rw [h.size_eq]
  split
  · congr 1
    refine List.ext_getElem? fun i => ?_
    rw [getElem?_slice, getElem?_slice]
    split
    · exact h.bytes _ (hP _ (Nat.le_add_right _ _) (by omega))
    · rfl
  · rfl

/-- A write leaves the other bytes, and a failed one leaves all. -/
theorem writeAt_wroteIn {buf : Bytes} : Leaves (writeAt a buf) d
    (fun _ d' => WroteIn d d' a buf.length) fun _ d' => WroteIn d d' a buf.length := by
  refine leaves_iff.mpr ⟨fun _ d' h => ?_, fun e d' h => ?_⟩
  · obtain ⟨hle, hdata⟩ := writeAt_ok h
    refine ⟨size_writeAt h, fun p hp => ?_⟩
    rw [hdata, getElem?_splice (by unfold size at hle; omega)]
    rcases hp with hp | hp
    · rw [if_pos hp]
    · rw [if_neg (by omega), if_neg (by omega)]
  · unfold writeAt at h
    split at h
    · split at h
      · rename_i d1 hf
        obtain ⟨-, rfl⟩ := EStateM.Result.error.inj h
        have hdata : d1.data = d.data := by
          have := nextFault_data d
          rwa [hf] at this
        exact ⟨congrArg List.length hdata, fun p _ => by rw [hdata]⟩
      · cases h
    · obtain ⟨-, rfl⟩ := EStateM.Result.error.inj h
      exact .refl _ _ _

end

end Device

/-! ## Where a byte is -/

namespace Superblock

/-- The group of byte `p`, its block in that group, and its place among the block's inodes. -/
def byteAg (sb : Superblock) (p : Nat) : Nat := p / sb.blockSize / sb.agBlocks
def byteAgb (sb : Superblock) (p : Nat) : Nat := p / sb.blockSize % sb.agBlocks
def byteIndex (sb : Superblock) (p : Nat) : Nat := p % sb.blockSize / sb.inodeSize

/-- The block and the inode that byte `p` is of. -/
def byteFsb (sb : Superblock) (p : Nat) : Nat := sb.agbToFsb (sb.byteAg p) (sb.byteAgb p)
def byteIno (sb : Superblock) (p : Nat) : Nat :=
  sb.aginoToIno (sb.byteAg p) (sb.aginoAt (sb.byteAgb p) (sb.byteIndex p))

section
variable {sb : Superblock} {k b i p : Nat}

theorem byteAgb_lt (hs : sb.Sound) (p : Nat) : sb.byteAgb p < sb.agBlocks :=
  Nat.mod_lt _ hs.agBlocks_pos

theorem byteIndex_lt (hs : sb.Sound) (p : Nat) : sb.byteIndex p < sb.inodesPerBlock := by
  have hsize : 0 < sb.inodeSize := by have := hs.inodeSize_ge; omega
  unfold byteIndex
  rw [Nat.div_lt_iff_lt_mul hsize, hs.inode_fill]
  exact Nat.mod_lt _ hs.blockSize_pos

/-- A byte of block `b` of AG `k`. -/
theorem byte_of_block (hs : sb.Sound) (hb : b < sb.agBlocks)
    (hlo : (k * sb.agBlocks + b) * sb.blockSize ≤ p)
    (hhi : p < (k * sb.agBlocks + b) * sb.blockSize + sb.blockSize) :
    sb.byteAg p = k ∧ sb.byteAgb p = b := by
  have hbs := hs.blockSize_pos
  have hdiv : p / sb.blockSize = k * sb.agBlocks + b :=
    Nat.div_eq_of_lt_le hlo (by rw [Nat.succ_mul]; exact hhi)
  unfold byteAg byteAgb
  rw [hdiv, Nat.mul_comm k, Nat.mul_add_div hs.agBlocks_pos, Nat.mul_add_mod, Nat.div_eq_of_lt hb,
    Nat.mod_eq_of_lt hb]
  exact ⟨Nat.add_zero _, rfl⟩

/-- A byte of the `i`th inode of block `b` of AG `k`. -/
theorem byte_of_inode (h : sb.Addressable) (hb : b < sb.agBlocks) (hi : i < sb.inodesPerBlock)
    (hlo : (k * sb.agBlocks + b) * sb.blockSize + i * sb.inodeSize ≤ p)
    (hhi : p < (k * sb.agBlocks + b) * sb.blockSize + i * sb.inodeSize + sb.inodeSize) :
    sb.byteAg p = k ∧ sb.byteAgb p = b ∧ sb.byteIndex p = i := by
  have hs := h.sound
  have hbs := hs.blockSize_pos
  have hsize := hs.inodeSize_ge
  have hend := h.inode_inside hi
  obtain ⟨hk, hbeq⟩ := @byte_of_block sb k b p hs hb (by omega) (by omega)
  refine ⟨hk, hbeq, ?_⟩
  obtain ⟨q, rfl⟩ := Nat.exists_eq_add_of_le ((Nat.le_add_right _ _).trans hlo)
  unfold byteIndex
  rw [Nat.mul_comm, Nat.mul_add_mod, Nat.mod_eq_of_lt (by omega)]
  exact Nat.div_eq_of_lt_le (by omega) (by rw [Nat.succ_mul]; omega)

end

end Superblock

/-! ## The ledger -/

/-- Blocks that are somebody's, and inodes in use, by their numbers in the filesystem. -/
@[ext]
structure Ledger where
  blocks : Set Nat
  inodes : Set Nat

/-- The blocks of runs. -/
def covered (runs : List (Nat × Nat)) : Set Nat := {x | ∃ r ∈ runs, r.1 ≤ x ∧ x < r.1 + r.2}

namespace Ledger

/-- The ledger with more blocks. -/
def withBlocks (L : Ledger) (R : Set Nat) : Ledger := ⟨L.blocks ∪ R, L.inodes⟩

/-- The ledger with one more inode. -/
def withInode (L : Ledger) (ino : Nat) : Ledger := ⟨L.blocks, insert ino L.inodes⟩

/-- All that `L` names. -/
instance instLELedger : LE Ledger := ⟨fun L L' => L.blocks ⊆ L'.blocks ∧ L.inodes ⊆ L'.inodes⟩

/-- The ledger names nothing of these blocks, neither them nor an inode in them. -/
structure Lacks (sb : Superblock) (L : Ledger) (R : Set Nat) : Prop where
  blocks : ∀ x ∈ R, x ∉ L.blocks
  inodes : ∀ k < sb.agCount, ∀ b < sb.agBlocks, sb.agbToFsb k b ∈ R → ∀ i < sb.inodesPerBlock,
    sb.aginoToIno k (sb.aginoAt b i) ∉ L.inodes

/-- What the ledger names of AG `k` is also named by `L'`. -/
structure SubOn (sb : Superblock) (k : Nat) (L L' : Ledger) : Prop where
  blocks : ∀ b < sb.agBlocks, sb.agbToFsb k b ∈ L.blocks → sb.agbToFsb k b ∈ L'.blocks
  inodes : ∀ i < 2 ^ sb.aginoLog, sb.aginoToIno k i ∈ L.inodes → sb.aginoToIno k i ∈ L'.inodes

/-- Byte `p` is of something the ledger names. -/
def Names (sb : Superblock) (L : Ledger) (p : Nat) : Prop :=
  sb.byteFsb p ∈ L.blocks ∨ sb.byteIno p ∈ L.inodes

section
variable {sb : Superblock} {k : Nat} {L L' L'' : Ledger} {p : Nat}

theorem SubOn.refl (sb : Superblock) (k : Nat) (L : Ledger) : SubOn sb k L L :=
  ⟨fun _ _ => id, fun _ _ => id⟩

theorem SubOn.of_le (h : L ≤ L') : SubOn sb k L L' := ⟨fun _ _ hx => h.1 hx, fun _ _ hx => h.2 hx⟩

theorem le_trans (h : L ≤ L') (h' : L' ≤ L'') : L ≤ L'' := ⟨h.1.trans h'.1, h.2.trans h'.2⟩

theorem le_withBlocks (L : Ledger) (R : Set Nat) : L ≤ L.withBlocks R :=
  ⟨Set.subset_union_left, subset_rfl⟩

theorem le_withInode (L : Ledger) (ino : Nat) : L ≤ L.withInode ino :=
  ⟨subset_rfl, Set.subset_insert _ _⟩

theorem Names.mono (h : L ≤ L') (hp : L.Names sb p) : L'.Names sb p :=
  hp.imp (fun hb => h.1 hb) fun hi => h.2 hi

theorem SubOn.names (h : SubOn sb k L L') (ha : sb.Addressable) (hp : sb.byteAg p = k)
    (hL : L.Names sb p) : L'.Names sb p := by
  have hb := Superblock.byteAgb_lt ha.sound p
  have hi := Superblock.byteIndex_lt ha.sound p
  subst hp
  exact hL.imp (h.blocks _ hb) (h.inodes _ (ha.aginoAt_lt hb hi))

end

end Ledger

namespace Alloc

/-- Group `k` minds the ledger: the blocks it names are not free and no inode's, the inodes
are in use. -/
structure Minds (sb : Superblock) (k : Nat) (L : Ledger) (ag : Ag) : Prop where
  kept : ChunksKept sb ag {i | i < 2 ^ sb.aginoLog ∧ sb.aginoToIno k i ∈ L.inodes}
  agLen : sb.agLen k = .ok ag.len
  blocks : ∀ b < sb.agBlocks, sb.agbToFsb k b ∈ L.blocks → b < ag.len ∧ freeAt ag.free b = 0
  nodes : ∀ i, Present ag.chunks i → blockOf sb i < ag.len ∧ sb.agbToFsb k (blockOf sb i) ∉ L.blocks

section
variable {sb : Superblock} {k s n : Nat} {L L' : Ledger} {ag ag' : Ag}

theorem Minds.mono (h : Minds sb k L' ag) (hsub : L.SubOn sb k L') : Minds sb k L ag where
  kept := { h.kept with used := fun i hi => h.kept.used i ⟨hi.1, hsub.inodes i hi.1 hi.2⟩ }
  agLen := h.agLen
  blocks b hb hL := h.blocks b hb (hsub.blocks b hb hL)
  nodes i hi := by
    obtain ⟨hlt, hnot⟩ := h.nodes i hi
    have hle := (Superblock.agLen_le h.agLen).1
    exact ⟨hlt, fun hL => hnot (hsub.blocks _ (hlt.trans_le hle) hL)⟩

/-- The block of an inode that is there is not free. -/
theorem Minds.node_held (h : Minds sb k L ag) {i : Nat} (hi : Present ag.chunks i) :
    freeAt ag.free (blockOf sb i) = 0 := by
  obtain ⟨e, he, ⟨hlo, hhi⟩, hhole⟩ := hi
  have htaken := (h.kept.chunks.sound e he).taken (i - e.1) (by omega) hhole
  rwa [Nat.add_sub_cancel' hlo] at htaken

/-- A group with the same space and chunks. -/
theorem Minds.of_same (h : Minds sb k L ag) (hfree : ag'.free = ag.free)
    (htotal : ag'.freeTotal = ag.freeTotal) (hlen : ag'.len = ag.len) (hagi : ag'.agi = ag.agi)
    (hchunks : ag'.chunks = ag.chunks) : Minds sb k L ag' where
  kept :=
    { space := h.kept.space.of_same hfree htotal hlen
      len_le := hlen ▸ h.kept.len_le
      agi := hagi ▸ h.kept.agi
      chunks := ⟨by rw [hchunks, hfree]; exact h.kept.chunks.sound, by rw [hchunks]; exact h.kept.chunks.apart⟩
      used := by rw [hchunks]; exact h.kept.used }
  agLen := hlen ▸ h.agLen
  blocks b hb hL := by
    rw [hlen, hfree]
    exact h.blocks b hb hL
  nodes i hi := by
    rw [hlen]
    rw [hchunks] at hi
    exact h.nodes i hi

/-- What a group has taken of it was free, so it is nobody's, and can be put in the ledger. -/
theorem Minds.allocated (h : Minds sb k L ag) (ha : Allocated ag ag' s n)
    (hsub : ∀ b < sb.agBlocks, sb.agbToFsb k b ∈ L'.blocks →
      sb.agbToFsb k b ∈ L.blocks ∨ s ≤ b ∧ b < s + n)
    (hino : L'.inodes = L.inodes) :
    Minds sb k L' ag' ∧ s + n ≤ ag.len ∧ ∀ b < sb.agBlocks, s ≤ b → b < s + n →
      sb.agbToFsb k b ∉ L.blocks := by
  have hspace := h.kept.space
  have hpos := ha.pos
  have hal := ha
  obtain ⟨free', htakes, rfl⟩ := ha.takes
  have hle : ∀ b, freeAt free' b ≤ freeAt ag.free b := fun b => by
    have := htakes.at_ b
    omega
  have hrun : ∀ b, s ≤ b → b < s + n → freeAt ag.free b = 1 ∧ freeAt free' b = 0 := by
    intro b hlo hhi
    have hat := htakes.at_ b
    have honce := hspace.freeOk.once b
    rw [within_eq_one.mpr ⟨hlo, hhi⟩] at hat
    omega
  have hend : s + n ≤ ag.len := by
    have hlast := hspace.inside (s + n - 1) (by rw [(hrun _ (by omega) (by omega)).1]; omega)
    omega
  refine ⟨?_, hend, fun b hb hlo hhi hL => ?_⟩
  · exact
      { kept :=
          { space := hspace.allocated hal
            len_le := h.kept.len_le
            agi := h.kept.agi
            chunks := ⟨fun e he => (h.kept.chunks.sound e he).of_le hle, h.kept.chunks.apart⟩
            used := by rw [hino]; exact h.kept.used }
        agLen := h.agLen
        blocks := fun b hb hL => by
          rcases hsub b hb hL with hL | hin
          · obtain ⟨hlt, hzero⟩ := h.blocks b hb hL
            exact ⟨hlt, Nat.le_zero.mp (hzero ▸ hle b)⟩
          · exact ⟨by simp only; omega, (hrun b hin.1 hin.2).2⟩
        nodes := fun i hi => by
          obtain ⟨hlt, hnot⟩ := h.nodes i hi
          refine ⟨hlt, fun hL => ?_⟩
          have hlen := (Superblock.agLen_le h.agLen).1
          rcases hsub _ (hlt.trans_le hlen) hL with hL | hin
          · exact hnot hL
          · have hheld := h.node_held hi
            rw [(hrun _ hin.1 hin.2).1] at hheld
            omega }
  · have hzero := (h.blocks b hb hL).2
    rw [(hrun b hlo hhi).1] at hzero
    omega

/-- A run that leaves the ledger can be freed. -/
theorem Minds.freed (h : Minds sb k L' ag) (hs : sb.Sound) (hn : 0 < n) (hend : s + n ≤ sb.agBlocks)
    (hrun : ∀ b, s ≤ b → b < s + n → sb.agbToFsb k b ∈ L'.blocks)
    (hsub : L.SubOn sb k L') (hnot : ∀ b, s ≤ b → b < s + n → sb.agbToFsb k b ∉ L.blocks) :
    ∃ ag', freeExtent s n ag = .ok () ag' ∧ Minds sb k L ag' := by
  have hspace := h.kept.space
  have hheld : ∀ b, s ≤ b → b < s + n → b < ag.len ∧ freeAt ag.free b = 0 := fun b hlo hhi =>
    h.blocks b (by omega) (hrun b hlo hhi)
  have hcan : CanFree ag s n := by
    refine ⟨hn, ?_, fun x hx => ?_⟩
    · have := (hheld (s + n - 1) (by omega) (by omega)).1
      omega
    · by_contra hmeet
      have hpos := hspace.freeOk.pos x hx
      have hzero := (hheld (max x.1 s) (by omega) (by omega)).2
      have hfree := freeAt_pos_of_mem hx (b := max x.1 s) (by omega)
      omega
  have hlen := h.kept.len_le.trans hs.agBlocks_lt
  obtain ⟨ag', hfree⟩ :=
    (freeExtent_succeeds_iff hspace.freeOk (hspace.extentsFit (by omega))).mpr hcan
  obtain ⟨-, -, free', hputs, rfl⟩ := freeExtent_ok hspace.freeOk hfree
  have hm := h.mono hsub
  -- no block of the run is an inode's
  have hnode : ∀ i, Present ag.chunks i → ¬(s ≤ blockOf sb i ∧ blockOf sb i < s + n) := fun i hi hin =>
    (h.nodes i hi).2 (hrun _ hin.1 hin.2)
  refine ⟨_, hfree, ?_⟩
  exact
    { kept :=
        { space := hspace.freed hfree
          len_le := h.kept.len_le
          agi := h.kept.agi
          chunks := by
            refine ⟨fun e he => ?_, h.kept.chunks.apart⟩
            have hsound := h.kept.chunks.sound e he
            refine { hsound with taken := fun i hi hhole => ?_ }
            have hidx : e.1 + i - e.1 = i := Nat.add_sub_cancel_left _ _
            have hpres : Present ag.chunks (e.1 + i) :=
              ⟨e, he, ⟨Nat.le_add_right _ _, Nat.add_lt_add_left hi _⟩, by rwa [hidx]⟩
            rw [hputs.at_, hsound.taken i hi hhole, within_eq_zero.mpr (hnode _ hpres)]
          used := hm.kept.used }
      agLen := h.agLen
      blocks := fun b hb hL => by
        obtain ⟨hlt, hzero⟩ := hm.blocks b hb hL
        refine ⟨hlt, ?_⟩
        rw [hputs.at_, hzero, within_eq_zero.mpr fun hin => hnot b hin.1 hin.2 hL]
      nodes := hm.nodes }

/-- A free block is nobody's, and no inode in use is of it. -/
theorem Minds.clear_of_free (h : Minds sb k L ag) (ha : sb.Addressable) {b : Nat} (hb : b < sb.agBlocks)
    (hfree : 0 < freeAt ag.free b) : sb.agbToFsb k b ∉ L.blocks ∧
      ∀ i < sb.inodesPerBlock, sb.aginoToIno k (sb.aginoAt b i) ∉ L.inodes := by
  refine ⟨fun hL => ?_, fun i hi hL => ?_⟩
  · have hzero := (h.blocks b hb hL).2
    omega
  · obtain ⟨e, he, hin, hhole, -⟩ := h.kept.used _ ⟨ha.aginoAt_lt hb hi, hL⟩
    have hzero := h.node_held ⟨e, he, hin, hhole⟩
    have hblock : blockOf sb (sb.aginoAt b i) = b := by
      have hi' : i < 2 ^ sb.inopbLog := ha.sound.inopb_eq ▸ hi
      unfold blockOf
      rw [ha.aginoAt_eq, Nat.mul_comm, Nat.mul_add_div (Nat.two_pow_pos _), Nat.div_eq_of_lt hi',
        Nat.add_zero]
    rw [hblock] at hzero
    omega

/-- An inode that is there has a number of the group. -/
theorem Minds.agino_lt (h : Minds sb k L ag) (ha : sb.Addressable) {i : Nat} (hi : Present ag.chunks i) :
    i < 2 ^ sb.aginoLog := by
  have hlt := (h.nodes i hi).1.trans_le (Superblock.agLen_le h.agLen).1
  have hdiv := (Nat.div_lt_iff_lt_mul (Nat.two_pow_pos _)).mp (hlt.trans_le ha.sound.agBlocks_le)
  exact hdiv.trans_eq (Nat.pow_add _ _ _).symm

/-- Where the inodes are does not change when one is taken or given back. -/
theorem present_insert {chunks : OrdMap Nat Chunk} {e : Nat × Chunk} {c : Chunk} {i : Nat}
    (he : e ∈ chunks.entries) (hhole : ∀ j, c.hole j = e.2.hole j)
    (h : Present (chunks.insert e.1 c) i) : Present chunks i := by
  obtain ⟨x, hx, hin, hpres⟩ := h
  rcases OrdMap.mem_insert.mp hx with rfl | ⟨hx, -⟩
  · exact ⟨e, he, hin, (hhole _).symm.trans hpres⟩
  · exact ⟨x, hx, hin, hpres⟩

/-- An inode that is given was not in use, and can be put in the ledger. -/
theorem Minds.allocInode (h : Minds sb k L ag) (ha : sb.Addressable) (hk : k < sb.agCount) :
    allocInode ag = .ok none ag ∨ ∃ i ag', allocInode ag = .ok (some i) ag' ∧ Present ag.chunks i ∧
      sb.aginoToIno k i ∉ L.inodes ∧ Minds sb k (L.withInode (sb.aginoToIno k i)) ag' := by
  rcases h.kept.allocInode with ⟨hnone, -⟩ | ⟨i, ag', hrun, hpres, hnot, hkept⟩
  · exact Or.inl hnone
  refine Or.inr ⟨i, ag', hrun, hpres, fun hL => hnot (h.kept.used i ⟨h.agino_lt ha hpres, hL⟩), ?_⟩
  have hshape : ∃ e ∈ ag.chunks.entries, ∃ j,
      ag' = { ag with chunks := ag.chunks.insert e.1 (e.2.take j), dirty := true } := by
    rcases allocInode_eq_ok hrun with ⟨hnone, -⟩ | ⟨e, he, j, -, -, -, heq⟩
    · cases hnone
    · exact ⟨e, he, j, heq⟩
  obtain ⟨e, he, j, rfl⟩ := hshape
  exact
    { kept :=
        { hkept with
          used := fun x hx => by
            rcases hx.2 with heq | hL
            · have hnum := congrArg sb.inoToAgino heq
              rw [ha.inoToAgino_aginoToIno hk hx.1,
                ha.inoToAgino_aginoToIno hk (h.agino_lt ha hpres)] at hnum
              obtain rfl := (Prod.mk.inj hnum).2
              exact hkept.used x (Or.inl rfl)
            · exact hkept.used x (Or.inr ⟨hx.1, hL⟩) }
      agLen := h.agLen
      blocks := h.blocks
      nodes := fun x hx => h.nodes x (@present_insert _ e (e.2.take j) x he (fun _ => rfl) hx) }

/-- An inode that leaves the ledger can be given back. -/
theorem Minds.freeInode (h : Minds sb k L' ag) {i : Nat} (hsub : L.SubOn sb k L')
    (hnot : sb.aginoToIno k i ∉ L.inodes) :
    Leaves (freeInode i) ag (fun _ ag' => ag' = ag) fun _ ag' => Minds sb k L ag' := by
  have hm := h.mono hsub
  rcases @ChunksKept.freeInode sb ag i _ hm.kept with ⟨e, hrun⟩ | ⟨-, ag', hrun, hkept⟩
  · exact leaves_of_error hrun rfl
  refine leaves_of_ok hrun ?_
  obtain ⟨e, he, hin, -, rfl⟩ := freeInode_eq_ok hrun
  exact
    { kept :=
        { hkept with
          used := fun x hx => hkept.used x ⟨hx, fun heq => by
            obtain rfl := Set.mem_singleton_iff.mp heq
            exact hnot hx.2⟩ }
      agLen := h.agLen
      blocks := hm.blocks
      nodes := fun x hx => hm.nodes x (@present_insert _ e (e.2.give (i - e.1)) x he (fun _ => rfl) hx) }

/-- A new chunk goes where it was free. -/
theorem Minds.allocChunk (h : Minds sb k L ag) (hs : sb.Sound) (hper : sb.inodesPerBlock ≤ 64)
    (halign : sb.inodeAlign ≤ chunkBlocks sb ∨ chunkBlocks sb ∣ sb.inodeAlign)
    (hlog : sb.agblkLog + sb.inopbLog < 32) :
    allocChunk sb ag = .ok none ag ∨ ∃ s ag', allocChunk sb ag = .ok (some s) ag' ∧
      Minds sb k L ag' ∧ s + chunkBlocks sb ≤ ag.len ∧
      ∀ b, s ≤ b → b < s + chunkBlocks sb → 0 < freeAt ag.free b := by
  have hpos := chunkBlocks_pos hs hper
  rcases allocChunk_eq h.kept.space.freeOk hpos with ⟨hnone, -⟩ | ⟨s, ag1, hrun, -, hal, -⟩
  · exact Or.inl hnone
  refine Or.inr ⟨s, _, hrun, ?_⟩
  obtain ⟨hm, hend, -⟩ := @Minds.allocated _ _ _ _ _ L _ _ h hal (fun b _ hL => Or.inl hL) rfl
  have hkept : ChunksKept sb (withChunk sb ag1 s)
      {i | i < 2 ^ sb.aginoLog ∧ sb.aginoToIno k i ∈ L.inodes} := by
    rcases h.kept.allocChunk hs hper halign hlog with ⟨hno, -⟩ | ⟨s', ag', hrun', hkept, -⟩
    · rw [hno] at hrun
      cases (EStateM.Result.ok.inj hrun).1
    · rw [hrun'] at hrun
      obtain rfl := (EStateM.Result.ok.inj hrun).2
      exact hkept
  obtain ⟨free', htakes, rfl⟩ := hal.takes
  have hfree : ∀ b, s ≤ b → b < s + chunkBlocks sb → 0 < freeAt ag.free b := by
    intro b hlo hhi
    have hat := htakes.at_ b
    rw [within_eq_one.mpr ⟨hlo, hhi⟩] at hat
    omega
  have hlen := (Superblock.agLen_le h.agLen).1
  have hstart := chunkStart_eq hs hlog (show s < sb.agBlocks by omega)
  refine ⟨⟨hkept, hm.agLen, hm.blocks, fun i hi => ?_⟩, hend, hfree⟩
  obtain ⟨x, hx, hin, hhole⟩ := hi
  rcases OrdMap.mem_insert.mp hx with rfl | ⟨hx, -⟩
  · -- an inode of the new chunk: its block was free
    obtain ⟨hlo, hhi⟩ := hin
    simp only [hstart] at hlo hhi
    obtain ⟨j, rfl⟩ := Nat.exists_eq_add_of_le hlo
    obtain ⟨hblock, hlt⟩ := blockOf_chunk hs hper s (show j < CHUNK_INODES by omega)
    rw [hblock]
    refine ⟨by simp only [withChunk]; omega, fun hL => ?_⟩
    have hzero := (h.blocks _ (by omega) hL).2
    have := hfree _ (Nat.le_add_right _ _) (Nat.add_lt_add_left hlt _)
    omega
  · exact h.nodes i ⟨x, hx, hin, hhole⟩

end

end Alloc

namespace Volume

/-! ## A volume that minds it -/

/-- AG `k` as the volume has it in memory, or else as it is read, whatever the device may come
to have in other groups and in what the ledger names. -/
def MayHold (v : Volume) (L : Ledger) (k : Nat) (ag : Ag) : Prop :=
  v.ag? k = some ag ∨ v.ag? k = none ∧
    ∃ d, Device.SameOn (fun p => v.sb.byteAg p = k ∧ ¬L.Names v.sb p) v.dev d ∧
      Alloc.load d v.sb k = .ok ag

def Minds (v : Volume) (L : Ledger) : Prop :=
  ∀ k < v.sb.agCount, ∀ ag, v.MayHold L k ag → Alloc.Minds v.sb k L ag

/-- What a step leaves that minds the ledger `L` and changes no byte of `P`. -/
structure Kept (P : Nat → Prop) (L : Ledger) (v v' : Volume) : Prop where
  sb : v'.sb = v.sb
  dev : Device.SameOn P v.dev v'.dev
  minds : v'.Minds L

section
variable {v v' v'' : Volume} {L L' : Ledger} {P P' : Nat → Prop} {k : Nat} {ag ag' : Ag}

theorem Kept.trans (h : Kept P L v v') (h' : Kept P L' v' v'') : Kept P L' v v'' :=
  ⟨h'.sb.trans h.sb, h.dev.trans h'.dev, h'.minds⟩

theorem Minds.kept (h : v.Minds L) : Kept P L v v := ⟨rfl, .refl _ _, h⟩

theorem MayHold.mono (h : v.MayHold L k ag) (ha : v.sb.Addressable) (hsub : L.SubOn v.sb k L') :
    v.MayHold L' k ag := by
  refine h.imp_right ?_
  rintro ⟨hnone, d, hd, hload⟩
  exact ⟨hnone, d, hd.mono fun p hp => ⟨hp.1, fun hL => hp.2 (hsub.names ha hp.1 hL)⟩, hload⟩

theorem Minds.mono (h : v.Minds L') (ha : v.sb.Addressable)
    (hsub : ∀ k < v.sb.agCount, L.SubOn v.sb k L') : v.Minds L := fun k hk ag hag =>
  (h k hk ag (hag.mono ha (hsub k hk))).mono (hsub k hk)

theorem Kept.mono (h : Kept P L' v v') (ha : v.sb.Addressable) (hle : L ≤ L') : Kept P L v v' :=
  ⟨h.sb, h.dev, h.minds.mono (h.sb ▸ ha) fun _ _ => .of_le hle⟩

theorem Kept.of_bytes (h : Kept P' L v v') (hP : ∀ p, P p → P' p) : Kept P L v v' :=
  ⟨h.sb, h.dev.mono hP, h.minds⟩

/-- The same groups, on a device that differs in what is named only, or in groups in memory. -/
theorem Minds.of_dev (h : v.Minds L) (hsb : v'.sb = v.sb) (hag : ∀ k, v'.ag? k = v.ag? k)
    (hdev : Device.SameOn (fun p => v.ag? (v.sb.byteAg p) = none ∧ ¬L.Names v.sb p) v.dev v'.dev) :
    v'.Minds L := by
  intro k hk ag hmay
  rw [hsb] at hk ⊢
  refine h k hk ag ?_
  unfold MayHold at hmay
  rw [hag, hsb] at hmay
  refine hmay.imp_right ?_
  rintro ⟨hnone, d, hd, hload⟩
  refine ⟨hnone, d, .trans (hdev.mono fun p hp => ⟨?_, hp.2⟩) hd, hload⟩
  rw [hp.1]
  exact hnone

theorem kept_of_same (h : v.Minds L) (hsb : v'.sb = v.sb) (hdev : v'.dev = v.dev)
    (hag : ∀ k, v'.ag? k = v.ag? k) : Kept P L v v' :=
  ⟨hsb, hdev ▸ .refl _ _, h.of_dev hsb hag (hdev ▸ .refl _ _)⟩

/-- What is in memory minds the ledger. -/
theorem Minds.of_ag? (h : v.Minds L) (hk : k < v.sb.agCount) (hag : v.ag? k = some ag) :
    Alloc.Minds v.sb k L ag := h k hk ag (Or.inl hag)

/-- One group changes in memory, and the ledger in that group. -/
theorem Minds.putAg (h : v.Minds L) (ha : v.sb.Addressable) (hag : v.ag? k = some ag)
    (hnew : Alloc.Minds v.sb k L' ag')
    (hother : ∀ j < v.sb.agCount, j ≠ k → L'.SubOn v.sb j L) : (v.putAg k ag').Minds L' := by
  intro j hj a hmay
  have hput : (v.putAg k ag').ag? j = if j = k then some ag' else v.ag? j := ag?_putAg (isSome_of_ag? hag)
  unfold MayHold at hmay
  rw [hput] at hmay
  by_cases hjk : j = k
  · subst hjk
    rw [if_pos rfl] at hmay
    rcases hmay with hmem | ⟨hnone, -⟩
    · obtain rfl := Option.some.inj hmem
      exact hnew
    · cases hnone
  · rw [if_neg hjk] at hmay
    have hsub := hother j hj hjk
    exact (h j hj a (MayHold.mono hmay ha hsub)).mono hsub

theorem kept_putAg (h : v.Minds L) (ha : v.sb.Addressable) (hag : v.ag? k = some ag)
    (hnew : Alloc.Minds v.sb k L' ag')
    (hother : ∀ j < v.sb.agCount, j ≠ k → L'.SubOn v.sb j L) : Kept P L' v (v.putAg k ag') :=
  ⟨rfl, .refl _ _, h.putAg ha hag hnew hother⟩

/-- The ledger stays as it is. -/
theorem kept_putAg_same (h : v.Minds L) (ha : v.sb.Addressable) (hag : v.ag? k = some ag)
    (hnew : Alloc.Minds v.sb k L ag') : Kept P L v (v.putAg k ag') :=
  kept_putAg h ha hag hnew fun _ _ _ => .refl _ _ _

/-! ## Parts of the volume -/

variable {α : Type} {E : Error → Volume → Prop} {Q : α → Volume → Prop}

theorem leaves_onDev {dx : Act Device α}
    (h : Leaves dx v.dev (fun e d => E e { v with dev := d }) fun a d => Q a { v with dev := d }) :
    Leaves (onDev dx) v E Q := leaves_zoom h

theorem leaves_onAg {x : Act Ag α} (hag : v.ag? k = some ag)
    (h : Leaves x ag (fun e t => E e (v.putAg k t)) fun a t => Q a (v.putAg k t)) :
    Leaves (onAg k x) v E Q := by
  unfold Leaves at h ⊢
  rw [onAg_apply hag]
  cases hx : x ag <;> rw [hx] at h <;> exact h

/-- Making sure there is a writer changes no group. -/
theorem writer_leaves : Leaves writer v (fun _ v' => v' = v) fun _ v' =>
    v'.sb = v.sb ∧ v'.dev = v.dev ∧ v'.w.isSome ∧ ∀ k, v'.ag? k = v.ag? k := by
  refine leaves_iff.mpr ⟨fun _ v' h => ?_, fun e v' h => ?_⟩
  · obtain ⟨hdev, hsb, hw, hag⟩ := writer_eq_ok h
    exact ⟨hsb, hdev, hw, hag⟩
  · unfold writer at h
    simp only [get_bind_apply] at h
    split at h
    · rcases bind_eq_error.mp h with h | ⟨_, u, h1, h⟩
      · exact (liftE_eq_error.mp h).2.symm
      · obtain ⟨-, rfl⟩ := liftE_eq_ok.mp h1
        rcases bind_eq_error.mp h with h | ⟨_, u, h2, h⟩
        · exact (act_throwIf_eq_error.mp h).2.2.symm
        · obtain ⟨-, rfl⟩ := act_throwIf_eq_ok.mp h2
          rcases bind_eq_error.mp h with h | ⟨t, u, h3, h⟩
          · unfold readClock at h
            cases hc : v.clock <;> simp only [get_bind_apply, hc] at h <;> cases h
          · cases h
    · cases h

/-- A group that is read in minds the ledger. -/
theorem loadAg_leaves (h : v.Minds L) (hk : k < v.sb.agCount) :
    Leaves (loadAg k) v (fun _ v' => Kept P L v v') fun _ v' => Kept P L v v' ∧
      ∃ ag, v'.ag? k = some ag := by
  refine leaves_iff.mpr ⟨fun _ v' hrun => ?_, fun e v' hrun => ?_⟩
  · obtain ⟨hdev, hsb, -, hother, ag, hag, hor⟩ := loadAg_eq_ok hrun
    refine ⟨⟨hsb, hdev ▸ .refl _ _, fun j hj a hmay => ?_⟩, ag, hag⟩
    rw [hsb] at hj ⊢
    refine h j hj a ?_
    unfold MayHold at hmay ⊢
    rw [hsb, hdev] at hmay
    by_cases hjk : j = k
    · subst hjk
      rw [hag] at hmay
      rcases hmay with hmem | ⟨hnone, -⟩
      · obtain rfl := Option.some.inj hmem
        exact hor.imp_right fun hload => ⟨hload.1, v.dev, .refl _ _, hload.2⟩
      · cases hnone
    · rwa [hother j hjk] at hmay
  · unfold loadAg at hrun
    rcases bind_eq_error.mp hrun with hrun | ⟨_, u, h1, hrun⟩
    · obtain rfl := writer_leaves.error hrun
      exact h.kept
    · obtain ⟨hsb, hdev, hw, hag⟩ := writer_leaves.ok h1
      have hkept : Kept P L v u := kept_of_same h hsb hdev hag
      obtain ⟨w, hw⟩ := Option.isSome_iff_exists.mp hw
      rw [bind_of_ok (getWriter_apply hw)] at hrun
      split at hrun
      · simp only [get_bind_apply] at hrun
        rcases bind_eq_error.mp hrun with hrun | ⟨ag, u', h2, hrun⟩
        · obtain ⟨-, rfl⟩ := liftE_eq_error.mp hrun
          exact hkept
        · cases hrun
      · cases hrun

end

end Volume

end FioXfs
