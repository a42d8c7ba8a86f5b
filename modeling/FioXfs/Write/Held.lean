import FioXfs.Alloc.Chunks
import FioXfs.Write.RawInode
import FioXfs.Write.Stored
set_option autoImplicit false

/-!
# Blocks that are held

A block is held when its group is in memory and it is not in the group's free map.  Nothing
that takes blocks takes a held one, and what is taken is held afterwards; the block of an inode
that is given is held too.
-/

namespace FioXfs

open FioXfs.Lib FioXfs.Alloc FioXfs.Dir

namespace Volume

/-! ## What taking blocks keeps -/

/-- The space of every group in memory is in order. -/
def GroupsOk (v : Volume) : Prop :=
  ∀ k < v.sb.agCount, ∀ ag, v.ag? k = some ag → GroupOk v.sb k ag

/-- Block `b` of AG `k` is in memory as not free. -/
def BlockHeld (v : Volume) (k b : Nat) : Prop := ∃ ag, v.ag? k = some ag ∧ b < ag.len ∧ freeAt ag.free b = 0

/-- What a step that takes blocks and gives none back keeps. -/
structure Keeps (v v' : Volume) : Prop where
  sb : v'.sb = v.sb
  size : v'.dev.size = v.dev.size
  groups : v.GroupsOk → v'.GroupsOk
  held : ∀ k b, v.BlockHeld k b → v'.BlockHeld k b

section
variable {v v' v'' : Volume} {ag ag' : Ag} {k b : Nat}

theorem Keeps.refl (v : Volume) : Keeps v v := ⟨rfl, rfl, id, fun _ _ => id⟩

theorem Keeps.trans (h : Keeps v v') (h' : Keeps v' v'') : Keeps v v'' :=
  ⟨h'.sb.trans h.sb, h'.size.trans h.size, fun ho => h'.groups (h.groups ho),
    fun k b hb => h'.held k b (h.held k b hb)⟩

/-- A step that leaves the groups in memory as they are. -/
theorem keeps_of_same (hsb : v'.sb = v.sb) (hsize : v'.dev.size = v.dev.size)
    (hag : ∀ k, v'.ag? k = v.ag? k) : Keeps v v' where
  sb := hsb
  size := hsize
  groups h k hk ag hget := by
    rw [hsb] at hk ⊢
    exact h k hk ag ((hag k).symm.trans hget)
  held k b := by
    rintro ⟨ag, hget, hrest⟩
    exact ⟨ag, (hag k).trans hget, hrest⟩

theorem keeps_loadAg (h : loadAg k v = .ok () v') : Keeps v v' ∧ ∃ ag, v'.ag? k = some ag := by
  obtain ⟨hdev, hsb, -, hother, ag, hag, hor⟩ := loadAg_eq_ok h
  refine ⟨⟨hsb, congrArg Device.size hdev, fun ho j hj ag' hag' => ?_, fun j b => ?_⟩, ag, hag⟩
  · rw [hsb] at hj ⊢
    by_cases hjk : j = k
    · subst hjk
      obtain rfl := Option.some.inj (hag.symm.trans hag')
      rcases hor with hmem | ⟨-, hload⟩
      · exact ho j hj ag hmem
      · exact groupOk_of_loaded hload
    · exact ho j hj ag' ((hother j hjk).symm.trans hag')
  · rintro ⟨ag', hag', hb⟩
    by_cases hjk : j = k
    · subst hjk
      rcases hor with hmem | ⟨hnone, -⟩
      · obtain rfl := Option.some.inj (hmem.symm.trans hag')
        exact ⟨ag, hag, hb⟩
      · rw [hnone] at hag'
        cases hag'
    · exact ⟨ag', (hother j hjk).trans hag', hb⟩

/-- A group changed in memory, with no block more free than before. -/
theorem keeps_putAg (hag : v.ag? k = some ag) (hok : GroupOk v.sb k ag → GroupOk v.sb k ag')
    (hlen : ag'.len = ag.len) (hle : ∀ b, freeAt ag'.free b ≤ freeAt ag.free b) :
    Keeps v (v.putAg k ag') := by
  have hput : ∀ j, (v.putAg k ag').ag? j = if j = k then some ag' else v.ag? j :=
    fun j => ag?_putAg (isSome_of_ag? hag)
  refine ⟨rfl, rfl, fun ho j hj ag'' hag'' => ?_, fun j b => ?_⟩
  · rw [hput] at hag''
    by_cases hjk : j = k
    · subst hjk
      rw [if_pos rfl] at hag''
      cases hag''
      exact hok (ho j hj ag hag)
    · rw [if_neg hjk] at hag''
      exact ho j hj ag'' hag''
  · rintro ⟨ag'', hag'', hlt, hfree⟩
    by_cases hjk : j = k
    · subst hjk
      obtain rfl := Option.some.inj (hag.symm.trans hag'')
      exact ⟨ag', (hput j).trans (if_pos rfl), hlen ▸ hlt, Nat.le_zero.mp (hfree ▸ hle b)⟩
    · exact ⟨ag'', (hput j).trans ((if_neg hjk).trans hag''), hlt, hfree⟩

/-- A group with the same space. -/
theorem keeps_putAg_same (hag : v.ag? k = some ag) (hfree : ag'.free = ag.free)
    (htotal : ag'.freeTotal = ag.freeTotal) (hlen : ag'.len = ag.len) : Keeps v (v.putAg k ag') :=
  keeps_putAg hag (fun h => ⟨h.space.of_same hfree htotal hlen, hlen ▸ h.agLen⟩) hlen
    fun b => by rw [hfree]

/-- What is taken of a group was free, and is held. -/
theorem keeps_allocated {s n : Nat} (hok : v.GroupsOk) (hk : k < v.sb.agCount)
    (hag : v.ag? k = some ag) (ha : Allocated ag ag' s n) : Keeps v (v.putAg k ag') ∧
      ∀ b, s ≤ b → b < s + n → (v.putAg k ag').BlockHeld k b ∧ ¬v.BlockHeld k b := by
  obtain ⟨free', htakes, hag'⟩ := ha.takes
  have hgroup := hok k hk ag hag
  have hfree : ag'.free = free' := by rw [hag']
  have hlen : ag'.len = ag.len := by rw [hag']
  have hle : ∀ b, freeAt ag'.free b ≤ freeAt ag.free b := fun b => by
    have := htakes.at_ b
    rw [hfree]
    omega
  refine ⟨keeps_putAg hag (fun h => ⟨h.space.allocated ha, hlen ▸ h.agLen⟩) hlen hle,
    fun b hlo hhi => ?_⟩
  have hat := htakes.at_ b
  have honce := hgroup.space.freeOk.once b
  rw [within_eq_one.mpr ⟨hlo, hhi⟩] at hat
  refine ⟨⟨ag', ag?_putAg_self hag, ?_, by rw [hfree]; omega⟩, ?_⟩
  · rw [hlen]
    exact hgroup.space.inside b (by omega)
  · rintro ⟨ag'', hag'', -, hzero⟩
    obtain rfl := Option.some.inj (hag.symm.trans hag'')
    omega

/-- A held block is one of the data device. -/
theorem BlockHeld.lt (h : v.BlockHeld k b) (hok : v.GroupsOk) (hk : k < v.sb.agCount) :
    b < v.sb.agBlocks ∧ k * v.sb.agBlocks + b < v.sb.dataBlocks := by
  obtain ⟨ag, hag, hb, -⟩ := h
  obtain ⟨hle, hend⟩ := Superblock.agLen_le (hok k hk ag hag).agLen
  omega

end

/-! ## An inode's block -/

/-- The blocks of the inodes that are there lie in their group and are not free. -/
def InodesClear (v : Volume) : Prop :=
  ∀ k < v.sb.agCount, ∀ ag, v.Holds k ag → ∀ agino, Present ag.chunks agino →
    blockOf v.sb agino < ag.len ∧ freeAt ag.free (blockOf v.sb agino) = 0

/-- Inode `ino` is one of a held block. -/
def InoHeld (v : Volume) (ino : Nat) : Prop :=
  ∃ k < v.sb.agCount, ∃ agino, ino = v.sb.aginoToIno k agino ∧ v.BlockHeld k (blockOf v.sb agino)

section
variable {v v' : Volume} {ag : Ag} {k : Nat} {agnos : List Nat}

theorem InoHeld.keeps {ino : Nat} (h : v.InoHeld ino) (hkeep : Keeps v v') : v'.InoHeld ino := by
  obtain ⟨k, hk, agino, hino, hheld⟩ := h
  refine ⟨k, hkeep.sb ▸ hk, agino, hkeep.sb ▸ hino, ?_⟩
  rw [hkeep.sb]
  exact hkeep.held _ _ hheld

/-- The groups are held as before when none in memory has changed or gone. -/
theorem InodesClear.of_holds (h : v.InodesClear) (hsb : v'.sb = v.sb)
    (hholds : ∀ k ag, v'.Holds k ag → v.Holds k ag) : v'.InodesClear := by
  intro k hk ag hag
  rw [hsb] at hk ⊢
  exact h k hk ag (hholds k ag hag)

theorem holds_loadAg (h : loadAg k v = .ok () v') {j : Nat} (hholds : v'.Holds j ag) :
    v.Holds j ag := by
  obtain ⟨hdev, hsb, -, hother, ag', hag', hor⟩ := loadAg_eq_ok h
  by_cases hjk : j = k
  · subst hjk
    rcases hholds with hmem | ⟨hnone, -⟩
    · obtain rfl := Option.some.inj (hag'.symm.trans hmem)
      exact hor
    · rw [hag'] at hnone
      cases hnone
  · exact hholds.of_same hdev.symm hsb.symm (hother j hjk).symm

theorem holds_putAg_self (hag : v.ag? k = some ag) {j : Nat} {ag' : Ag}
    (hholds : (v.putAg k ag).Holds j ag') : v.Holds j ag' := by
  have hput : (v.putAg k ag).ag? j = if j = k then some ag else v.ag? j := ag?_putAg (isSome_of_ag? hag)
  refine hholds.of_same rfl rfl ?_
  rw [hput]
  split
  · rename_i hjk
    rw [hjk, hag]
  · rfl

/-! ## Making the chunk's inodes -/

theorem getWriter_eq_ok {w : Writer} (h : getWriter v = .ok w v') : v.w = some w ∧ v' = v := by
  unfold getWriter at h
  simp only [get_bind_apply] at h
  cases hw : v.w with
  | none =>
    simp only [hw] at h
    cases h
  | some w' =>
    simp only [hw] at h
    obtain ⟨rfl, rfl⟩ := EStateM.Result.ok.inj h
    exact ⟨rfl, rfl⟩

theorem nextGen_eq_ok {gen : Nat} (h : nextGen v = .ok gen v') :
    v'.dev = v.dev ∧ v'.sb = v.sb ∧ ∀ k, v'.ag? k = v.ag? k := by
  unfold nextGen at h
  obtain ⟨w, v1, h1, h2⟩ := bind_eq_ok.mp h
  obtain ⟨hw, rfl⟩ := getWriter_eq_ok h1
  obtain ⟨_, v2, h3, h4⟩ := bind_eq_ok.mp h2
  obtain ⟨-, rfl⟩ := EStateM.Result.ok.inj h3
  obtain ⟨-, rfl⟩ := EStateM.Result.ok.inj h4
  refine ⟨rfl, rfl, fun k => ?_⟩
  simp [ag?, hw, Writer.nextGen]

theorem freeInodes_eq_ok {sb : Superblock} : ∀ {count ino : Nat} {v v' : Volume} {buf : Bytes},
    freeInodes sb ino count v = .ok buf v' →
      v'.dev = v.dev ∧ v'.sb = v.sb ∧ ∀ k, v'.ag? k = v.ag? k := by
  intro count
  induction count with
  | zero =>
    intro ino v v' buf h
    obtain ⟨-, rfl⟩ := EStateM.Result.ok.inj h
    exact ⟨rfl, rfl, fun _ => rfl⟩
  | succ count ih =>
    intro ino v v' buf h
    obtain ⟨gen, v1, h1, h⟩ := bind_eq_ok.mp h
    obtain ⟨rest, v2, h2, h⟩ := bind_eq_ok.mp h
    obtain ⟨-, rfl⟩ := EStateM.Result.ok.inj h
    obtain ⟨hdev, hsb, hag⟩ := nextGen_eq_ok h1
    obtain ⟨hdev', hsb', hag'⟩ := ih h2
    exact ⟨hdev'.trans hdev, hsb'.trans hsb, fun k => (hag' k).trans (hag k)⟩

theorem keeps_initChunk {agbno : Nat} (h : initChunk k agbno v = .ok () v') : Keeps v v' := by
  unfold initChunk at h
  simp only [get_bind_apply] at h
  obtain ⟨buf, v1, h1, h⟩ := bind_eq_ok.mp h
  obtain ⟨hdev, hsb, hag⟩ := freeInodes_eq_ok h1
  obtain ⟨dev, hwrite, rfl⟩ := onDev_eq_ok.mp h
  exact keeps_of_same hsb ((Device.size_writeAt hwrite).trans (congrArg Device.size hdev)) hag

/-! ## Allocating it -/

/-- An inode of the group with a new chunk is one of a block that is not free. -/
theorem clear_withChunk {sb : Superblock} {ag ag1 : Ag} {s : Nat} (hs : sb.Sound)
    (hper : sb.inodesPerBlock ≤ 64) (hnum : sb.agBlocks * sb.inodesPerBlock ≤ 2 ^ 32)
    (hok : GroupOk sb k ag)
    (hold : ∀ agino, Present ag.chunks agino →
      blockOf sb agino < ag.len ∧ freeAt ag.free (blockOf sb agino) = 0)
    (ha : Allocated ag ag1 s (chunkBlocks sb)) {agino : Nat}
    (hthere : Present (withChunk sb ag1 s).chunks agino) :
    blockOf sb agino < ag.len ∧ freeAt (withChunk sb ag1 s).free (blockOf sb agino) = 0 := by
  obtain ⟨free', htakes, rfl⟩ := ha.takes
  obtain ⟨e, he, hin, hhole⟩ := hthere
  have hpos := chunkBlocks_pos hs hper
  have hrun : ∀ b, s ≤ b → b < s + chunkBlocks sb → b < ag.len ∧ freeAt free' b = 0 := by
    intro b hlo hhi
    have hat := htakes.at_ b
    have honce := hok.space.freeOk.once b
    rw [within_eq_one.mpr ⟨hlo, hhi⟩] at hat
    exact ⟨hok.space.inside b (by omega), by omega⟩
  have hle := (Superblock.agLen_le hok.agLen).1
  have hslt : s < sb.agBlocks := (hrun s (Nat.le_refl _) (by omega)).1.trans_le hle
  have hstart : (s <<< sb.inopbLog) % 2 ^ 32 = s * 2 ^ sb.inopbLog := by
    rw [Nat.shiftLeft_eq]
    refine Nat.mod_eq_of_lt (lt_of_lt_of_le ?_ hnum)
    rw [hs.inopb_eq]
    exact Nat.mul_lt_mul_of_pos_right hslt (Nat.two_pow_pos _)
  rcases OrdMap.mem_insert.mp he with rfl | ⟨he, -⟩
  · -- an inode of the new chunk
    obtain ⟨hlo, hhi⟩ := hin
    simp only [hstart] at hlo hhi
    obtain ⟨i, rfl⟩ := Nat.exists_eq_add_of_le hlo
    obtain ⟨hblock, hlt⟩ := blockOf_chunk hs hper s (show i < CHUNK_INODES by omega)
    rw [hblock]
    exact hrun _ (Nat.le_add_right _ _) (by omega)
  · obtain ⟨hblt, hzero⟩ := hold agino ⟨e, he, hin, hhole⟩
    have hat := htakes.at_ (blockOf sb agino)
    exact ⟨hblt, by change freeAt free' _ = 0; omega⟩

/-- `alloc_inode` gives an inode that is there. -/
theorem allocInode_there {ag' : Ag} {agino : Nat} (h : allocInode ag = .ok (some agino) ag') :
    Present ag.chunks agino ∧ ag'.free = ag.free ∧ ag'.freeTotal = ag.freeTotal ∧ ag'.len = ag.len := by
  rcases allocInode_eq_ok h with ⟨hnone, -⟩ | ⟨e, he, i, hi, hu, hsome, rfl⟩
  · cases hnone
  · obtain rfl := Option.some.inj hsome
    refine ⟨⟨e, he, ⟨Nat.le_add_right _ _, Nat.add_lt_add_left hi _⟩, ?_⟩, rfl, rfl, rfl⟩
    rw [Nat.add_sub_cancel_left]
    exact (Chunk.usable_iff.mp hu).2

theorem keeps_newChunks (u : Volume) :
    Keeps u { u with w := u.w.map fun w => { w with newChunks := w.newChunks + 1 } } := by
  refine keeps_of_same rfl rfl fun k => ?_
  unfold ag?
  cases u.w <;> rfl

/-- The inode that is given is one of a held block. -/
theorem allocInoFrom_held (hper : v.sb.inodesPerBlock ≤ 64)
    (hnum : v.sb.agBlocks * v.sb.inodesPerBlock ≤ 2 ^ 32) (hs : v.sb.Sound) {ino : Nat} :
    ∀ {agnos : List Nat} {u : Volume}, u.sb = v.sb → (∀ k ∈ agnos, k < v.sb.agCount) → u.GroupsOk →
      u.InodesClear → allocInoFrom agnos u = .ok ino v' → Keeps u v' ∧ v'.InoHeld ino := by
  intro agnos
  induction agnos with
  | nil =>
    intro u _ _ _ _ h
    cases h
  | cons k agnos ih =>
    intro u hsb hlt hok hclear h
    have hk := hlt k List.mem_cons_self
    unfold allocInoFrom at h
    obtain ⟨_, u1, h1, h⟩ := bind_eq_ok.mp h
    obtain ⟨hkeep1, ag, hag⟩ := keeps_loadAg h1
    have hclear1 := hclear.of_holds hkeep1.sb fun _ _ => holds_loadAg h1
    have hok1 := hkeep1.groups hok
    have hsb1 := hkeep1.sb.trans hsb
    have hgroup := hok1 k (hsb1 ▸ hk) ag hag
    have hthere1 := hclear1 k (hsb1 ▸ hk) ag (Or.inl hag)
    rw [hsb1] at hgroup hthere1
    simp only [get_bind_apply] at h
    obtain ⟨found, u2, h2, h⟩ := bind_eq_ok.mp h
    obtain ⟨ag2, hrun, rfl⟩ := (onAg_eq_ok hag).mp h2
    cases found with
    | some agino =>
      obtain ⟨hino, rfl⟩ := EStateM.Result.ok.inj h
      obtain ⟨hthere, hfree, htotal, hlen⟩ := allocInode_there hrun
      obtain ⟨hblt, hzero⟩ := hthere1 agino hthere
      refine ⟨hkeep1.trans (keeps_putAg_same hag hfree htotal hlen), k, hsb1 ▸ hk, agino, hino.symm, ?_⟩
      change (u1.putAg k ag2).BlockHeld k (blockOf u1.sb agino)
      rw [hsb1]
      exact ⟨ag2, ag?_putAg_self hag, hlen ▸ hblt, hfree ▸ hzero⟩
    | none =>
      have hsame : ag2 = ag := by
        rcases allocInode_eq_ok hrun with ⟨-, rfl⟩ | ⟨_, _, _, _, _, hsome, _⟩
        · rfl
        · cases hsome
      subst hsame
      have hag2 : (u1.putAg k ag2).ag? k = some ag2 := ag?_putAg_self hag
      have hkeep2 := hkeep1.trans (keeps_putAg_same hag rfl rfl rfl)
      simp only at h
      obtain ⟨w, u3, h3, h⟩ := bind_eq_ok.mp h
      obtain ⟨-, rfl⟩ := getWriter_eq_ok h3
      obtain ⟨_, u4, h4, h⟩ := bind_eq_ok.mp h
      obtain ⟨-, rfl⟩ := liftE_eq_ok.mp h4
      obtain ⟨placed, u5, h5, h⟩ := bind_eq_ok.mp h
      obtain ⟨ag5, hrun5, rfl⟩ := (onAg_eq_ok hag2).mp h5
      rw [hsb1] at hrun5
      rcases @allocChunk_eq v.sb ag2 hgroup.space.freeOk (chunkBlocks_pos hs hper) with
        ⟨hnone, -⟩ | ⟨s, ag1, hsome, -, hal, -⟩
      · -- no place here: the next group
        rw [hnone] at hrun5
        obtain ⟨rfl, rfl⟩ := EStateM.Result.ok.inj hrun5
        have hkeep5 := hkeep2.trans (keeps_putAg_same hag2 rfl rfl rfl)
        obtain ⟨hkeep, hheld⟩ := @ih ((u1.putAg k ag2).putAg k ag2) hsb1 (fun j hj => hlt j (List.mem_cons_of_mem _ hj))
          (hkeep5.groups hok) (hclear1.of_holds rfl fun _ _ hh =>
            holds_putAg_self hag (holds_putAg_self hag2 hh)) h
        exact ⟨hkeep5.trans hkeep, hheld⟩
      · rw [hsome] at hrun5
        obtain ⟨rfl, rfl⟩ := EStateM.Result.ok.inj hrun5
        simp only at h
        have hag5 : ((u1.putAg k ag2).putAg k (withChunk v.sb ag1 s)).ag? k =
            some (withChunk v.sb ag1 s) := ag?_putAg_self hag2
        obtain ⟨given, u6, h6, h⟩ := bind_eq_ok.mp h
        obtain ⟨ag6, hrun6, rfl⟩ := (onAg_eq_ok hag5).mp h6
        cases given with
        | none => cases h
        | some agino =>
          simp only at h
          obtain ⟨_, u7, h7, h⟩ := bind_eq_ok.mp h
          obtain ⟨-, rfl⟩ := EStateM.Result.ok.inj h7
          obtain ⟨_, u8, h8, h⟩ := bind_eq_ok.mp h
          obtain ⟨hino, rfl⟩ := EStateM.Result.ok.inj h
          obtain ⟨hthere, hfree, htotal, hlen⟩ := allocInode_there hrun6
          obtain ⟨hblt, hzero⟩ := clear_withChunk hs hper hnum hgroup hthere1 hal hthere
          obtain ⟨free', htakes, hag1⟩ := hal.takes
          have hlen1 : (withChunk v.sb ag1 s).len = ag2.len := by rw [hag1]; rfl
          have hkeep5 : Keeps (u1.putAg k ag2) ((u1.putAg k ag2).putAg k (withChunk v.sb ag1 s)) := by
            refine keeps_putAg hag2 (fun hg => ⟨?_, hlen1 ▸ hg.agLen⟩) hlen1 fun b => ?_
            · exact (hg.space.allocated hal).of_same rfl rfl rfl
            · have hat := htakes.at_ b
              rw [hag1]
              change freeAt free' b ≤ freeAt ag2.free b
              omega
          have hkeep7 := (hkeep2.trans hkeep5).trans (keeps_putAg_same hag5 hfree htotal hlen)
          have hheld : InoHeld (((u1.putAg k ag2).putAg k (withChunk v.sb ag1 s)).putAg k ag6) ino := by
            refine ⟨k, hsb1 ▸ hk, agino, hino.symm, ag6, ag?_putAg_self hag5, ?_⟩
            change blockOf u1.sb agino < ag6.len ∧ freeAt ag6.free (blockOf u1.sb agino) = 0
            rw [hsb1, hlen, hlen1, hfree]
            exact ⟨hblt, hzero⟩
          have hkeep8 := (keeps_newChunks (((u1.putAg k ag2).putAg k
            (withChunk v.sb ag1 s)).putAg k ag6)).trans (keeps_initChunk h8)
          exact ⟨hkeep7.trans hkeep8, hheld.keeps hkeep8⟩

end

/-! ## A new name's inode -/

section
variable {v v' : Volume}

theorem mem_agOrder {sb : Superblock} {first k : Nat} {agnos : List Nat} (hn : 0 < sb.agCount)
    (h : agOrder sb first = .ok agnos) (hk : k ∈ agnos) : k < sb.agCount := by
  rw [agOrder_eq hn] at h
  split at h
  · cases h
  · obtain rfl := Except.ok.inj h
    exact List.mem_range.mp (List.mem_rotate.mp hk)

theorem now_eq_ok {t : Timestamp} (h : now v = .ok t v') :
    v'.dev = v.dev ∧ v'.sb = v.sb ∧ v'.w = v.w := by
  unfold now readClock at h
  simp only [get_bind_apply] at h
  cases ht : v.time with
  | some t0 =>
    simp only [ht] at h
    obtain ⟨-, rfl⟩ := EStateM.Result.ok.inj h
    exact ⟨rfl, rfl, rfl⟩
  | none =>
    cases hc : v.clock <;> simp only [ht, hc, get_bind_apply] at h <;>
      obtain ⟨-, rfl⟩ := EStateM.Result.ok.inj h <;> exact ⟨rfl, rfl, rfl⟩

/-- A new inode's bytes are made of the clock and the generator. -/
theorem newRaw_eq_ok {ino m uid gid nlink : Nat} {raw : Bytes}
    (h : newRaw ino m uid gid nlink v = .ok raw v') :
    Keeps v v' ∧ ∃ gen t, raw = freshRaw v.sb ino m uid gid nlink gen t := by
  unfold newRaw at h
  obtain ⟨t, v1, h1, h2⟩ := bind_eq_ok.mp h
  obtain ⟨hdev1, hsb1, hw1⟩ := now_eq_ok h1
  obtain ⟨gen, v2, h3, h4⟩ := bind_eq_ok.mp h2
  obtain ⟨hdev2, hsb2, hag2⟩ := nextGen_eq_ok h3
  simp only [get_bind_apply] at h4
  obtain ⟨word, v3, h5, h6⟩ := bind_eq_ok.mp h4
  obtain ⟨-, rfl⟩ := liftE_eq_ok.mp h5
  obtain ⟨rfl, rfl⟩ := EStateM.Result.ok.inj h6
  have hsb := hsb2.trans hsb1
  refine ⟨keeps_of_same hsb (congrArg Device.size (hdev2.trans hdev1)) fun k => ?_, gen, word, ?_⟩
  · rw [hag2]
    unfold ag?
    rw [hw1]
  · rw [hsb]

/-- What a volume that can be given a new inode is: its groups in order, the inodes that are
there clear of the free space, and their numbers in 32 bits. -/
structure Plottable (v : Volume) : Prop where
  sound : v.sb.Sound
  perBlock : v.sb.inodesPerBlock ≤ 64
  agino_le : v.sb.agBlocks * v.sb.inodesPerBlock ≤ 2 ^ 32
  groups : v.GroupsOk
  clear : v.InodesClear

/-- Creating a node gives an inode of a held block, and its bytes. -/
theorem createNode_eq_ok {path : Bytes} {m uid gid nlink : Nat} {node : Nat × Bytes × Nat × Bytes}
    (hp : v.Plottable) (h : createNode path m uid gid nlink v = .ok node v') :
    Keeps v v' ∧ v'.InoHeld node.2.2.1 ∧
      ∃ gen t, node.2.2.2 = freshRaw v.sb node.2.2.1 m uid gid nlink gen t := by
  unfold createNode at h
  simp only [get_bind_apply] at h
  obtain ⟨⟨dino, name⟩, v1, h1, h2⟩ := bind_eq_ok.mp h
  obtain ⟨-, rfl⟩ := liftE_eq_ok.mp h1
  obtain ⟨found, v2, h3, h4⟩ := bind_eq_ok.mp h2
  obtain ⟨-, rfl⟩ := liftE_eq_ok.mp h3
  obtain ⟨-, h5⟩ := act_throwIf_bind_eq_ok.mp h4
  obtain ⟨_, v3, h6, h7⟩ := bind_eq_ok.mp h5
  obtain ⟨hdev, hsb, -, hags⟩ := writer_eq_ok h6
  have hkeep3 : Keeps v v3 := keeps_of_same hsb (congrArg Device.size hdev) hags
  have hclear3 : v3.InodesClear := hp.clear.of_holds hsb fun k ag hh =>
    hh.of_same hdev.symm hsb.symm (hags k).symm
  obtain ⟨ino, v4, h8, h9⟩ := bind_eq_ok.mp h7
  unfold allocIno at h8
  simp only [get_bind_apply] at h8
  obtain ⟨agnos, v5, h10, h11⟩ := bind_eq_ok.mp h8
  obtain ⟨horder, rfl⟩ := liftE_eq_ok.mp h10
  rw [hsb] at horder
  obtain ⟨hkeep4, hheld⟩ := allocInoFrom_held hp.perBlock hp.agino_le hp.sound hsb
    (fun k hk => mem_agOrder hp.sound.agCount_pos horder hk) (hkeep3.groups hp.groups) hclear3 h11
  obtain ⟨raw, v6, h12, h13⟩ := bind_eq_ok.mp h9
  obtain ⟨rfl, rfl⟩ := EStateM.Result.ok.inj h13
  obtain ⟨hkeep5, gen, t, hraw⟩ := newRaw_eq_ok h12
  rw [hkeep4.sb, hsb] at hraw
  exact ⟨(hkeep3.trans hkeep4).trans hkeep5, hheld.keeps hkeep5, gen, t, hraw⟩

/-- A name that is put in a directory is in memory only. -/
theorem addName_eq_ok {dino ino : Nat} {name : Bytes} {kind : FileType}
    (h : addName dino name ino kind v = .ok () v') : v'.dev = v.dev ∧ v'.sb = v.sb := by
  unfold addName changeNames dirState at h
  obtain ⟨_, v1, h1, h2⟩ := bind_eq_ok.mp h
  obtain ⟨-, rfl⟩ := EStateM.Result.ok.inj h2
  obtain ⟨_, v2, h3, h4⟩ := bind_eq_ok.mp h1
  obtain ⟨hdev, hsb, -, -⟩ := writer_eq_ok h3
  obtain ⟨w, v3, h5, h6⟩ := bind_eq_ok.mp h4
  obtain ⟨-, rfl⟩ := getWriter_eq_ok h5
  split at h6
  · simp only [get_bind_apply] at h6
    obtain ⟨dir, v4, h7, h8⟩ := bind_eq_ok.mp h6
    obtain ⟨-, rfl⟩ := liftE_eq_ok.mp h7
    obtain ⟨names, v5, h9, h10⟩ := bind_eq_ok.mp h8
    obtain ⟨-, rfl⟩ := liftE_eq_ok.mp h9
    obtain ⟨-, rfl⟩ := EStateM.Result.ok.inj h10
    exact ⟨hdev, hsb⟩
  · obtain ⟨-, rfl⟩ := EStateM.Result.ok.inj h6
    exact ⟨hdev, hsb⟩

end

end Volume

end FioXfs
