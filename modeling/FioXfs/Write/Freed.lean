import FioXfs.Write.NewInode
set_option autoImplicit false

/-!
# What is free again

A run that is released is free in the map of its group, and an inode that is freed is marked so in
its chunk.  Both stay so while more is given back and inodes are written.
-/

namespace FioXfs

open FioXfs.Lib FioXfs.Alloc FioXfs.Bmap

namespace Volume

/-! ## Steps that take nothing -/

/-- Block `x` of the filesystem is free in its group, which is in memory. -/
def BlockFree (v : Volume) (x : Nat) : Prop :=
  ∃ k < v.sb.agCount, ∃ b ag, x = v.sb.agbToFsb k b ∧ v.ag? k = some ag ∧ 0 < freeAt ag.free b

/-- Inode `ino` is free in its chunk, and the chunk's group is in memory. -/
def NodeFree (v : Volume) (ino : Nat) : Prop :=
  ∃ k < v.sb.agCount, ∃ agino ag, ino = v.sb.aginoToIno k agino ∧ v.ag? k = some ag ∧
    ∃ e ∈ ag.chunks.entries, InRecord e agino ∧ e.2.free.testBit (agino - e.1) = true

/-- A step after which whatever was free still is. -/
structure Loosens (v v' : Volume) : Prop where
  sb : v'.sb = v.sb
  groups : v.GroupsOk → v'.GroupsOk
  free : v.GroupsOk → ∀ k < v.sb.agCount, ∀ ag, v.ag? k = some ag →
    ∃ ag', v'.ag? k = some ag' ∧ ∀ b, freeAt ag.free b ≤ freeAt ag'.free b

section
variable {v v' v'' : Volume} {L : Ledger} {ag ag' : Ag} {k : Nat}

theorem Loosens.trans (h : Loosens v v') (h' : Loosens v' v'') : Loosens v v'' where
  sb := h'.sb.trans h.sb
  groups hok := h'.groups (h.groups hok)
  free hok k hk ag hag := by
    obtain ⟨ag1, hag1, hle1⟩ := h.free hok k hk ag hag
    obtain ⟨ag2, hag2, hle2⟩ := h'.free (h.groups hok) k (h.sb ▸ hk) ag1 hag1
    exact ⟨ag2, hag2, fun b => (hle1 b).trans (hle2 b)⟩

theorem BlockFree.loosens {x : Nat} (h : v.BlockFree x) (hl : Loosens v v') (hok : v.GroupsOk) :
    v'.BlockFree x := by
  obtain ⟨k, hk, b, ag, hx, hag, hfree⟩ := h
  obtain ⟨ag', hag', hle⟩ := hl.free hok k hk ag hag
  exact ⟨k, hl.sb ▸ hk, b, ag', hl.sb ▸ hx, hag', hfree.trans_le (hle b)⟩

/-- The groups of a volume that minds a ledger are in order. -/
theorem Minds.groupsOk (h : v.Minds L) : v.GroupsOk := fun _ hk _ hag =>
  ⟨(h.of_ag? hk hag).kept.space, (h.of_ag? hk hag).agLen⟩

/-- The groups in memory stay as they are. -/
theorem loosens_of_same (hsb : v'.sb = v.sb) (hag : ∀ k, v'.ag? k = v.ag? k) : Loosens v v' where
  sb := hsb
  groups h k hk ag hget := by
    rw [hsb] at hk ⊢
    exact h k hk ag ((hag k).symm.trans hget)
  free _ k _ ag hget := ⟨ag, (hag k).trans hget, fun _ => Nat.le_refl _⟩

theorem Loosens.refl (v : Volume) : Loosens v v := loosens_of_same rfl fun _ => rfl

theorem Still.loosens (h : Still v v') : Loosens v v' := loosens_of_same h.sb h.ags

theorem loosens_writeRaw {ino : Nat} {raw : Bytes} (h : writeRaw ino raw v = .ok () v') : Loosens v v' := by
  obtain ⟨_, _, _, -, -, -, rfl⟩ := writeRaw_eq_ok h
  exact loosens_of_same rfl fun _ => rfl

theorem loosens_loadAg (h : loadAg k v = .ok () v') : Loosens v v' := by
  obtain ⟨hkeeps, -⟩ := keeps_loadAg h
  obtain ⟨-, hsb, -, hother, ag', hag', hor⟩ := loadAg_eq_ok h
  refine ⟨hsb, hkeeps.groups, fun _ j _ ag hag => ⟨ag, ?_, fun _ => Nat.le_refl _⟩⟩
  by_cases hjk : j = k
  · subst hjk
    rcases hor with hmem | ⟨hnone, -⟩
    · rw [hag'.trans hmem.symm, hag]
    · rw [hnone] at hag
      cases hag
  · exact (hother j hjk).trans hag

/-- One group changes in memory, and no block of it is less free. -/
theorem loosens_putAg (hag : v.ag? k = some ag)
    (hok : GroupOk v.sb k ag → GroupOk v.sb k ag' ∧ ∀ b, freeAt ag.free b ≤ freeAt ag'.free b) :
    Loosens v (v.putAg k ag') := by
  have hput : ∀ j, (v.putAg k ag').ag? j = if j = k then some ag' else v.ag? j :=
    fun j => ag?_putAg (isSome_of_ag? hag)
  refine ⟨rfl, fun h j hj a ha => ?_, fun h j hj a ha => ?_⟩
  · rw [hput] at ha
    split at ha
    · rename_i hjk
      subst hjk
      obtain rfl := Option.some.inj ha
      exact (hok (h j hj ag hag)).1
    · exact h j hj a ha
  · by_cases hjk : j = k
    · subst hjk
      obtain rfl := Option.some.inj (hag.symm.trans ha)
      exact ⟨ag', (hput j).trans (if_pos rfl), (hok (h j hj ag hag)).2⟩
    · exact ⟨a, ((hput j).trans (if_neg hjk)).trans ha, fun _ => Nat.le_refl _⟩

/-- A group with the same space. -/
theorem loosens_putAg_same (hag : v.ag? k = some ag) (hfree : ag'.free = ag.free)
    (htotal : ag'.freeTotal = ag.freeTotal) (hlen : ag'.len = ag.len) : Loosens v (v.putAg k ag') :=
  loosens_putAg hag fun h => ⟨⟨h.space.of_same hfree htotal hlen, hlen ▸ h.agLen⟩, fun b => by rw [hfree]⟩

/-! ## Runs that are released -/

/-- What is freed of a group is free, and what was still is. -/
theorem onAg_freeExtent_frees {s n : Nat} (h : onAg k (freeExtent s n) v = .ok () v') : Loosens v v' ∧
    (v.GroupsOk → k < v.sb.agCount → ∀ b, s ≤ b → b < s + n →
      ∃ ag', v'.ag? k = some ag' ∧ 0 < freeAt ag'.free b) := by
  obtain ⟨ag, ag', hag, hx, rfl⟩ := onAg_ok h
  refine ⟨loosens_putAg hag fun hok => ?_, fun hok hk b hlo hhi => ⟨ag', ag?_putAg_self hag, ?_⟩⟩
  · have hspace := hok.space.freed hx
    obtain ⟨-, -, free', hputs, rfl⟩ := freeExtent_ok hok.space.freeOk hx
    exact ⟨⟨hspace, hok.agLen⟩, fun b => (Nat.le_add_right _ _).trans_eq (hputs.at_ b).symm⟩
  · obtain ⟨-, -, free', hputs, rfl⟩ := freeExtent_ok (hok k hk ag hag).space.freeOk hx
    have hat := hputs.at_ b
    rw [within_eq_one.mpr ⟨hlo, hhi⟩] at hat
    exact hat ▸ Nat.succ_pos _

theorem release_loosens {fsb len owner : Nat} (h : release fsb len owner v = .ok () v') : Loosens v v' ∧
    (v.GroupsOk → v.sb.Fitting → InOneAg v.sb (fsb, len) → ∀ x ∈ covered [(fsb, len)], v'.BlockFree x) := by
  unfold release at h
  simp only [get_bind_apply] at h
  obtain ⟨_, v1, hload, h⟩ := bind_eq_ok.mp h
  obtain ⟨_, v2, hfree, h⟩ := bind_eq_ok.mp h
  have h1 := loosens_loadAg hload
  obtain ⟨h2, hfreed⟩ := onAg_freeExtent_frees hfree
  obtain ⟨ag, ag', hag, hrem, rfl⟩ := onAg_ok h
  have h3 : Loosens v2 (v2.putAg _ ag') :=
    loosens_putAg_same hag (by rw [rmapRemove_same hrem]) (by rw [rmapRemove_same hrem])
      (by rw [rmapRemove_same hrem])
  refine ⟨(h1.trans h2).trans h3, fun hok hf hin x hx => ?_⟩
  obtain ⟨k, hk, s, hat, hagb, hpos, hend⟩ := hin.fsbToAgb hf
  simp only at hat hagb hpos hend
  obtain ⟨hlo, hhi⟩ := mem_covered_singleton.mp hx
  simp only at hlo hhi
  obtain ⟨j, rfl⟩ := Nat.exists_eq_add_of_le hlo
  have ha := hf.addressable
  have hnum : fsb + j = v.sb.agbToFsb k (s + j) := by
    rw [hat, ha.agbToFsb_eq hk (by omega), ha.agbToFsb_eq hk (by omega), Nat.add_assoc]
  rw [hagb] at hfreed
  obtain ⟨ag2, hag2, hzero⟩ := hfreed (h1.groups hok) (h1.sb ▸ hk) (s + j) (Nat.le_add_right _ _) (by omega)
  have hblock : v2.BlockFree (fsb + j) :=
    ⟨k, h2.sb ▸ h1.sb ▸ hk, s + j, ag2, h2.sb ▸ h1.sb ▸ hnum, hag2, hzero⟩
  exact hblock.loosens h3 (h2.groups (h1.groups hok))

/-- Runs that are released are free, every one of them. -/
theorem releaseAll_loosens {owner : Nat} : ∀ {runs : List (Nat × Nat)} {v v' : Volume},
    releaseAll owner runs v = .ok () v' → Loosens v v' ∧ (v.GroupsOk → v.sb.Fitting →
      (∀ r ∈ runs, InOneAg v.sb r) → ∀ x ∈ covered runs, v'.BlockFree x) := by
  intro runs
  induction runs with
  | nil =>
    intro v v' h
    obtain ⟨-, rfl⟩ := EStateM.Result.ok.inj h
    exact ⟨.refl v, fun _ _ _ x hx => absurd hx (by rw [covered_nil]; exact Set.notMem_empty x)⟩
  | cons r runs ih =>
    intro v v' h
    obtain ⟨fsb, len⟩ := r
    obtain ⟨_, v1, h1, h⟩ := bind_eq_ok.mp h
    obtain ⟨hone, hfirst⟩ := release_loosens h1
    obtain ⟨hrest, hothers⟩ := ih h
    refine ⟨hone.trans hrest, fun hok hf hin x hx => ?_⟩
    rw [covered_cons] at hx
    rcases hx with hx | hx
    · exact (hfirst hok hf (hin _ List.mem_cons_self) x hx).loosens hrest (hone.groups hok)
    · exact hothers (hone.groups hok) (hone.sb ▸ hf)
        (fun r hr => hone.sb ▸ hin r (List.mem_cons_of_mem _ hr)) x hx

/-- The blocks of a fork that is freed are free, those of its B+tree as well. -/
theorem freeFork_loosens {i : Inode} {attr : Bool} {n : Nat} (h : freeFork i attr v = .ok n v') :
    Loosens v v' ∧ ∀ es bs, Bmap.forkMap v.dev v.sb i attr = .ok (es, bs) → v.GroupsOk → v.sb.Fitting →
      (∀ r ∈ extentRuns es ++ bs.map (·, 1), InOneAg v.sb r) →
        ∀ x ∈ covered (extentRuns es ++ bs.map (·, 1)), v'.BlockFree x := by
  unfold freeFork at h
  simp only [get_bind_apply] at h
  obtain ⟨⟨es, bs⟩, v1, hread, h⟩ := bind_eq_ok.mp h
  obtain ⟨hmap, rfl⟩ := liftE_eq_ok.mp hread
  obtain ⟨_, v2, hfirst, h⟩ := bind_eq_ok.mp h
  obtain ⟨_, v3, hsecond, h⟩ := bind_eq_ok.mp h
  obtain ⟨-, rfl⟩ := EStateM.Result.ok.inj h
  obtain ⟨h2, hruns⟩ := releaseAll_loosens hfirst
  obtain ⟨h3, htree⟩ := releaseAll_loosens hsecond
  refine ⟨h2.trans h3, fun es' bs' hmap' hok hf hin x hx => ?_⟩
  change Bmap.forkMap v.dev v.sb i attr = .ok (es, bs) at hmap
  obtain ⟨rfl, rfl⟩ := Prod.mk.inj (Except.ok.inj (hmap.symm.trans hmap'))
  rw [covered_append] at hx
  rcases hx with hx | hx
  · exact (hruns hok hf (fun r hr => hin r (List.mem_append_left _ hr)) x hx).loosens h3 (h2.groups hok)
  · exact htree (h2.groups hok) (h2.sb ▸ hf)
      (fun r hr => h2.sb ▸ hin r (List.mem_append_right _ hr)) x hx

/-! ## An inode that is freed -/

/-- The inode is free in its chunk, and the groups' space is as it was. -/
theorem onAg_freeInode_frees {agino : Nat} (h : onAg k (freeInode agino) v = .ok () v') : Loosens v v' ∧
    (k < v.sb.agCount → v'.NodeFree (v.sb.aginoToIno k agino)) := by
  obtain ⟨ag, ag', hag, hx, rfl⟩ := onAg_ok h
  obtain ⟨e, -, hin, -, rfl⟩ := freeInode_eq_ok hx
  refine ⟨loosens_putAg_same hag rfl rfl rfl, fun hk => ⟨k, hk, agino, _, rfl, ag?_putAg_self hag, ?_⟩⟩
  refine ⟨(e.1, e.2.give (agino - e.1)), OrdMap.mem_insert.mpr (Or.inl rfl), hin, ?_⟩
  simp [Chunk.give, Nat.testBit_or, Nat.one_shiftLeft, Nat.testBit_two_pow_self]

end

end Volume

end FioXfs
