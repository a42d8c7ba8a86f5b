import FioXfs.Bmap.ReadBack
import FioXfs.Write.Groups
set_option autoImplicit false

/-!
# Mapping a fork ends

A fork with more extents than it holds becomes the root of a B+tree, and the levels of that tree
shrink until the root holds them.  A fork offset the parser admits can leave the root no room
for a single entry; then no level is small enough.
-/

namespace FioXfs

open FioXfs.Lib FioXfs.Alloc FioXfs.Bmap

namespace Volume

/-! ## What it means that mapping ends -/

/-- The level sizes `bmap_level_sizes` goes through, one round after another. -/
def levelAt (sb : Superblock) (n rounds : Nat) : Nat :=
  (divCeil · (bmapBlockMax sb.blockSize))^[rounds] (max (divCeil n (bmapBlockMax sb.blockSize)) 1)

/-- Mapping ends: `bmap_root_max` does not underflow, and in every volume `map_fork` has the extents
packed in the inode, or level sizes that come down to what the root holds, for whose blocks the
rest of it is run. -/
structure MapForkEnds (sb : Superblock) (ino forkSize : Nat) (extents : List Extent) : Prop where
  no_underflow : 4 ≤ forkSize
  outcome : ∀ v : Volume, v.sb = sb →
    extents.length ≤ forkSize / 16 ∧
        mapFork ino extents forkSize v = .ok (.extents, packExtents extents, 0) v ∨
      ∃ sizes last, bmapLevelSizes extents.length sb.blockSize (bmapRootMax forkSize) = some sizes ∧
        sizes.getLast? = some last ∧ last ≤ bmapRootMax forkSize ∧
        mapFork ino extents forkSize v = mapOver ino extents forkSize sizes.sum v

section
variable {sb : Superblock} {ino forkSize n : Nat} {extents : List Extent}

/-- There are level sizes exactly when the levels come down to the root. -/
theorem bmapLevelSizes_isSome_iff (hs : sb.Sound) :
    (bmapLevelSizes n sb.blockSize (bmapRootMax forkSize)).isSome ↔
      ∃ rounds, levelAt sb n rounds ≤ bmapRootMax forkSize := by
  have hmax := bmapBlockMax_ge hs
  unfold bmapLevelSizes
  rw [Option.isSome_map]
  exact levelsAbove_isSome_iff (by omega) (Nat.le_max_right _ _)

/-- They do as soon as one entry has room in the root. -/
theorem levelAt_le_iff (hs : sb.Sound) (h4 : 4 ≤ forkSize) :
    (∃ rounds, levelAt sb n rounds ≤ bmapRootMax forkSize) ↔ 20 ≤ forkSize := by
  have hmax := bmapBlockMax_ge hs
  refine (levelsEnd_iff (by omega) (Nat.le_max_right _ _)).trans ?_
  rw [bmapRootMax, Nat.le_div_iff_mul_le (by norm_num)]
  omega

/-- Extents that fit in the fork are packed there. -/
theorem mapFork_inline {v : Volume} (hfit : extents.length ≤ forkSize / 16) :
    mapFork ino extents forkSize v = .ok (.extents, packExtents extents, 0) v := by
  unfold mapFork
  rw [if_pos hfit]
  rfl

/-- Extents that do not fit are mapped over the blocks the level sizes come to. -/
theorem mapFork_over {v : Volume} (hfit : ¬extents.length ≤ forkSize / 16) {sizes : List Nat}
    (h : bmapLevelSizes extents.length v.sb.blockSize (bmapRootMax forkSize) = some sizes) :
    mapFork ino extents forkSize v = mapOver ino extents forkSize sizes.sum v := by
  have hnb : bmapBlocks extents.length v.sb.blockSize (bmapRootMax forkSize) = some sizes.sum := by
    rw [bmapBlocks, h, Option.map_some]
  unfold mapFork
  rw [if_neg hfit]
  simp only [get_bind_apply]
  rw [hnb]

/-- Without level sizes, `map_fork` never gets past them. -/
theorem mapFork_stuck {v : Volume} (hfit : ¬extents.length ≤ forkSize / 16)
    (h : bmapLevelSizes extents.length v.sb.blockSize (bmapRootMax forkSize) = none) :
    mapFork ino extents forkSize v = .error (.panic "the level sizes never end") v := by
  have hnb : bmapBlocks extents.length v.sb.blockSize (bmapRootMax forkSize) = none := by
    rw [bmapBlocks, h, Option.map_none]
  unfold mapFork
  rw [if_neg hfit]
  simp only [get_bind_apply]
  rw [hnb]
  rfl

/-- With room for an entry in the root, or for the extents in the fork, mapping ends. -/
theorem mapForkEnds_of_room (hs : sb.Sound) (h4 : 4 ≤ forkSize)
    (h : extents.length ≤ forkSize / 16 ∨ 20 ≤ forkSize) : MapForkEnds sb ino forkSize extents := by
  refine ⟨h4, fun v hv => ?_⟩
  subst hv
  by_cases hfit : extents.length ≤ forkSize / 16
  · exact Or.inl ⟨hfit, mapFork_inline hfit⟩
  · have hsome := (bmapLevelSizes_isSome_iff hs).mpr ((@levelAt_le_iff _ _ extents.length hs h4).mpr
      (h.resolve_left hfit))
    obtain ⟨sizes, hsizes⟩ := Option.isSome_iff_exists.mp hsome
    obtain ⟨ls, hls, rfl⟩ := Option.map_eq_some_iff.mp hsizes
    obtain ⟨last, hlast, hle⟩ := getLast_levelsAbove_le hls
    exact Or.inr ⟨_, last, hsizes, hlast, hle, mapFork_over hfit hsizes⟩

/-- With room for neither, no level is small enough, and `map_fork` never ends in any volume. -/
theorem mapFork_never (hs : sb.Sound) (h4 : 4 ≤ forkSize)
    (h : ¬(extents.length ≤ forkSize / 16 ∨ 20 ≤ forkSize)) :
    (∀ rounds, bmapRootMax forkSize < levelAt sb extents.length rounds) ∧
      ∀ v : Volume, v.sb = sb →
        mapFork ino extents forkSize v = .error (.panic "the level sizes never end") v := by
  obtain ⟨hfit, hroom⟩ := not_or.mp h
  have hno : ¬∃ rounds, levelAt sb extents.length rounds ≤ bmapRootMax forkSize :=
    fun hends => hroom ((levelAt_le_iff hs h4).mp hends)
  refine ⟨fun rounds => not_le.mp fun hle => hno ⟨rounds, hle⟩, fun v hv => ?_⟩
  subst hv
  refine mapFork_stuck hfit (Option.not_isSome_iff_eq_none.mp fun hsome => hno ?_)
  exact (bmapLevelSizes_isSome_iff hs).mp hsome

/-- Mapping that never gets past the level sizes does not end. -/
theorem not_mapForkEnds (hs : sb.Sound) (hfit : ¬extents.length ≤ forkSize / 16)
    (hlevels : ∀ rounds, bmapRootMax forkSize < levelAt sb extents.length rounds) :
    ¬MapForkEnds sb ino forkSize extents := by
  intro hends
  rcases hends.outcome { freshVolume with sb := sb } rfl with ⟨hin, -⟩ | ⟨sizes, _, hsizes, -⟩
  · exact hfit hin
  · obtain ⟨rounds, hle⟩ := (bmapLevelSizes_isSome_iff hs).mp (Option.isSome_iff_exists.mpr ⟨sizes, hsizes⟩)
    exact absurd hle (not_le.mpr (hlevels rounds))

end

/-! ## The forks the parser admits -/

/-- The data fork of an inode as it was read is as long as its fork offset says. -/
theorem dataForkSize_of_parse {sb : Superblock} {ino : Nat} {buf : Bytes} {i : Inode}
    (hs : sb.Sound) (h : Inode.parse sb ino buf = .ok i) :
    Raw.dataForkSize (buf.take sb.inodeSize) =
      if getBe 1 buf 82 = 0 then sb.inodeSize - CORE else getBe 1 buf 82 * 8 := by
  have hsize := hs.inodeSize_ge
  unfold Inode.parse at h
  rw [except_bind_eq_ok] at h
  obtain ⟨_, hlen, -⟩ := h
  have hlen : sb.inodeSize ≤ buf.length := not_lt.mp (except_throwIf_eq_ok.mp hlen)
  have hbyte : getBe 1 (buf.take sb.inodeSize) 82 = getBe 1 buf 82 := by
    have htake : buf.take sb.inodeSize = slice buf 0 sb.inodeSize := by rw [slice, List.drop_zero]
    rw [getBe, htake, slice_slice (by omega), Nat.zero_add, getBe]
  unfold Raw.dataForkSize
  simp only [hbyte, List.length_take, Nat.min_eq_left hlen]
  by_cases h0 : getBe 1 buf 82 = 0
  · rw [if_pos (by omega), if_pos h0]
  · rw [if_neg (by omega), if_neg h0]

/-- The forks and extents that leave room, told by the fork offset. -/
theorem room_iff_forkoff {sb : Superblock} {ino : Nat} {buf : Bytes} {i : Inode} (hs : sb.Sound)
    (hi : Inode.parse sb ino buf = .ok i) (extents : List Extent) :
    4 ≤ Raw.dataForkSize (buf.take sb.inodeSize) ∧
      ((extents.length ≤ Raw.dataForkSize (buf.take sb.inodeSize) / 16 ∨
          20 ≤ Raw.dataForkSize (buf.take sb.inodeSize)) ↔
        (getBe 1 buf 82 = 1 → extents = []) ∧ (getBe 1 buf 82 = 2 → extents.length ≤ 1)) := by
  have hsize := hs.inodeSize_ge
  rw [dataForkSize_of_parse hs hi, ← List.length_eq_zero_iff]
  split
  · unfold CORE
    omega
  · omega

/-- Mapping ends for every inode the parser accepts, except where the fork offset is 8 and there
is an extent, or 16 and there are two: no entry fits in the root then, every level stays above it,
and `map_fork` never returns. -/
theorem map_fork_ends_iff {sb : Superblock} {sector buf : Bytes} {ino : Nat} {i : Inode}
    (hsb : Superblock.parse sector = .ok sb) (hi : Inode.parse sb ino buf = .ok i)
    (extents : List Extent) :
    let forkSize := Raw.dataForkSize (buf.take sb.inodeSize)
    let room := (getBe 1 buf 82 = 1 → extents = []) ∧ (getBe 1 buf 82 = 2 → extents.length ≤ 1)
    (MapForkEnds sb ino forkSize extents ↔ room) ∧
      (¬room → (∀ rounds, bmapRootMax forkSize < levelAt sb extents.length rounds) ∧
        ∀ v : Volume, v.sb = sb →
          mapFork ino extents forkSize v = .error (.panic "the level sizes never end") v) := by
  intro forkSize room
  have hs := Superblock.sound_of_parse hsb
  obtain ⟨h4, hroom⟩ := room_iff_forkoff hs hi extents
  refine ⟨⟨fun hends => ?_, fun h => mapForkEnds_of_room hs h4 (hroom.mpr h)⟩,
    fun h => mapFork_never hs h4 fun hor => h (hroom.mp hor)⟩
  by_contra hno
  have hnor : ¬(extents.length ≤ forkSize / 16 ∨ 20 ≤ forkSize) := fun hor => hno (hroom.mp hor)
  obtain ⟨hlevels, -⟩ := @mapFork_never sb ino forkSize extents hs h4 hnor
  exact not_mapForkEnds hs (not_or.mp hnor).1 hlevels hends

/-! ## An inode that is never mapped -/

/-- An inode of a new filesystem, in use, with an attribute fork from byte `8 * forkoff` on. -/
def forkedInode (ino forkoff : Nat) : Bytes :=
  let b : Bytes := List.replicate 256 0
  let b := put16 b 0 Inode.MAGIC
  let b := put16 b 2 Mode.IFREG
  let b := putBe 1 b 4 3
  let b := putBe 1 b 5 2
  let b := putBe 1 b 82 forkoff
  let b := putBe 1 b 83 1
  let b := put64 b 152 ino
  Crc.stamp b INODE_CRC

set_option maxRecDepth 100000 in
theorem parse_forkedInode (forkoff : Nat) (h : forkoff = 1 ∨ forkoff = 3) :
    ∃ i, Inode.parse (freshSb 16 true) 20 (forkedInode 20 forkoff) = .ok i := by
  have hok : (Inode.parse (freshSb 16 true) 20 (forkedInode 20 forkoff)).isOk = true := by
    rcases h with rfl | rfl <;> decide +kernel
  cases hp : Inode.parse (freshSb 16 true) 20 (forkedInode 20 forkoff) with
  | ok i => exact ⟨i, rfl⟩
  | error e =>
    rw [hp] at hok
    cases hok

set_option maxRecDepth 100000 in
/-- A fork offset of 24 leaves room for one entry. -/
theorem map_fork_ends_fresh :
    (Superblock.parse (freshSector 16 true) = .ok (freshSb 16 true) ∧
      ∃ i, Inode.parse (freshSb 16 true) 20 (forkedInode 20 3) = .ok i) ∧
    MapForkEnds (freshSb 16 true) 20 (Raw.dataForkSize ((forkedInode 20 3).take 256))
      [⟨0, 9, 1, false⟩, ⟨1, 11, 1, false⟩] := by
  have hp := parse_forkedInode 3 (Or.inr rfl)
  refine ⟨⟨parse_fresh, hp⟩, ?_⟩
  obtain ⟨i, hi⟩ := hp
  have hoff : getBe 1 (forkedInode 20 3) 82 = 3 := by decide +kernel
  refine (map_fork_ends_iff parse_fresh hi [⟨0, 9, 1, false⟩, ⟨1, 11, 1, false⟩]).1.mpr ?_
  exact ⟨fun h => by omega, fun h => by omega⟩

/-- Whether an outcome is the given panic. -/
def stopsWith {σ α : Type} (why : String) : EStateM.Result Error σ α → Bool
  | .error (.panic why') _ => why' == why
  | _ => false

theorem exists_of_stopsWith {σ α : Type} {why : String} {r : EStateM.Result Error σ α}
    (h : stopsWith why r = true) : ∃ s, r = .error (.panic why) s := by
  unfold stopsWith at h
  split at h
  · rename_i why' s
    obtain rfl : why' = why := by simpa using h
    exact ⟨s, rfl⟩
  · cases h

/-- A new filesystem on a device that has all its blocks. -/
def roomyVolume : Volume :=
  { freshVolume with dev := ⟨(freshDevice 16 true).data ++ List.replicate 4096 0, []⟩ }

set_option maxRecDepth 100000 in
theorem storeData_stuck :
    stopsWith "the level sizes never end" (storeData 20 8 [1] roomyVolume) = true := by
  decide +kernel

set_option maxRecDepth 100000 in
/-- With a fork offset of 8, storing one byte in a new filesystem finds its block and then never
has it mapped. -/
theorem map_fork_never_ends :
    (∃ i, Inode.parse (freshSb 16 true) 20 (forkedInode 20 1) = .ok i) ∧
      Raw.dataForkSize ((forkedInode 20 1).take 256) = 8 ∧
      ¬MapForkEnds (freshSb 16 true) 20 8 [⟨0, 9, 1, false⟩] ∧
      ∃ v, storeData 20 8 [1] roomyVolume = .error (.panic "the level sizes never end") v := by
  have hs := Superblock.sound_of_parse parse_fresh
  refine ⟨parse_forkedInode 1 (Or.inl rfl), by decide +kernel, fun hends => ?_,
    exists_of_stopsWith storeData_stuck⟩
  obtain ⟨hlevels, -⟩ := @mapFork_never _ 20 8 [⟨0, 9, 1, false⟩] hs (by norm_num) (by simp)
  exact not_mapForkEnds hs (by simp) hlevels hends

end Volume

end FioXfs
