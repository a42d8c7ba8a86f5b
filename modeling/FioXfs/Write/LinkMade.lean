import FioXfs.Write.LinkTarget
set_option autoImplicit false

/-!
# Links made

A family of volumes on which links in up to three blocks are made, step by step.  Where a block's
number has more bits than an extent's record has for it, the record stands for another block, and
the link is lost.
-/

namespace FioXfs

open FioXfs.Lib FioXfs.Alloc FioXfs.Bmap FioXfs.Dir

namespace Volume

/-! ## A volume with a root directory -/

/-- `n` groups of 64 blocks numbered in `g` bits, the root directory in the last one. -/
def linkSb (n g : Nat) : Superblock :=
  { freshSb 64 false with
    dataBlocks := 64 * n, agCount := n, agblkLog := g, rootIno := (n - 1) * 2 ^ (g + 1) + 64 }

/-- Its sector. -/
def linkSector (n g : Nat) : Bytes :=
  let b := put64 (freshSector 64 false) 8 (64 * n)
  let b := put64 b 56 ((n - 1) * 2 ^ (g + 1) + 64)
  let b := put32 b 88 n
  Crc.stamp (putBe 1 b 124 g) 224

/-- The root directory's inode. -/
def rootRaw (n g : Nat) : Bytes :=
  freshRaw (linkSb n g) (linkSb n g).rootIno (Mode.IFDIR ||| 0o755) 0 0 2 1 0

/-- Zeroes up to the block of the root directory, and after it. -/
def linkDevice (n g : Nat) : Device :=
  ⟨List.replicate (((n - 1) * 64 + 32) * 512) 0 ++
    (Crc.stamp (rootRaw n g) INODE_CRC ++ List.replicate (32 * 512 - 256) 0), []⟩

/-- Its groups: the inodes of the last one's chunk are free but for the root's. -/
def linkAg (n k : Nat) : Ag :=
  { freshAg 64 false with
    agno := k, free := .ofList [(8, 24)], freeTotal := 24
    chunks := if k + 1 = n then .ofList [(64, ⟨0, 64, 2 ^ 64 - 2⟩)] else .empty }

/-- All of them, and the names of the root directory, in memory. -/
def linkVolume (n g : Nat) : Volume :=
  { dev := linkDevice n g, sb := linkSb n g, log := .clean
    w := some { Writer.new ⟨0, 0⟩ with
      ags := ⟨(List.range n).map fun k => (k, linkAg n k),
        List.pairwise_map.mpr List.pairwise_lt_range⟩
      dirs := .ofList [((linkSb n g).rootIno, ⟨(linkSb n g).rootIno, .empty⟩)] }
    time := some ⟨0, 0⟩, clock := [] }

section
variable {n g k : Nat}

theorem spaceOk_link : SpaceOk (linkAg n k) := by
  have hone : FreeOk (.ofList [(8, 24)]) :=
    freeOk_of_pairwise (by simp [OrdMap.ofList, OrdMap.empty, OrdMap.insert, insertEntry])
      (List.pairwise_singleton _ _)
  refine ⟨hone, rfl, fun b hb => ?_⟩
  obtain ⟨e, he, h1, h2⟩ := exists_of_freeAt_pos hb
  obtain rfl := List.mem_singleton.mp he
  change b < 8 + 24 at h2
  change b < 64
  omega

theorem ag?_link (hk : k < n) : (linkVolume n g).ag? k = some (linkAg n k) :=
  ag?_eq_some.mpr ⟨_, rfl, OrdMap.get?_eq_some.mpr (List.mem_map_of_mem (List.mem_range.mpr hk))⟩

theorem groupOk_link (hk : k < n) : GroupOk (linkSb n g) k (linkAg n k) := by
  refine ⟨spaceOk_link, ?_⟩
  unfold Superblock.agLen
  change (if k * 64 ≤ 64 * n then _ else _) = _
  rw [if_pos (by omega)]
  change Except.ok (min (64 * n - k * 64) 64) = .ok 64
  rw [Nat.min_eq_right (by omega)]

/-- The inodes that are there are those of blocks 32 to 63 of the last group. -/
theorem clear_link {agino : Nat} (h : Present (linkAg n k).chunks agino) :
    blockOf (linkSb n g) agino < 64 ∧ freeAt (linkAg n k).free (blockOf (linkSb n g) agino) = 0 := by
  obtain ⟨e, he, ⟨hlo, hhi⟩, -⟩ := h
  unfold linkAg at he
  simp only at he
  split at he
  · obtain rfl := List.mem_singleton.mp he
    change 64 ≤ agino at hlo
    change agino < 64 + 64 at hhi
    have hblock : blockOf (linkSb n g) agino = agino / 2 := rfl
    rw [hblock]
    refine ⟨by omega, ?_⟩
    by_contra hne
    obtain ⟨x, hx, h1, h2⟩ := exists_of_freeAt_pos (Nat.pos_of_ne_zero hne)
    obtain rfl := List.mem_singleton.mp hx
    change agino / 2 < 8 + 24 at h2
    omega
  · exact absurd he OrdMap.not_mem_empty

/-- What is asked of the numbers: the superblock is sound, and numbers and bytes fit. -/
structure LinkNumbers (n g : Nat) : Prop where
  sound : (linkSb n g).Sound
  pos : 0 < n
  lt : n < 2 ^ 31
  log_ge : 6 ≤ g
  root_lt : (linkSb n g).rootIno < 2 ^ 63

theorem whole_rootRaw (h : LinkNumbers n g) : Raw.Whole (linkSb n g) (linkSb n g).rootIno
    (Mode.IFDIR ||| 0o755) (newFlags2 (linkSb n g)) (rootRaw n g) :=
  Raw.whole_freshRaw h.sound (by decide) (h.root_lt.trans (by norm_num))

theorem length_rootRaw (h : LinkNumbers n g) : (Crc.stamp (rootRaw n g) INODE_CRC).length = 256 := by
  have hlen : (rootRaw n g).length = 256 := (whole_rootRaw h).length_eq
  rw [Crc.length_stamp (by rw [hlen]; decide), hlen]

theorem size_link (h : LinkNumbers n g) : (linkDevice n g).size = 64 * n * 512 := by
  have hpos := h.pos
  unfold linkDevice Device.size
  rw [List.length_append, List.length_append, List.length_replicate, List.length_replicate,
    length_rootRaw h]
  omega

theorem ready_link (h : LinkNumbers n g) : (linkVolume n g).LinkReady where
  fits := (size_link h).ge
  size_lt := by
    have hlt := h.lt
    change (linkDevice n g).size < _
    rw [size_link h]
    omega
  groups k hk ag hag := by
    have hk : k < n := hk
    rw [ag?_link hk] at hag
    obtain rfl := Option.some.inj hag
    exact groupOk_link hk
  clear k hk ag hag agino hthere := by
    have hk : k < n := hk
    rcases hag with hag | ⟨hnone, -⟩
    · rw [ag?_link hk] at hag
      obtain rfl := Option.some.inj hag
      exact clear_link hthere
    · rw [ag?_link hk] at hnone
      cases hnone

theorem LinkNumbers.pow_gt (h : LinkNumbers n g) : 128 ≤ 2 ^ (g + 1) :=
  (Nat.pow_le_pow_right (by norm_num) (Nat.succ_le_succ h.log_ge) : 2 ^ 7 ≤ 2 ^ (g + 1))

/-- Where the inodes of the last group lie. -/
theorem inoToByte_link (h : LinkNumbers n g) {a : Nat} (hpos : 0 < a) (ha : a < 128) :
    (linkSb n g).inoToByte ((n - 1) * 2 ^ (g + 1) + a) =
      .ok (((n - 1) * 64 + a / 2) * 512 + a % 2 * 256) := by
  have hn := h.pos
  have hlt := h.lt
  have hpow := ha.trans_le h.pow_gt
  unfold Superblock.inoToByte
  change (if (n - 1) * 2 ^ (g + 1) + a = 0 ∨ n ≤ ((n - 1) * 2 ^ (g + 1) + a) / 2 ^ (g + 1) ∨
    64 ≤ ((n - 1) * 2 ^ (g + 1) + a) % 2 ^ (g + 1) / 2 ^ 1 then _
    else Except.ok (((((n - 1) * 2 ^ (g + 1) + a) / 2 ^ (g + 1) * 64 +
      ((n - 1) * 2 ^ (g + 1) + a) % 2 ^ (g + 1) / 2 ^ 1) <<< 9) % 2 ^ 64 +
        ((n - 1) * 2 ^ (g + 1) + a) % 2 ^ (g + 1) % 2 ^ 1 * 256)) = _
  rw [Superblock.packed_div hpow, Superblock.packed_mod hpow, if_neg (by omega), Nat.shiftLeft_eq]
  congr 1
  omega

/-- The root directory is there. -/
theorem inode_root (h : LinkNumbers n g) :
    ∃ i, (linkVolume n g).inode (linkSb n g).rootIno = .ok i ∧ i.ino = (linkSb n g).rootIno ∧
      i.isDir = true := by
  have hpos := h.pos
  have hat : (linkSb n g).inoToByte (linkSb n g).rootIno = .ok (((n - 1) * 64 + 32) * 512) :=
    (inoToByte_link h (by norm_num) (by norm_num)).trans (congrArg Except.ok (by omega))
  obtain ⟨i, hparse, hp⟩ := @Raw.parse_stamped (linkSb n g) (linkSb n g).rootIno
    (Mode.IFDIR ||| 0o755) _ (rootRaw n g) (List.replicate 256 0) .extents h.sound rfl (whole_rootRaw h)
    (Raw.format_freshRaw h.sound)
  refine ⟨i, ?_, hp.ino_eq, ?_⟩
  · have hread : (linkVolume n g).dev.readAt (((n - 1) * 64 + 32) * 512) 512 =
        .ok (Crc.stamp (rootRaw n g) INODE_CRC ++ List.replicate 256 0) := by
      refine Device.readAt_eq_ok.mpr ⟨?_, ?_⟩
      · change _ ≤ (linkDevice n g).size
        rw [size_link h]
        omega
      · have hskip := slice_append_right (List.replicate (((n - 1) * 64 + 32) * 512) (0 : UInt8))
          (Crc.stamp (rootRaw n g) INODE_CRC ++ List.replicate (32 * 512 - 256) 0) 0 (n := 512)
        rw [List.length_replicate, Nat.add_zero (((n - 1) * 64 + 32) * 512)] at hskip
        change _ = slice (_ ++ _) _ _
        rw [hskip, slice, List.drop_zero, List.take_append, length_rootRaw h,
          List.take_of_length_le (by rw [length_rootRaw h]; norm_num), List.take_replicate,
          Nat.min_eq_left (by norm_num)]
    unfold inode
    change (do
      let at_ ← (linkSb n g).inoToByte (linkSb n g).rootIno
      let buf ← (linkVolume n g).dev.readAt (at_ / 512 * 512) 512
      Inode.parse (linkSb n g) (linkSb n g).rootIno (buf.drop (at_ % 512))) = _
    rw [hat, except_ok_bind, Nat.mul_div_cancel _ (by norm_num), hread, except_ok_bind, Nat.mul_mod_left,
      List.drop_zero, hparse]
  · unfold Inode.isDir Inode.fileType
    rw [hp.mode_eq]
    decide

end

/-! ## Making a link in it -/

section
variable {n g k : Nat} {v : Volume} {ag ag' : Ag} {α : Type}

/-- The volume while a link is made in its root directory. -/
structure Making (n g : Nat) (ag : Ag) (v : Volume) : Prop where
  sb_eq : v.sb = linkSb n g
  size_eq : v.dev.size = 64 * n * 512
  faults_eq : v.dev.faults = []
  ag_eq : v.ag? (n - 1) = some ag
  root : ∃ w, v.w = some w ∧ (w.dirs.get? (linkSb n g).rootIno).isSome
  time_eq : v.time = some ⟨0, 0⟩

/-- The last group with inode 65 in use. -/
def usedAg (n : Nat) : Ag :=
  { linkAg n (n - 1) with chunks := .ofList [(64, ⟨0, 64, 2 ^ 64 - 4⟩)], dirty := true }

/-- The blocks of a link there: the third fills the hole the second left. -/
def linkBlock : Nat → Nat
  | 0 => 8
  | 1 => 10
  | _ => 9

/-- What is free with the first so many of them taken. -/
def linkFree : Nat → List (Nat × Nat)
  | 0 => [(8, 24)]
  | 1 => [(9, 23)]
  | 2 => [(9, 1), (11, 21)]
  | _ => [(11, 21)]

/-- And then the first `k` blocks of the link. -/
def takenAg (n k : Nat) : Ag := { usedAg n with free := .ofList (linkFree k), freeTotal := 24 - k }

theorem allocInode_link (h : 0 < n) : allocInode (linkAg n (n - 1)) = .ok (some 65) (usedAg n) := by
  unfold usedAg linkAg
  rw [if_pos (by omega : n - 1 + 1 = n)]
  rfl

set_option maxRecDepth 100000 in
theorem allocBlock_taken (hk : k < 3) :
    allocBlockExcept (if k = 0 then 2 ^ 32 - 1 else linkBlock (k - 1) + 1) (takenAg n k) =
      .ok (some (linkBlock k)) (takenAg n (k + 1)) := by
  rcases k with _ | _ | _ | k
  · rfl
  · rfl
  · rfl
  · omega

theorem Making.onAg {x : Act Ag α} {a : α} (h : Making n g ag v) (hx : x ag = .ok a ag') :
    onAg (n - 1) x v = .ok a (v.putAg (n - 1) ag') ∧ Making n g ag' (v.putAg (n - 1) ag') := by
  refine ⟨(onAg_eq_ok h.ag_eq).mpr ⟨ag', hx, rfl⟩,
    ⟨h.sb_eq, h.size_eq, h.faults_eq, ag?_putAg_self h.ag_eq, ?_, h.time_eq⟩⟩
  obtain ⟨w, hw, hdir⟩ := h.root
  exact ⟨{ w with ags := w.ags.insert (n - 1) ag' }, by simp [putAg, hw], hdir⟩

theorem Making.writeAt (h : Making n g ag v) {at_ : Nat} {d : Bytes}
    (hfit : at_ + d.length ≤ 64 * n * 512) :
    ∃ dev, onDev (Device.writeAt at_ d) v = .ok () { v with dev := dev } ∧
      Making n g ag { v with dev := dev } ∧ Device.writeAt at_ d v.dev = .ok () dev := by
  have hdev : Device.writeAt at_ d v.dev = .ok () { v.dev with data := splice v.dev.data at_ d } := by
    unfold Device.writeAt Device.nextFault
    rw [if_pos (by rw [h.size_eq]; exact hfit), h.faults_eq]
  exact ⟨_, onDev_eq_ok.mpr ⟨_, hdev, rfl⟩,
    ⟨h.sb_eq, (Device.size_writeAt hdev).trans h.size_eq, h.faults_eq, h.ag_eq, h.root, h.time_eq⟩,
    hdev⟩

theorem Making.order (hn : LinkNumbers n g) (h : Making n g ag v) :
    ∃ rest, agOrder v.sb (n - 1) = .ok ((n - 1) :: rest) := by
  have hpos := hn.pos
  have hlt := hn.lt
  have hmod : (n - 1) % n = n - 1 := Nat.mod_eq_of_lt (by omega)
  have horder : agOrder v.sb (n - 1) = .ok ((List.range n).rotate (n - 1)) := by
    rw [h.sb_eq, agOrder_eq (show 0 < (linkSb n g).agCount from hpos)]
    change (if 2 ^ 32 < (n - 1) % n + n then _ else Except.ok ((List.range n).rotate ((n - 1) % n))) = _
    rw [hmod, if_neg (by omega)]
  have hfirst : (List.range n).rotate (n - 1) =
      (n - 1) :: ((List.range n).drop n ++ (List.range n).take (n - 1)) := by
    rw [List.rotate_eq_drop_append_take (by simp), List.drop_eq_getElem_cons (by simp; omega),
      List.getElem_range, Nat.sub_add_cancel hpos, List.cons_append]
  exact ⟨_, horder.trans (congrArg Except.ok hfirst)⟩


/-- The names of the root directory are in memory. -/
theorem get?_dirs_link : (OrdMap.ofList [((linkSb n g).rootIno,
    (⟨(linkSb n g).rootIno, .empty⟩ : DirState))]).get? (linkSb n g).rootIno =
      some ⟨(linkSb n g).rootIno, .empty⟩ := by
  change (OrdMap.empty.insert _ _).get? _ = _
  rw [OrdMap.get?_insert, if_pos rfl]

theorem making_link (h : LinkNumbers n g) : Making n g (linkAg n (n - 1)) (linkVolume n g) where
  sb_eq := rfl
  size_eq := size_link h
  faults_eq := rfl
  ag_eq := ag?_link (Nat.sub_lt h.pos Nat.one_pos)
  root := ⟨_, rfl, Option.isSome_of_eq_some get?_dirs_link⟩
  time_eq := rfl

theorem Making.now (h : Making n g ag v) : now v = .ok ⟨0, 0⟩ v := by
  unfold Volume.now
  simp only [get_bind_apply, h.time_eq]
  rfl

theorem Making.newRaw {ino m nlink : Nat} (h : Making n g ag v) :
    ∃ raw v', newRaw ino m 0 0 nlink v = .ok raw v' ∧ Making n g ag v' ∧ v'.dev = v.dev ∧
      ∃ gen t, raw = freshRaw v.sb ino m 0 0 nlink gen t := by
  obtain ⟨w, hw, hdir⟩ := h.root
  have hag : w.ags.get? (n - 1) = some ag := by
    obtain ⟨w', hw', hget⟩ := ag?_eq_some.mp h.ag_eq
    rw [hw] at hw'
    obtain rfl := Option.some.inj hw'
    exact hget
  have hgen : nextGen v = .ok w.nextGen.1 { v with w := some w.nextGen.2 } := by
    unfold nextGen
    rw [bind_of_ok (getWriter_apply hw)]
    change EStateM.Result.ok _ { v with w := v.w.map fun w : Writer => w.nextGen.2 } = _
    rw [hw]
    rfl
  have hraw : tsRaw ⟨0, 0⟩ v.sb.hasBigtime = .ok 0 := by
    have hsmall : v.sb.hasBigtime = false := by
      rw [h.sb_eq]
      change hasBit 1 Superblock.BIGTIME = false
      decide
    rw [hsmall]
    decide
  have hmake : Making n g ag { v with w := some w.nextGen.2 } :=
    ⟨h.sb_eq, h.size_eq, h.faults_eq, ag?_eq_some.mpr ⟨_, rfl, hag⟩, ⟨_, rfl, hdir⟩, h.time_eq⟩
  refine ⟨freshRaw v.sb ino m 0 0 nlink w.nextGen.1 0, _, ?_, hmake, rfl, _, _, rfl⟩
  unfold Volume.newRaw
  rw [bind_of_ok h.now, bind_of_ok hgen]
  simp only [get_bind_apply]
  rw [bind_of_ok (liftE_eq_ok.mpr ⟨hraw, rfl⟩)]
  rfl

/-- The inode of the new link. -/
def newIno (n g : Nat) : Nat := (n - 1) * 2 ^ (g + 1) + 65

/-- Its name goes in the root directory. -/
theorem parentDir_root {i : Inode} (hinode : v.inode v.sb.rootIno = .ok i) (hdir : i.isDir = true) :
    v.parentDir [47, 108] = .ok (v.sb.rootIno, [108]) := by
  have hsplit : splitLast [47, 108] = .ok ([SLASH], [108]) := by decide
  have hresolve : v.resolve [SLASH] true = .ok v.sb.rootIno := by
    have hcomps : splitPath [SLASH] = [] := by decide
    unfold resolve
    rw [hcomps]
    unfold resolveLoop walkComps
    rfl
  unfold parentDir
  rw [hsplit, except_ok_bind]
  simp only
  rw [hresolve, except_ok_bind, hinode, except_ok_bind,
    except_throwIf_bind_of_not (by rw [hdir]; decide)]
  rfl

theorem parentDir_link (h : LinkNumbers n g) :
    (linkVolume n g).parentDir [47, 108] = .ok ((linkSb n g).rootIno, [108]) := by
  obtain ⟨i, hinode, -, hdir⟩ := inode_root h
  exact parentDir_root hinode hdir

theorem entry_link (h : LinkNumbers n g) :
    (linkVolume n g).entry (linkSb n g).rootIno [108] = .ok none := by
  obtain ⟨i, hinode, hino, hdir⟩ := inode_root h
  have hnames : (linkVolume n g).dirEntries i =
      .ok [⟨DOT, (linkSb n g).rootIno, .directory⟩, ⟨DOTDOT, (linkSb n g).rootIno, .directory⟩] := by
    unfold dirEntries
    rw [except_throwIf_bind_of_not (by rw [hdir]; decide), hino]
    have hcached : (linkVolume n g).w.bind (·.cachedEntries (linkSb n g).rootIno) =
        some [⟨DOT, (linkSb n g).rootIno, .directory⟩,
          ⟨DOTDOT, (linkSb n g).rootIno, .directory⟩] := by
      change (OrdMap.get? _ _).map _ = _
      rw [get?_dirs_link]
      rfl
    rw [hcached]
    rfl
  unfold entry
  rw [hinode, except_ok_bind, hnames]
  rfl

theorem createNode_link (h : LinkNumbers n g) {m : Nat} : ∃ raw v',
    createNode [47, 108] m 0 0 1 (linkVolume n g) =
      .ok ((linkSb n g).rootIno, [108], newIno n g, raw) v' ∧ Making n g (usedAg n) v' ∧
      v'.dev = linkDevice n g ∧ ∃ gen t, raw = freshRaw (linkSb n g) (newIno n g) m 0 0 1 gen t := by
  have hmake := making_link h
  obtain ⟨hrun, hmake1⟩ := hmake.onAg (allocInode_link h.pos)
  obtain ⟨rest, horder⟩ := hmake.order h
  obtain ⟨raw, v', hnew, hmake2, hdev, gen, t, hraw⟩ := @Making.newRaw n g _ _ (newIno n g) m 1 hmake1
  have hw : (linkVolume n g).w.isSome := rfl
  have hpow := h.pow_gt
  have hat : ((linkSb n g).inoToAgino (linkSb n g).rootIno).1 = n - 1 := by
    have hlt := h.lt
    unfold Superblock.inoToAgino
    change ((n - 1) * 2 ^ (g + 1) + 64) / 2 ^ (g + 1) % 2 ^ 32 = _
    rw [Superblock.packed_div (by omega), Nat.mod_eq_of_lt (by omega)]
  have hino : (linkSb n g).aginoToIno (n - 1) 65 = newIno n g :=
    Superblock.packed_eq (Nat.succ_le_succ h.sound.agblkLog_le) (by have := h.lt; omega)
      (lt_of_lt_of_le (by norm_num) h.pow_gt)
  have halloc : allocIno (n - 1) (linkVolume n g) =
      .ok (newIno n g) ((linkVolume n g).putAg (n - 1) (usedAg n)) := by
    unfold allocIno
    simp only [get_bind_apply]
    rw [bind_of_ok (liftE_eq_ok.mpr ⟨horder, rfl⟩)]
    unfold allocInoFrom
    rw [bind_of_ok (loadAg_of_loaded hmake.ag_eq)]
    simp only [get_bind_apply]
    rw [bind_of_ok hrun]
    change EStateM.Result.ok ((linkSb n g).aginoToIno (n - 1) 65) _ = _
    rw [hino]
  refine ⟨raw, v', ?_, hmake2, hdev, gen, t, hraw⟩
  unfold createNode
  simp only [get_bind_apply]
  rw [bind_of_ok (liftE_eq_ok.mpr ⟨parentDir_link h, rfl⟩)]
  simp only
  rw [bind_of_ok (liftE_eq_ok.mpr ⟨entry_link h, rfl⟩), act_throwIf_bind_of_not (by decide),
    bind_of_ok (writer_of_isSome hw)]
  change (allocIno ((linkSb n g).inoToAgino (linkSb n g).rootIno).1 >>= _) (linkVolume n g) = _
  rw [hat, bind_of_ok halloc, bind_of_ok hnew]
  rfl


/-- The extents of a link in `k` blocks. -/
def linkExtents (n g k : Nat) : List Extent :=
  (List.range k).map fun i => ⟨i, (n - 1) * 2 ^ g + linkBlock i, 1, false⟩

theorem linkExtents_succ : linkExtents n g (k + 1) =
    linkExtents n g k ++ [⟨k, (n - 1) * 2 ^ g + linkBlock k, 1, false⟩] := by
  unfold linkExtents
  rw [List.range_succ, List.map_append]
  rfl

theorem length_linkExtents : (linkExtents n g k).length = k := by
  unfold linkExtents
  rw [List.length_map, List.length_range]

theorem linkBlock_lt : linkBlock k < 32 := by
  unfold linkBlock
  split <;> decide

theorem le_linkBlock : 8 ≤ linkBlock k := by
  unfold linkBlock
  split <;> decide

theorem LinkNumbers.small (h : LinkNumbers n g) : linkBlock k < 2 ^ g :=
  lt_of_lt_of_le (linkBlock_lt.trans (by norm_num))
    (Nat.pow_le_pow_right (by norm_num) h.log_ge : 2 ^ 6 ≤ 2 ^ g)

/-- A block of the link is the one its number unpacks to. -/
theorem fsbToAgb_link (h : LinkNumbers n g) :
    (linkSb n g).fsbToAgb ((n - 1) * 2 ^ g + linkBlock k) = (n - 1, linkBlock k) :=
  Superblock.unpacked_eq (h.sound.agblkLog_le.trans (by norm_num)) (by have := h.lt; omega) h.small

/-- One block more is taken, not next to the one before. -/
theorem symlinkBlock_link (h : LinkNumbers n g) {ino : Nat} {rest : List Nat} (hk : k < 3)
    (hmake : Making n g (takenAg n k) v) :
    ∃ v', symlinkBlock ino k ((linkExtents n g k).getLast?.map (·.block)) ((n - 1) :: rest) v =
        .ok (some ((n - 1) * 2 ^ g + linkBlock k)) v' ∧
      Making n g (takenAg n (k + 1)) v' ∧ v'.dev = v.dev := by
  have hlt := h.lt
  obtain ⟨hrun, hmake1⟩ := hmake.onAg (allocBlock_taken hk)
  have hfsb : v.sb.agbToFsb (n - 1) (linkBlock k) = (n - 1) * 2 ^ g + linkBlock k := by
    rw [hmake.sb_eq]
    exact Superblock.packed_eq (h.sound.agblkLog_le.trans (by norm_num)) (by omega) h.small
  have hagb : v.sb.fsbToAgb ((n - 1) * 2 ^ g + linkBlock k) = (n - 1, linkBlock k) := by
    rw [hmake.sb_eq]
    exact fsbToAgb_link h
  have hno : v.sb.hasRmapbt = false := by
    rw [hmake.sb_eq]
    change hasBit 0 Superblock.RMAPBT = false
    decide
  have hmap : rmapAdd v.sb (linkBlock k) 1 ino k (takenAg n (k + 1)) = .ok () (takenAg n (k + 1)) := by
    unfold rmapAdd
    rw [hno]
    rfl
  obtain ⟨hrun2, hmake2⟩ := hmake1.onAg hmap
  refine ⟨_, ?_, hmake2, rfl⟩
  unfold symlinkBlock
  rw [bind_of_ok (loadAg_of_loaded hmake.ag_eq)]
  simp only [get_bind_apply]
  rw [bind_of_ok (show _ = EStateM.Result.ok (some (linkBlock k))
    (v.putAg (n - 1) (takenAg n (k + 1))) from ?_)]
  · simp only [hfsb]
    unfold rmapExtent
    rw [bind_of_ok (show _ = EStateM.Result.ok () _ from ?_)]
    · rfl
    · simp only [get_bind_apply, putAg_sb, hagb]
      exact hrun2
  · cases k with
    | zero => exact hrun
    | succ k =>
      rw [linkExtents_succ, List.getLast?_concat, hmake.sb_eq]
      simp only [Option.map_some, fsbToAgb_link h, if_true]
      exact hrun

theorem symlinkExtents_link (h : LinkNumbers n g) {ino count : Nat} : ∀ {k : Nat} {v : Volume},
    k + count ≤ 3 → Making n g (takenAg n k) v →
      ∃ v', symlinkExtents ino (n - 1) k (linkExtents n g k) count v =
          .ok (linkExtents n g (k + count), true) v' ∧
        Making n g (takenAg n (k + count)) v' ∧ v'.dev = v.dev := by
  induction count with
  | zero => exact fun {k v} _ hmake => ⟨v, rfl, hmake, rfl⟩
  | succ count ih =>
    intro k v hk hmake
    obtain ⟨rest, horder⟩ := hmake.order h
    obtain ⟨v1, hblock, hmake1, hdev1⟩ := @symlinkBlock_link n g k v h ino rest (by omega) hmake
    obtain ⟨v2, hextents, hmake2, hdev2⟩ := @ih (k + 1) v1 (by omega) hmake1
    rw [Nat.add_right_comm] at hextents hmake2
    refine ⟨v2, ?_, hmake2, hdev2.trans hdev1⟩
    unfold symlinkExtents
    simp only [get_bind_apply]
    rw [bind_of_ok (liftE_eq_ok.mpr ⟨horder, rfl⟩), bind_of_ok hblock]
    simp only
    rw [← linkExtents_succ]
    exact hextents

theorem fsbToByte_link (h : LinkNumbers n g) :
    (linkSb n g).fsbToByte ((n - 1) * 2 ^ g + linkBlock k) =
      .ok (((n - 1) * 64 + linkBlock k) * 512) := by
  have hn := h.pos
  have hlt := h.lt
  have hb := @linkBlock_lt k
  unfold Superblock.fsbToByte
  change (if n ≤ ((n - 1) * 2 ^ g + linkBlock k) / 2 ^ g ∨ 64 ≤ ((n - 1) * 2 ^ g + linkBlock k) % 2 ^ g
    then _
    else Except.ok (((((n - 1) * 2 ^ g + linkBlock k) / 2 ^ g * 64 +
      ((n - 1) * 2 ^ g + linkBlock k) % 2 ^ g) <<< 9) % 2 ^ 64)) = _
  rw [Superblock.packed_div h.small, Superblock.packed_mod h.small, if_neg (by omega), Nat.shiftLeft_eq]
  congr 1
  omega

/-- The target is written to the blocks, and what lies before them stays. -/
theorem writeSymlink_link (h : LinkNumbers n g) {ino : Nat} {target : Bytes} {es : List Extent} :
    ∀ {off : Nat} {v : Volume}, (∀ e ∈ es, ∃ i, e.block = (n - 1) * 2 ^ g + linkBlock i) →
      Making n g ag v →
        ∃ v', writeSymlink ino (512 - SYMLINK_HDR) target off es v = .ok () v' ∧ Making n g ag v' ∧
          ∀ o k, o + k ≤ ((n - 1) * 64 + 8) * 512 → v'.dev.readAt o k = v.dev.readAt o k := by
  induction es with
  | nil => exact fun {off v} _ hmake => ⟨v, rfl, hmake, fun _ _ _ => rfl⟩
  | cons e es ih =>
    intro off v hes hmake
    have hn := h.pos
    obtain ⟨i, hi⟩ := hes e List.mem_cons_self
    have hlo := @le_linkBlock i
    have hhi := @linkBlock_lt i
    have hle : ((n - 1) * 64 + 8) * 512 ≤ ((n - 1) * 64 + linkBlock i) * 512 :=
      Nat.mul_le_mul_right _ (Nat.add_le_add_left hlo _)
    have hbyte : v.sb.fsbToByte e.block = .ok (((n - 1) * 64 + linkBlock i) * 512) := by
      rw [hmake.sb_eq, hi]
      exact fsbToByte_link h
    have hbuf : (symlinkBuf v.sb ino off (((n - 1) * 64 + linkBlock i) * 512)
        (slice target off (512 - SYMLINK_HDR))).length = 512 := by
      rw [hmake.sb_eq]
      exact length_symlinkBuf h.sound (length_part_le h.sound off target)
    obtain ⟨dev, hwrite, hmake1, hdev⟩ := @Making.writeAt n g v _ hmake
      (((n - 1) * 64 + linkBlock i) * 512)
      (symlinkBuf v.sb ino off (((n - 1) * 64 + linkBlock i) * 512)
        (slice target off (512 - SYMLINK_HDR))) (by rw [hbuf]; omega)
    obtain ⟨v', hrest, hmake', hread⟩ := @ih (off + (512 - SYMLINK_HDR)) { v with dev := dev }
      (fun x hx => hes x (List.mem_cons_of_mem _ hx)) hmake1
    refine ⟨v', ?_, hmake', fun o k hk => (hread o k hk).trans ?_⟩
    · unfold writeSymlink
      simp only [get_bind_apply]
      rw [bind_of_ok (liftE_eq_ok.mpr ⟨hbyte, rfl⟩), bind_of_ok hwrite]
      exact hrest
    · exact Device.readAt_writeAt_disjoint hdev (.inl (hk.trans hle))

theorem dataForkSize_link {ino m f : Nat} {raw : Bytes} (h : Raw.Whole (linkSb n g) ino m f raw) :
    Raw.dataForkSize raw = 80 := by
  rw [h.dataForkSize_eq]
  change 256 - CORE = 80
  decide

theorem remoteSymlink_link (h : LinkNumbers n g) {path target raw : Bytes} {f count : Nat}
    (hmake : Making n g (usedAg n) v) (hraw : Raw.Whole (linkSb n g) (newIno n g) LINK_MODE f raw)
    (hcount : divCeil target.length (512 - SYMLINK_HDR) = count) (hle : count ≤ 3) :
    ∃ raw' v', remoteSymlink path (newIno n g) raw target v = .ok raw' v' ∧
      Making n g (takenAg n count) v' ∧
      Raw.Laid (linkSb n g) (newIno n g) LINK_MODE f .extents count
        (packExtents (linkExtents n g count)) raw' ∧
      ∀ o k, o + k ≤ ((n - 1) * 64 + 8) * 512 → v'.dev.readAt o k = v.dev.readAt o k := by
  have hlt := h.lt
  have hpow := h.pow_gt
  obtain ⟨v1, hextents, hmake1, hdev1⟩ :=
    @symlinkExtents_link n g h (newIno n g) count 0 v (by omega) hmake
  rw [Nat.zero_add] at hextents hmake1
  have hextents : symlinkExtents (newIno n g) (n - 1) 0 [] count v = _ := hextents
  have hnear : (nearIno v.sb (newIno n g)).1 = n - 1 := by
    rw [hmake.sb_eq]
    change ((n - 1) * 2 ^ (g + 1) + 65) / 2 ^ (g + 1) % 2 ^ 32 = _
    rw [Superblock.packed_div (by omega), Nat.mod_eq_of_lt (by omega)]
  have hbs : v.sb.blockSize = 512 := by
    rw [hmake.sb_eq]
    rfl
  obtain ⟨v2, hlink, hmake2, hread⟩ := @writeSymlink_link n g _ h (newIno n g) target
    (linkExtents n g count) 0 v1 (fun e he => by
      obtain ⟨i, -, rfl⟩ := List.mem_map.mp he
      exact ⟨i, rfl⟩) hmake1
  have hsize := dataForkSize_link hraw
  obtain ⟨r, hset⟩ : ∃ r, Raw.setDataFork raw .extents (packExtents (linkExtents n g count)) = .ok r := by
    unfold Raw.setDataFork
    rw [hsize, length_packExtents, length_linkExtents, except_throwIf_bind_of_not (by omega)]
    exact ⟨_, rfl⟩
  obtain ⟨hlaid, -⟩ := @Raw.laid_of_setDataFork _ _ _ _ count _ _ _ _ h.sound hraw (by omega) hset
  refine ⟨Raw.setNblocks (Raw.setNextents r count) count, v2, ?_, hmake2,
    hlaid.put64 h.sound (.inr rfl), fun o k hk => ?_⟩
  · unfold remoteSymlink
    simp only [get_bind_apply, hbs, hnear, hcount]
    rw [bind_of_ok hextents]
    simp only [Bool.not_true, Bool.false_eq_true, if_false]
    rw [bind_of_ok hlink, bind_of_ok (liftE_eq_ok.mpr ⟨hset, rfl⟩), length_linkExtents]
    rfl
  · rw [← hdev1]
    exact hread o k hk

theorem Making.writeRaw (h : LinkNumbers n g) (hmake : Making n g ag v) {raw : Bytes}
    (hlen : raw.length = 256) :
    ∃ v', writeRaw (newIno n g) raw v = .ok () v' ∧ Making n g ag v' := by
  have hlt := h.lt
  have hpos := h.pos
  have hat : v.sb.inoToByte (newIno n g) = .ok (((n - 1) * 64 + 32) * 512 + 256) := by
    rw [hmake.sb_eq]
    exact (inoToByte_link h (by norm_num) (by norm_num)).trans (congrArg Except.ok (by omega))
  have hblock : (((n - 1) * 64 + 32) * 512 + 256) / 512 * 512 = ((n - 1) * 64 + 32) * 512 := by omega
  have hbs : v.sb.blockSize = 512 := by
    rw [hmake.sb_eq]
    rfl
  obtain ⟨buf, hbuf⟩ : ∃ buf, v.dev.readAt (((n - 1) * 64 + 32) * 512) 512 = .ok buf :=
    ⟨_, Device.readAt_eq_ok.mpr ⟨by rw [hmake.size_eq]; omega, rfl⟩⟩
  have hstamp : (Crc.stamp raw INODE_CRC).length = 256 := by
    rw [Crc.length_stamp (by rw [hlen]; decide), hlen]
  have hlenb := Device.length_of_readAt hbuf
  have hsplice : (splice buf 256 (Crc.stamp raw INODE_CRC)).length = 512 := by
    rw [length_splice (by omega), hlenb]
  obtain ⟨dev, hwrite, hmake', -⟩ := @Making.writeAt n g v ag hmake (((n - 1) * 64 + 32) * 512)
    (splice buf 256 (Crc.stamp raw INODE_CRC)) (by rw [hsplice]; omega)
  refine ⟨_, ?_, hmake'⟩
  unfold Volume.writeRaw
  simp only [get_bind_apply, hbs]
  rw [bind_of_ok (liftE_eq_ok.mpr ⟨hat, rfl⟩), hblock, bind_of_ok (liftE_eq_ok.mpr ⟨hbuf, rfl⟩),
    Nat.add_sub_cancel_left]
  exact hwrite

/-- The names of the root directory are changed in memory. -/
theorem Making.changeNames (hmake : Making n g ag v) {f : OrdMap Bytes (Nat × Nat) → OrdMap Bytes (Nat × Nat)} :
    ∃ v', changeNames (linkSb n g).rootIno f v = .ok () v' ∧ Making n g ag v' ∧ v'.dev = v.dev := by
  obtain ⟨w, hw, hdir⟩ := hmake.root
  have hstate : dirState (linkSb n g).rootIno v = .ok () v := by
    unfold dirState
    rw [bind_of_ok (writer_of_isSome (Option.isSome_of_eq_some hw)), bind_of_ok (getWriter_apply hw),
      if_neg (by rw [Option.isNone_eq_false_iff.mpr hdir]; decide)]
    rfl
  obtain ⟨st, hst⟩ := Option.isSome_iff_exists.mp hdir
  have hag : w.ags.get? (n - 1) = some ag := by
    obtain ⟨w', hw', hget⟩ := ag?_eq_some.mp hmake.ag_eq
    rw [hw] at hw'
    obtain rfl := Option.some.inj hw'
    exact hget
  refine ⟨{ v with w := some { w with dirs := w.dirs.insert (linkSb n g).rootIno { st with names := f st.names } } },
    ?_, ⟨hmake.sb_eq, hmake.size_eq, hmake.faults_eq, ag?_eq_some.mpr ⟨_, rfl, hag⟩, ⟨_, rfl, ?_⟩,
      hmake.time_eq⟩, rfl⟩
  · unfold Volume.changeNames
    rw [bind_of_ok hstate]
    unfold modifyWriter
    change EStateM.Result.ok _ { v with w := v.w.map _ } = _
    rw [hw, Option.map_some, hst]
  · rw [OrdMap.get?_insert, if_pos rfl]
    rfl

/-- A link in up to three blocks is made. -/
theorem symlink_link (h : LinkNumbers n g) {target : Bytes} {count : Nat} (hlen : 80 < target.length)
    (hmax : target.length ≤ MAX_TARGET)
    (hcount : divCeil target.length (512 - SYMLINK_HDR) = count) :
    ∃ v' i f r, symlink [47, 108] target (linkVolume n g) = .ok (newIno n g) v' ∧
      v'.sb = linkSb n g ∧ v'.inode (newIno n g) = .ok i ∧
      Raw.ParsedFrom (newIno n g) LINK_MODE f r .extents i ∧
      Raw.Laid (linkSb n g) (newIno n g) LINK_MODE f .extents count
        (packExtents (linkExtents n g count)) r ∧
      be64 r 56 = target.length ∧
      (1 < n → v'.dev.readAt (8 * 512) 512 = .ok (List.replicate 512 0)) := by
  have hlt := h.lt
  have hpos := h.pos
  have hpow := h.pow_gt
  have hthree : count ≤ 3 := by
    rw [← hcount]
    exact (divCeil_le_iff (by decide)).mpr (hmax.trans (by decide))
  have hlong : target.length < 2 ^ 64 := hmax.trans_lt (by decide)
  obtain ⟨raw, v1, hcreate, hmake1, hdev1, gen, t, hraw⟩ := @createNode_link n g h LINK_MODE
  have hino : newIno n g < 2 ^ 64 := by
    have hroot := h.root_lt
    change (n - 1) * 2 ^ (g + 1) + 64 < _ at hroot
    change (n - 1) * 2 ^ (g + 1) + 65 < _
    omega
  have hwhole : Raw.Whole (linkSb n g) (newIno n g) LINK_MODE (newFlags2 (linkSb n g)) raw := by
    rw [hraw]
    exact Raw.whole_freshRaw h.sound (by decide) hino
  obtain ⟨raw2, v2, hremote, hmake2, hlaid, hread⟩ :=
    @remoteSymlink_link n g v1 h [47, 108] target raw _ count hmake1 hwhole hcount hthree
  have hsized : (Raw.setSize raw2 target.length).length = 256 :=
    (hlaid.put64 h.sound (.inl rfl)).whole.length_eq
  obtain ⟨v3, hwrite, hmake3⟩ := @Making.writeRaw n g v2 _ h hmake2 _ hsized
  obtain ⟨v4, hname, -⟩ := @Making.changeNames n g v3 _ hmake3 fun names =>
    names.insert [108] (newIno n g, FileType.symlink.code)
  have hname : addName (linkSb n g).rootIno [108] (newIno n g) .symlink v3 = .ok () v4 := hname
  have htail : (do
      writeRaw (newIno n g) (Raw.setSize raw2 target.length)
      addName (linkSb n g).rootIno [108] (newIno n g) .symlink
      return newIno n g : Act Volume Nat) v2 = .ok (newIno n g) v4 := by
    rw [bind_of_ok hwrite, bind_of_ok hname]
    rfl
  have hrun : symlink [47, 108] target (linkVolume n g) = .ok (newIno n g) v4 := by
    have hsize := dataForkSize_link hwhole
    have hgiven : ¬(target = [] ∨ MAX_TARGET < target.length) := by
      rintro (rfl | hover)
      · exact absurd hlen (by decide)
      · omega
    unfold symlink
    rw [act_throwIf_bind_of_not hgiven]
    change (createNode [47, 108] LINK_MODE 0 0 1 >>= _) (linkVolume n g) = _
    rw [bind_of_ok hcreate]
    simp only
    rw [if_neg (by rw [hsize]; omega), bind_of_ok hremote]
    exact htail
  have hblock : inodeBlock (linkSb n g) (newIno n g) = (n - 1) * 64 + 32 := by
    change ((n - 1) * 2 ^ (g + 1) + 65) / 2 ^ (g + 1) * 64 +
      ((n - 1) * 2 ^ (g + 1) + 65) % 2 ^ (g + 1) / 2 ^ 1 = _
    rw [Superblock.packed_div (by omega), Superblock.packed_mod (by omega)]
    norm_num
  have hsb := hmake2.sb_eq
  have hlin : inodeBlock v2.sb (newIno n g) * v2.sb.blockSize % 2 ^ 64 =
      inodeBlock v2.sb (newIno n g) * v2.sb.blockSize := by
    rw [hsb, hblock]
    exact Nat.mod_eq_of_lt (show ((n - 1) * 64 + 32) * 512 < 2 ^ 64 by omega)
  rw [← hsb] at hlaid
  obtain ⟨-, hsb4, i, r, hinode, hp, hlaid4, hsize4, hother⟩ :=
    link_written (hsb ▸ h.sound) (by rw [hsb]; rfl) hlaid hlong hlin htail
  rw [hsb] at hp hlaid4 hsb4 hother
  refine ⟨v4, i, newFlags2 (linkSb n g), r, hrun, hsb4, hinode, hp, hlaid4, hsize4, fun hn => ?_⟩
  have hsame : v4.dev.readAt (8 * 512) 512 = v2.dev.readAt (8 * 512) 512 :=
    hother (8 * 512) (.inl (by rw [hblock]; change 8 * 512 + 512 ≤ ((n - 1) * 64 + 32) * 512; omega))
  rw [hsame, hread _ _ (by omega), hdev1]
  refine Device.readAt_eq_ok.mpr ⟨by rw [size_link h]; omega, ?_⟩
  unfold linkDevice
  change _ = slice (_ ++ _) _ _
  rw [slice_append_left (by rw [List.length_replicate]; omega), slice, List.drop_replicate,
    List.take_replicate, Nat.min_eq_left (by omega)]

end

/-- A link whose first block is zeroes is none. -/
theorem symlinkTarget_zeroes {v : Volume} {i : Inode} {e : Extent} {es : List Extent} {target : Bytes}
    (hs : v.sb.Sound) (hv5 : v.sb.isV5 = true) (hformat : i.format ≠ .local_)
    (hextents : v.extents i false = .ok (e :: es)) (hcount : e.count = 1)
    (hblock : BlockAt v.dev v.sb e.block (List.replicate v.sb.blockSize 0)) :
    v.symlinkTarget i ≠ .ok target := by
  intro h
  unfold symlinkTarget at h
  obtain ⟨_, -, h1⟩ := except_bind_eq_ok.mp h
  obtain ⟨_, hgiven, h2⟩ := except_bind_eq_ok.mp h1
  have hsize := (not_or.mp (except_throwIf_eq_ok.mp hgiven)).1
  rw [if_neg hformat, hextents, except_ok_bind, if_neg (by simp [hv5])] at h2
  obtain ⟨out, h3, -⟩ := except_bind_eq_ok.mp h2
  unfold symlinkBlocks at h3
  rw [if_neg (by simp only [List.length_nil]; omega)] at h3
  obtain ⟨_, -, h4⟩ := except_bind_eq_ok.mp h3
  rw [hcount, readBlocks_of_blockAt hs hblock, except_ok_bind] at h4
  obtain ⟨_, hchecked, -⟩ := except_bind_eq_ok.mp h4
  have hmagic : be32 (List.replicate v.sb.blockSize 0) 0 = 0 := by
    have hbs := hs.blockSize_ge
    rw [be32, getBe, slice, List.drop_zero, List.take_replicate, Nat.min_eq_left (by omega)]
    rfl
  exact except_throwIf_eq_ok.mp hchecked (.inl (by rw [hmagic]; decide))

/-! ## Links that read back, and one that is lost -/

/-- On groups whose numbers fit, every link reads back. -/
theorem symlink_reads_back {v v' : Volume} {ino : Nat} {sector path target : Bytes}
    (hsb : Superblock.parse sector = .ok v.sb) (hw : v.sb.checkWritable = .ok ())
    (hfit : NumbersFit v.sb) (hready : v.LinkReady) (h : symlink path target v = .ok ino v') :
    v'.LinksTo ino target :=
  linksTo_of_symlink (Superblock.sound_of_parse hsb) (Superblock.agCount_lt_of_parse hsb) hw hfit
    hready h

/-- A target of 100 bytes. -/
def longTarget : Bytes := List.replicate 100 97

set_option maxRecDepth 100000 in
theorem parse_one : Superblock.parse (linkSector 1 6) = .ok (linkSb 1 6) := by
  decide +kernel

theorem numbers_one : LinkNumbers 1 6 :=
  ⟨Superblock.sound_of_parse parse_one, by decide, by decide, by decide, by decide⟩

/-- The longest target, in three blocks. -/
def longestTarget : Bytes := (List.range 1023).map fun k => (97 + k % 26).toUInt8

/-- One group of 64 blocks: the second block of the link is not next to the first, and the third
fills the hole between them. -/
theorem symlink_reads_back_three :
    ∃ ino v', symlink [47, 108] longestTarget (linkVolume 1 6) = .ok ino v' ∧
      v'.LinksTo ino longestTarget ∧
      ∃ i, v'.inode ino = .ok i ∧
        v'.extents i false = .ok [⟨0, 8, 1, false⟩, ⟨1, 10, 1, false⟩, ⟨2, 9, 1, false⟩] := by
  have hlen : longestTarget.length = 1023 := by rw [longestTarget, List.length_map, List.length_range]
  obtain ⟨v', i, f, r, hrun, -, hinode, hp, hlaid, -⟩ :=
    @symlink_link 1 6 numbers_one longestTarget 3 (by omega) (by rw [hlen]; decide) (by rw [hlen]; decide)
  have hlenr : r.length = 256 := hlaid.whole.length_eq
  refine ⟨_, v', hrun, symlink_reads_back parse_one (by decide +kernel) ⟨by decide, by decide⟩
    (ready_link numbers_one) hrun, i, hinode, ?_⟩
  have hpack : ∀ e ∈ linkExtents 1 6 3, e.Packable := by
    intro e he
    obtain ⟨k, hk, rfl⟩ := List.mem_map.mp he
    have hk := List.mem_range.mp hk
    have hb := @linkBlock_lt k
    exact ⟨show k < 2 ^ 54 by omega, show 0 * 2 ^ 6 + linkBlock k < 2 ^ 52 by omega,
      Nat.one_pos, by norm_num⟩
  exact @extents_eq v' i (linkExtents 1 6 3) r hpack (by decide) (by omega) hp.format_eq
    (hp.nextents_eq.trans hlaid.nextents_eq) hp.dataFork_eq hlaid.fork_eq

/-- Groups of 31 bits, one more than 52 bits number. -/
def FAR : Nat := 2 ^ 21 + 1

set_option maxRecDepth 100000 in
theorem parse_far : Superblock.parse (linkSector FAR 31) = .ok (linkSb FAR 31) := by
  decide +kernel

theorem checkWritable_far : (linkSb FAR 31).checkWritable = .ok () := by
  decide +kernel

theorem numbers_far : LinkNumbers FAR 31 :=
  ⟨Superblock.sound_of_parse parse_far, by decide, by decide, by decide, by decide⟩

/-- The block of the link in the last of them reads as another one, and the target is gone. -/
theorem symlink_lost : Superblock.parse (linkSector FAR 31) = .ok (linkVolume FAR 31).sb ∧
    (linkVolume FAR 31).sb.checkWritable = .ok () ∧ (linkVolume FAR 31).LinkReady ∧
    ∃ ino v', symlink [47, 108] longTarget (linkVolume FAR 31) = .ok ino v' ∧
      (∃ i, v'.inode ino = .ok i ∧ i.size = longTarget.length ∧
        v'.symlinkTarget i ≠ .ok longTarget) ∧
      ¬v'.LinksTo ino longTarget := by
  obtain ⟨v', i, f, r, hrun, hsb, hinode, hp, hlaid, hsize, hzero⟩ :=
    @symlink_link FAR 31 numbers_far longTarget 1 (by decide) (by decide) (by decide)
  -- the record of block `2 ^ 52 + 8` is that of block 8, a block further in the link
  have hsame : packExtents (linkExtents FAR 31 1) = packExtents [⟨1, 8, 1, false⟩] := by decide
  rw [hsame] at hlaid
  have hextents : v'.extents i false = .ok [⟨1, 8, 1, false⟩] := by
    have hlen : r.length = 256 := hlaid.whole.length_eq
    refine extents_eq ?_ (List.pairwise_singleton _ _) (by omega) hp.format_eq
      (hp.nextents_eq.trans hlaid.nextents_eq) hp.dataFork_eq hlaid.fork_eq
    intro e he
    obtain rfl := List.mem_singleton.mp he
    exact ⟨by decide, by decide, by decide, by decide⟩
  have hblock : BlockAt v'.dev v'.sb 8 (List.replicate 512 0) := by
    rw [hsb]
    exact ⟨8 * 512, by decide, hzero (by decide)⟩
  have hsound : v'.sb.Sound := hsb ▸ numbers_far.sound
  have hbad : ∀ target, v'.symlinkTarget i ≠ .ok target := fun target =>
    symlinkTarget_zeroes hsound (by rw [hsb]; rfl) (by rw [hp.format_eq]; decide) hextents rfl
      (by rw [hsb] at hblock ⊢; exact hblock)
  refine ⟨parse_far, checkWritable_far, ready_link numbers_far, _, v', hrun,
    ⟨i, hinode, hp.size_eq.trans hsize, hbad _⟩, ?_⟩
  rintro ⟨i', hinode', htarget, -⟩
  rw [hinode] at hinode'
  obtain rfl := Except.ok.inj hinode'
  exact hbad _ htarget

end Volume

end FioXfs
