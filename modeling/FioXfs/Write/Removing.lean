import FioXfs.Write.Files
import FioXfs.Write.Freed
set_option autoImplicit false

/-!
# Files that are replaced and removed

A file whose inode and blocks nothing else has can be removed: with its last name its blocks, those
of its B+tree and its inode are given back, one after another, and wherever that stops the rest is
as it was.  With another name left it stays.  It can also be given other contents, in other blocks,
before the old ones are given back.
-/

namespace FioXfs

open FioXfs.Lib FioXfs.Alloc FioXfs.Bmap

namespace Volume

section
variable {v v' : Volume} {sb : Superblock} {L L' : Ledger} {d d' : Device} {P : Nat → Prop} {ino links : Nat}
  {data : Bytes} {runs tree : List (Nat × Nat)} {i : Inode}

/-! ## Removing a file -/

/-- The ledger with a file's inode and blocks. -/
def withFile (L : Ledger) (ino : Nat) (runs tree : List (Nat × Nat)) : Ledger :=
  (L.withInode ino).withBlocks (covered (runs ++ tree))

theorem le_withFile : L ≤ withFile L ino runs tree :=
  Ledger.le_trans (Ledger.le_withInode L ino) (Ledger.le_withBlocks _ _)

/-- A file whose inode and blocks nothing else in the ledger has. -/
structure SoleFile (L : Ledger) (v : Volume) (ino links : Nat) (data : Bytes)
    (runs tree : List (Nat × Nat)) : Prop where
  file : FileAt v.sb v.dev ino links data runs tree
  minds : v.Minds (withFile L ino runs tree)
  new : ino ∉ L.inodes
  out : ∀ x ∈ covered (runs ++ tree), x ∉ L.blocks
  clear : ∃ k b i, NodeAt v.sb ino k b i ∧ v.sb.agbToFsb k b ∉ (withFile L ino runs tree).blocks

theorem SoleFile.still (h : SoleFile L v ino links data runs tree) (hs : Still v v') :
    SoleFile L v' ino links data runs tree where
  file := hs.dev ▸ hs.sb ▸ h.file
  minds := (hs.kept (P := fun _ => True) h.minds).minds
  new := h.new
  out := h.out
  clear := hs.sb ▸ h.clear

/-- The blocks of a file's B+tree as runs of one block each. -/
theorem covered_ones {bs : List Nat} : covered (bs.map (·, 1)) = {x | x ∈ bs} := by
  ext x
  constructor
  · rintro ⟨r, hr, hlo, hhi⟩
    obtain ⟨b, hb, rfl⟩ := List.mem_map.mp hr
    simp only at hlo hhi
    obtain rfl : x = b := by omega
    exact hb
  · exact fun hx => ⟨(x, 1), List.mem_map_of_mem hx, Nat.le_refl _, Nat.lt_succ_self _⟩

/-- All of a file's blocks are counted. -/
theorem sum_freed {bs : List Nat} (hbs : bs.Perm (expand tree)) :
    ((extentsFrom 0 runs).map (·.count)).sum + bs.length = ((runs ++ tree).map (·.2)).sum := by
  have hmap := congrArg (fun l => (l.map (·.2)).sum) (map_extentsFrom 0 runs)
  simp only [List.map_map] at hmap
  rw [hbs.length_eq, length_expand, List.map_append, List.sum_append]
  exact congrArg (· + _) hmap

/-- A fork's blocks are given back, those of its B+tree after the others. -/
theorem freeFork_leaves {es : List Extent} {bs : List Nat} {attr : Bool} (h : v.Minds L') (hf : v.sb.Fitting)
    (hmap : Bmap.forkMap v.dev v.sb i attr = .ok (es, bs))
    (hl : Leaving v.sb L L' (extentRuns es ++ bs.map (·, 1))) :
    Leaves (freeFork i attr) v (fun _ v' => Kept P L v v')
      fun freed v' => freed = (es.map (·.count)).sum + bs.length ∧ Kept P L v v' := by
  have ha := hf.addressable
  obtain ⟨hfirst, hsecond⟩ := hl.append
  unfold Volume.freeFork
  refine leaves_get_bind (Leaves.bind (leaves_liftE (Q := fun m v1 => m = (es, bs) ∧ v1 = v)
    (fun _ _ => h.kept.mono ha hl.le) fun m hm => ⟨Except.ok.inj (hm.symm.trans hmap), rfl⟩) fun m v1 h1 => ?_)
  obtain ⟨rfl, rfl⟩ := h1
  simp only
  have hrel := @releaseAll_leaves _ P i.ino (extentRuns es) _ v1 h hf hfirst
  refine (hrel.mono (fun _ v2 h2 => h2.mono ha (Ledger.le_withBlocks _ _)) fun _ _ => id).bind
    fun _ v2 h2 => ?_
  have hrel2 := @releaseAll_leaves L P i.ino (bs.map (·, 1)) _ v2 h2.minds (h2.sb ▸ hf) (h2.sb ▸ hsecond)
  exact (hrel2.mono (fun _ v3 h3 => h2.trans h3) fun _ _ => id).bind fun _ v3 h3 =>
    leaves_pure ⟨rfl, h2.trans h3⟩

/-- The file's blocks are given back. -/
theorem SoleFile.freeFork (h : SoleFile L v ino links data runs tree) (hf : v.sb.Fitting) {bs : List Nat}
    (hmap : Bmap.forkMap v.dev v.sb i false = .ok (extentsFrom 0 runs, bs))
    (hbs : bs.Perm (expand tree)) :
    Leaves (freeFork i false) v (fun _ v' => Kept P (L.withInode ino) v v')
      fun freed v' => (freed = ((runs ++ tree).map (·.2)).sum ∧ Kept P (L.withInode ino) v v') ∧
        ∀ x ∈ covered (runs ++ tree), v'.BlockFree x := by
  obtain ⟨hruns, htree, hapart⟩ := List.pairwise_append.mp h.file.apart
  have hcov : covered (runs ++ tree) = covered runs ∪ covered tree := covered_append
  have hones : covered (bs.map (·, 1)) = covered tree := by
    rw [covered_ones]
    ext x
    exact (hbs.mem_iff (a := x)).trans mem_expand_iff
  have hall : covered (runs ++ bs.map (·, 1)) = covered (runs ++ tree) := by
    rw [hcov, ← hones, covered_append]
  have hleaving : Leaving v.sb (L.withInode ino) (withFile L ino runs tree) (runs ++ bs.map (·, 1)) := by
    refine ⟨fun r hr => ?_, List.pairwise_append.mpr ⟨hruns, ?_, fun r hr r' hr' => ?_⟩,
      Ledger.le_withBlocks _ _, hall ▸ Set.subset_union_right, hall ▸ h.out⟩
    · rcases List.mem_append.mp hr with hr | hr
      · exact h.file.inAg r (List.mem_append_left _ hr)
      · obtain ⟨b, hb, rfl⟩ := List.mem_map.mp hr
        obtain ⟨r', hr', hlo, hhi⟩ := mem_expand_iff.mp (hbs.subset hb)
        exact ((h.file.inAg r' (List.mem_append_right _ hr')).block_run hf hlo hhi).1
    · rw [List.pairwise_map]
      refine ((hbs.nodup_iff).mpr (nodup_expand htree)).imp fun {a b} hne => ?_
      simp only [Apart]
      omega
    · obtain ⟨b, hb, rfl⟩ := List.mem_map.mp hr'
      obtain ⟨r', hr', hlo, hhi⟩ := mem_expand_iff.mp (hbs.subset hb)
      have hmeet := hapart r hr r' hr'
      simp only [Apart] at hmeet ⊢
      omega
  have hruns : extentRuns (extentsFrom 0 runs) = runs := extentRuns_extentsFrom h.file.short
  have hfree := freeFork_leaves (P := P) h.minds hf hmap (by rw [hruns]; exact hleaving)
  refine (hfree.mono (fun _ _ => id) fun _ _ hfreed => ⟨hfreed.1.trans (sum_freed hbs), hfreed.2⟩).with_ok
    fun freed v' hrun x hx => ?_
  refine (freeFork_loosens hrun).2 _ bs hmap h.minds.groupsOk hf (fun r hr => ?_) x ?_
  · exact hleaving.inAg r (by rwa [hruns] at hr)
  · rw [hruns, hall]
    exact hx

theorem length_of_readRaw {raw : Bytes} (h : v.readRaw ino = .ok raw) : raw.length = v.sb.inodeSize := by
  unfold readRaw at h
  obtain ⟨at_, -, h⟩ := except_bind_eq_ok.mp h
  obtain ⟨buf, hbuf, h⟩ := except_bind_eq_ok.mp h
  obtain ⟨_, -, h⟩ := except_bind_eq_ok.mp h
  obtain rfl := Except.ok.inj h
  exact Device.length_of_readAt hbuf

theorem SlotAt.eq_of_readRaw {a raw : Bytes} (h : SlotAt v.dev v.sb ino a) (hraw : v.readRaw ino = .ok raw) :
    raw = a := by
  obtain ⟨⟨at_, hat, -, hslice⟩, -⟩ := h
  unfold readRaw at hraw
  rw [hat, except_ok_bind] at hraw
  obtain ⟨buf, hbuf, hraw⟩ := except_bind_eq_ok.mp hraw
  obtain ⟨_, -, hraw⟩ := except_bind_eq_ok.mp hraw
  obtain rfl := Except.ok.inj hraw
  exact (Device.readAt_eq_ok.mp hbuf).2.trans hslice

theorem length_destroyedRaw {raw : Bytes} (hs : sb.Sound) (h : raw.length = sb.inodeSize) :
    (destroyedRaw sb ino raw).length = sb.inodeSize := by
  have hsize := hs.inodeSize_ge
  have huuid := hs.metaUuid_len
  have hput : ∀ {w o x : Nat} {r : Bytes}, r.length = sb.inodeSize → o + w ≤ 256 →
      (putBe w r o x).length = sb.inodeSize := fun hr ho => by rw [length_putBe (by omega), hr]
  unfold destroyedRaw
  simp only [put16, put32, put64]
  have hlen : ∀ {r : Bytes}, r.length = sb.inodeSize → (splice r 160 sb.metaUuid).length = sb.inodeSize :=
    fun hr => by rw [length_splice (by omega), hr]
  refine hlen (hput (hput (hput (hput (hput (hput (hput (hput ?_ ?_) ?_) ?_) ?_) ?_) ?_) ?_) ?_)
  · rw [List.length_replicate, h]
  all_goals omega

/-- What a freed inode is parsed as has no mode. -/
theorem mode_destroyedRaw {raw : Bytes} (hs : sb.Sound) (h : raw.length = sb.inodeSize)
    (hparse : Inode.parse sb ino (Crc.stamp (destroyedRaw sb ino raw) INODE_CRC) = .ok i) : i.mode = 0 := by
  have hsize := hs.inodeSize_ge
  have hlen := @length_destroyedRaw sb ino raw hs h
  have hcrc : INODE_CRC + 4 ≤ (destroyedRaw sb ino raw).length := by unfold INODE_CRC; omega
  rw [(Raw.fields_of_parse hparse).1, List.take_of_length_le (by rw [Crc.length_stamp hcrc, hlen])]
  refine (Crc.getBe_stamp_disjoint hcrc (by unfold INODE_CRC; omega)).trans ?_
  have hput : ∀ {w o x : Nat} {r : Bytes}, r.length = sb.inodeSize → o + w ≤ 256 → 4 ≤ o ∨ o + w ≤ 2 →
      (putBe w r o x).length = sb.inodeSize ∧ getBe 2 (putBe w r o x) 2 = getBe 2 r 2 := fun hr ho hat =>
    ⟨by rw [length_putBe (by omega), hr], getBe_putBe_disjoint (by omega) (by omega)⟩
  unfold destroyedRaw
  simp only [put16, put32, put64]
  have h0 : (List.replicate raw.length (0 : UInt8)).length = sb.inodeSize := by rw [List.length_replicate, h]
  have h1 := @hput 2 0 Inode.MAGIC _ h0 (by omega) (by omega)
  have h2 := @hput 1 4 3 _ h1.1 (by omega) (by omega)
  have h3 := @hput 1 5 Format.extents.code _ h2.1 (by omega) (by omega)
  have h4 := @hput 1 83 Format.extents.code _ h3.1 (by omega) (by omega)
  have h5 := @hput 8 120 (Raw.flags2 raw &&& (DIFLAG2_BIGTIME ||| DIFLAG2_NREXT64)) _ h4.1 (by omega) (by omega)
  have h6 := @hput 4 92 (be32 raw 92 + 1) _ h5.1 (by omega) (by omega)
  have h7 := @hput 4 96 NULL_AGINO _ h6.1 (by omega) (by omega)
  have h8 := @hput 8 152 ino _ h7.1 (by omega) (by omega)
  rw [getBe_splice_disjoint (by rw [h8.1]; omega) (by omega), h8.2, h7.2, h6.2, h5.2, h4.2, h3.2, h2.2, h1.2]
  unfold getBe slice
  rw [List.drop_replicate, List.take_replicate, Nat.min_eq_left (by omega)]
  rfl

/-- An inode leaves its group. -/
theorem freeIno_leaves (h : v.Minds (L.withInode ino)) (hf : v.sb.Fitting)
    (hat : ∃ k b i, NodeAt v.sb ino k b i) (hnew : ino ∉ L.inodes) :
    Leaves (do
      loadAg (v.sb.inoToAgino ino).1
      onAg (v.sb.inoToAgino ino).1 (freeInode (v.sb.inoToAgino ino).2) : Act Volume Unit) v
      (fun _ v' => Kept P L v v') fun _ v' => Kept P L v v' ∧ Loosens v v' ∧ v'.NodeFree ino := by
  have ha := hf.addressable
  have hback := Ledger.le_withInode L ino
  obtain ⟨k, b, j, hnode⟩ := hat
  have hnum : v.sb.inoToAgino ino = (k, v.sb.aginoAt b j) := by
    rw [← hnode.number, ha.inoToAgino_aginoToIno hnode.ag (ha.aginoAt_lt hnode.block hnode.index)]
  have hk : (v.sb.inoToAgino ino).1 = k := congrArg Prod.fst hnum
  refine Leaves.with_ok ?_ fun _ v' hrun => ?_
  swap
  · obtain ⟨_, v1, hload, hfree⟩ := bind_eq_ok.mp hrun
    have hloaded := loosens_loadAg hload
    obtain ⟨hloose, hnodeFree⟩ := onAg_freeInode_frees hfree
    refine ⟨hloaded.trans hloose, ?_⟩
    have hfreed := hnodeFree (by rw [hk, hloaded.sb]; exact hnode.ag)
    rwa [hnum, hloaded.sb, hnode.number] at hfreed
  refine ((@loadAg_leaves v (L.withInode ino) P _ h (hk ▸ hnode.ag)).mono (fun _ v1 h1 => h1.mono ha hback)
    fun _ _ => id).bind fun _ v1 hloaded => ?_
  obtain ⟨h1, -⟩ := hloaded
  have hun := @unallocIno_leaves v1 L P ino h1.minds (h1.sb ▸ hf) ⟨k, b, j, h1.sb ▸ hnode⟩ hnew
  unfold unallocIno at hun
  have hun' := (leaves_iff.mp hun)
  have heq : (get >>= fun v : Volume => onAg (v.sb.inoToAgino ino).1 (freeInode (v.sb.inoToAgino ino).2) :
      Act Volume Unit) v1 = onAg (v1.sb.inoToAgino ino).1 (freeInode (v1.sb.inoToAgino ino).2) v1 := rfl
  rw [h1.sb] at heq
  refine leaves_iff.mpr ⟨fun a v2 hx => h1.trans (hun'.1 a v2 (heq.trans hx)), fun e v2 hx =>
    h1.trans (hun'.2 e v2 (heq.trans hx))⟩

/-- All that a file had is free. -/
structure Returned (v : Volume) (ino : Nat) (runs tree : List (Nat × Nat)) : Prop where
  blocks : ∀ x ∈ covered (runs ++ tree), v.BlockFree x
  node : v.NodeFree ino
  gone : ∀ i, v.inode ino = .ok i → i.mode = 0

theorem Returned.still (h : Returned v ino runs tree) (hs : Still v v') (hok : v.GroupsOk) :
    Returned v' ino runs tree := by
  refine ⟨fun x hx => (h.blocks x hx).loosens hs.loosens hok, ?_, fun i hi => h.gone i ?_⟩
  · obtain ⟨k, hk, agino, ag, hino, hag, he⟩ := h.node
    exact ⟨k, hs.sb ▸ hk, agino, ag, hs.sb ▸ hino, (hs.ags k).trans hag, he⟩
  · unfold inode at hi ⊢
    rwa [hs.sb, hs.dev] at hi

/-- A file is destroyed, or it is not; the rest of the ledger stays. -/
theorem SoleFile.destroy (h : SoleFile L v ino links data runs tree) (hf : v.sb.Fitting) (hs : v.sb.Sound)
    (hinode : v.inode ino = .ok i) :
    Leaves (destroy i) v (fun _ v' => Kept (L.Names v.sb) L v v')
      fun _ v' => Kept (L.Names v.sb) L v v' ∧ Returned v' ino runs tree := by
  have ha := hf.addressable
  obtain ⟨a, i', bs, hslot, -, hparse, -, hino, -, haf, -, -, hmap, hbs⟩ := h.file.slot
  obtain rfl : i = i' := Except.ok.inj (hinode.symm.trans ((hslot.inode_eq hs).trans hparse))
  obtain ⟨k, b, j, hnode, hclear⟩ := h.clear
  have hclear : v.sb.agbToFsb k b ∉ L.blocks := fun hL => hclear (le_withFile.1 hL)
  have hback := Ledger.le_withInode L ino
  have hsame : ∀ {Q : Nat → Prop}, Kept Q L v v := h.minds.kept.mono ha le_withFile
  unfold Volume.destroy
  refine Leaves.bind (leaves_throwIf (Q := fun _ v1 => v1 = v) (fun _ => hsame) fun _ => rfl)
    fun _ v1 h1 => ?_
  subst h1
  refine Leaves.bind (leaves_throwIf (Q := fun _ v2 => v2 = v1) (fun _ => hsame) fun _ => rfl)
    fun _ v2 h2 => ?_
  subst h2
  refine ((h.freeFork hf hmap hbs).mono (fun _ v3 h3 => h3.mono ha hback) fun _ _ => id).bind
    fun _ v3 hfreed => ?_
  obtain ⟨⟨-, h3⟩, hfree3⟩ := hfreed
  rw [haf]
  simp only [Option.isSome_none, Bool.false_eq_true, if_false]
  refine leaves_get_bind (Leaves.bind
    (leaves_liftE (Q := fun raw v5 => v3.readRaw i.ino = .ok raw ∧ v5 = v3)
    (fun _ _ => h3.mono ha hback) fun raw hraw => ⟨hraw, rfl⟩) fun raw v5 h5 => ?_)
  obtain ⟨hraw, rfl⟩ := h5
  rw [hino] at hraw ⊢
  have hsb3 := h3.sb
  have hlen := @length_destroyedRaw v5.sb ino _ (hsb3 ▸ hs) (length_of_readRaw hraw)
  have hwrite := @writeRaw_leaves v5 L (L.withInode ino) ino k b j _ h3.minds (hsb3 ▸ hf) (hsb3 ▸ hnode)
    (hsb3 ▸ hnode.lacks hf h.new hclear) (Or.inl rfl) hlen
  rw [hsb3] at hwrite ⊢
  refine ((hwrite.with_ok fun _ v6 hrun => loosens_writeRaw hrun).mono
    (fun _ v6 h6 => (h3.trans h6).mono ha hback) fun _ _ => id).bind fun _ v6 h6 => ?_
  obtain ⟨h6, hloose6⟩ := h6
  have h36 := h3.trans h6.1
  have hfree := @freeIno_leaves v6 L (fun _ => True) ino h36.minds (h36.sb ▸ hf)
    ⟨k, b, j, h36.sb ▸ hnode⟩ h.new
  rw [h36.sb] at hfree
  refine hfree.mono (fun _ v7 h7 => h36.trans (h7.of_bytes fun _ _ => trivial)) fun _ v7 h7 =>
    ⟨h36.trans (h7.1.of_bytes fun _ _ => trivial), fun x hx => ?_, h7.2.2, fun i' hi' => ?_⟩
  · exact ((hfree3 x hx).loosens hloose6 h3.minds.groupsOk).loosens h7.2.1 h36.minds.groupsOk
  · have hslot7 : SlotAt v7.dev v2.sb ino (Crc.stamp (destroyedRaw v2.sb ino raw) INODE_CRC) :=
      h6.2.sameOn hf hnode h7.1.dev fun _ _ _ => trivial
    have hsb7 : v7.sb = v2.sb := h7.1.sb.trans h36.sb
    rw [(hsb7 ▸ hslot7 : SlotAt v7.dev v7.sb ino _).inode_eq (hsb7 ▸ hs), hsb7] at hi'
    exact mode_destroyedRaw hs (hsb3 ▸ length_of_readRaw hraw) hi'

theorem length_touch {r r' : Bytes} {t : Timestamp} {content : Bool} (hs : sb.Sound)
    (hlen : r.length = sb.inodeSize) (h : Raw.touch r t content = .ok r') : r'.length = sb.inodeSize := by
  have hge := hs.inodeSize_ge
  have hput : ∀ {o x : Nat} {r : Bytes}, r.length = sb.inodeSize → o + 8 ≤ 256 →
      (put64 r o x).length = sb.inodeSize := fun hr ho => by
    unfold put64
    rw [length_putBe (by omega), hr]
  unfold Raw.touch at h
  obtain ⟨word, -, h⟩ := except_bind_eq_ok.mp h
  obtain rfl := Except.ok.inj h
  refine hput (hput ?_ (by omega)) (by omega)
  split
  · exact hput hlen (by omega)
  · exact hlen

/-- What one name less leaves: with the last one the file goes, and all it had is free; else it is still
there, with its data where they were. -/
structure Unlinked (L : Ledger) (v : Volume) (ino links : Nat) (data : Bytes) (runs tree : List (Nat × Nat))
    (v' : Volume) : Prop where
  last : links ≤ 1 → Kept (L.Names v.sb) L v v' ∧ Returned v' ino runs tree
  more : 1 < links → Kept (L.Names v.sb) (withFile L ino runs tree) v v' ∧
    FileAt v.sb v'.dev ino (links - 1) data runs tree

/-- A count of names fits in its field. -/
theorem FileAt.links_lt (h : FileAt sb d ino links data runs tree) : links < 2 ^ 32 := by
  obtain ⟨a, _, _, _, hof, -⟩ := h.slot
  rw [← hof.links_eq]
  exact (getBe_lt 4 a 16).trans_eq (by norm_num)

/-- One name less: the file is destroyed, or has one name less; the rest of the ledger stays. -/
theorem SoleFile.dropLink (h : SoleFile L v ino links data runs tree) (hf : v.sb.Fitting) :
    Leaves (dropLink ino) v (fun _ v' => Kept (L.Names v.sb) L v v')
      fun _ v' => Unlinked L v ino links data runs tree v' := by
  have ha := hf.addressable
  have hs := ha.sound
  obtain ⟨k, b, j, hnode, hclear⟩ := h.clear
  have hsame : ∀ {Q : Nat → Prop}, Kept Q L v v := h.minds.kept.mono ha le_withFile
  unfold Volume.dropLink
  refine leaves_get_bind (Leaves.bind (leaves_liftE (Q := fun i v1 => v.inode ino = .ok i ∧ v1 = v)
    (fun _ _ => hsame) fun i hi => ⟨hi, rfl⟩) fun i v1 h1 => ?_)
  obtain ⟨hinode, rfl⟩ := h1
  have hlinks := h.file.nlink_eq hf hinode
  split
  · rename_i hlast
    exact (h.destroy hf hs hinode).mono (fun _ _ => id) fun _ v' h' =>
      ⟨fun _ => h', fun hmore => absurd hmore (by omega)⟩
  · rename_i hmore
    obtain ⟨a, i', bs, hslot, hof, -⟩ := h.file.slot
    refine Leaves.bind (leaves_liftE (Q := fun raw v2 => raw = a ∧ v2 = v1)
      (fun _ _ => hsame) fun raw hraw => ⟨hslot.eq_of_readRaw hraw, rfl⟩) fun raw v2 h2 => ?_
    obtain ⟨rfl, rfl⟩ := h2
    refine (now_still.mono (fun _ v3 h3 => (h3.kept h.minds).mono ha le_withFile) fun _ _ => id).bind
      fun t v3 h3 => ?_
    have hnlink : Raw.nlink raw = links := hof.links_eq
    have hlen : (Raw.setNlink raw (Raw.nlink raw - 1)).length = v2.sb.inodeSize := by
      have hge := hs.inodeSize_ge
      obtain ⟨m, f, hwhole, -⟩ := hof.whole
      unfold Raw.setNlink put32
      rw [length_putBe (by rw [hwhole.length_eq]; omega), hwhole.length_eq]
    rw [hnlink] at hlen ⊢
    have hkept3 : ∀ {Q : Nat → Prop}, Kept Q (withFile L ino runs tree) v2 v3 := h3.kept h.minds
    refine Leaves.bind (leaves_liftE
      (Q := fun raw' v4 => Raw.touch (Raw.setNlink raw (links - 1)) t false = .ok raw' ∧ v4 = v3)
      (fun _ _ => hkept3.mono ha le_withFile) fun raw' htouch => ⟨htouch, rfl⟩) fun raw' v4 h4 => ?_
    obtain ⟨htouch, rfl⟩ := h4
    -- the inode is in none of the file's blocks, which stay
    have hlacks : LacksNode v2.sb (L.withBlocks (covered (runs ++ tree))) ino := hnode.lacks hf h.new hclear
    have hwrite := @writeRaw_leaves v4 (L.withBlocks (covered (runs ++ tree))) (withFile L ino runs tree) ino k b
      j _ (hkept3 (Q := L.Names v2.sb)).minds (h3.sb ▸ hf) (h3.sb ▸ hnode) (h3.sb ▸ hlacks) (Or.inl rfl)
      (h3.sb ▸ length_touch hs hlen htouch)
    rw [h3.sb] at hwrite
    have hold : ∀ p, L.Names v2.sb p → (L.withBlocks (covered (runs ++ tree))).Names v2.sb p := fun p hp =>
      hp.mono (Ledger.le_withBlocks _ _)
    refine hwrite.mono (fun _ v5 h5 => (hkept3.trans (h5.of_bytes hold)).mono ha le_withFile) fun _ v5 h5 =>
      ⟨fun hlast => absurd hlast (by omega), fun _ => ⟨hkept3.trans (h5.1.of_bytes hold), ?_⟩⟩
    have hsame : Device.SameOn ((L.withBlocks (covered (runs ++ tree))).Names v2.sb) v2.dev v5.dev :=
      h3.dev ▸ h5.1.dev
    exact h.file.relinked hf ((Nat.sub_le _ _).trans_lt h.file.links_lt) hslot htouch h5.2 hsame
      fun p hp => Or.inl (Or.inr hp.2)

theorem Unlinked.dropped (h : Unlinked L v ino links data runs tree v') (ha : v.sb.Addressable) :
    Kept (L.Names v.sb) L v v' := by
  by_cases hmore : 1 < links
  · exact (h.more hmore).1.mono ha le_withFile
  · exact (h.last (not_lt.mp hmore)).1

/-- Steps that leave the groups and the device alone may come before it, or after. -/
theorem Unlinked.of_still {v₀ : Volume} (h : Unlinked L v ino links data runs tree v') (hs : Still v₀ v)
    (hm : v₀.Minds (withFile L ino runs tree)) : Unlinked L v₀ ino links data runs tree v' := by
  have hfirst : ∀ {P : Nat → Prop}, Kept P (withFile L ino runs tree) v₀ v := hs.kept hm
  refine ⟨fun hlast => ?_, fun hmore => ?_⟩
  · obtain ⟨hkept, hreturned⟩ := h.last hlast
    exact ⟨hfirst.trans (hs.sb ▸ hkept), hreturned⟩
  · obtain ⟨hkept, hfile⟩ := h.more hmore
    exact ⟨hfirst.trans (hs.sb ▸ hkept), hs.sb ▸ hfile⟩

theorem Unlinked.still {v₂ : Volume} (h : Unlinked L v ino links data runs tree v') (hs : Still v' v₂) :
    Unlinked L v ino links data runs tree v₂ := by
  refine ⟨fun hlast => ?_, fun hmore => ?_⟩
  · obtain ⟨hkept, hreturned⟩ := h.last hlast
    exact ⟨hkept.trans (hs.kept hkept.minds), hreturned.still hs hkept.minds.groupsOk⟩
  · obtain ⟨hkept, hfile⟩ := h.more hmore
    exact ⟨hkept.trans (hs.kept hkept.minds), hs.dev ▸ hfile⟩

/-- Removing the name of a file. -/
theorem SoleFile.unlink {path name : Bytes} {dino : Nat} {kind : Dir.FileType}
    (h : SoleFile L v ino links data runs tree) (hf : v.sb.Fitting) (hdir : v.parentDir path = .ok (dino, name))
    (hentry : v.entry dino name = .ok (some (ino, kind))) :
    Leaves (unlink path) v (fun _ v' => Kept (L.Names v.sb) L v v')
      fun _ v' => Unlinked L v ino links data runs tree v' := by
  have ha := hf.addressable
  have hsame : ∀ {Q : Nat → Prop}, Kept Q L v v := h.minds.kept.mono ha le_withFile
  unfold Volume.unlink
  refine leaves_get_bind ?_
  rw [hdir]
  refine Leaves.bind (leaves_liftE (Q := fun dir v1 => dir = (dino, name) ∧ v1 = v) (fun _ _ => hsame)
    fun dir hd => ⟨(Except.ok.inj hd).symm, rfl⟩) fun dir v1 h1 => ?_
  obtain ⟨rfl, rfl⟩ := h1
  simp only
  rw [hentry]
  refine Leaves.bind
    (leaves_liftE (Q := fun found v2 => found = some (ino, kind) ∧ v2 = v1) (fun _ _ => hsame)
    fun found hd => ⟨(Except.ok.inj hd).symm, rfl⟩) fun found v2 h2 => ?_
  obtain ⟨rfl, rfl⟩ := h2
  simp only
  refine Leaves.bind (leaves_throwIf (Q := fun _ v3 => v3 = v2) (fun _ => hsame) fun _ => rfl)
    fun _ v3 h3 => ?_
  subst h3
  refine (writer_still.mono (fun _ v4 h4 => (h4.kept h.minds).mono ha le_withFile) fun _ _ => id).bind
    fun _ v4 h4 => ?_
  have hkept4 : Kept (L.Names v3.sb) L v3 v4 := (h4.kept h.minds).mono ha le_withFile
  have hdrop := (h.still h4).dropLink (h4.sb ▸ hf)
  rw [h4.sb] at hdrop
  refine (hdrop.mono (fun _ v5 h5 => hkept4.trans h5) fun _ _ => id).bind fun _ v5 h5 => ?_
  have h5 : Unlinked L v3 ino links data runs tree v5 := h5.of_still h4 h.minds
  exact changeNames_still.mono (fun _ v6 h6 => h5.dropped ha |>.trans (h6.kept (h5.dropped ha).minds))
    fun _ v6 h6 => h5.still h6

/-! ## Replacing a file -/

/-- Beside blocks that were nobody's, the old file is still on its own. -/
theorem SoleFile.beside (h : SoleFile L v ino links data runs tree) (hf : v.sb.Fitting) {R : Set Nat}
    (hkept : Kept ((withFile L ino runs tree).Names v.sb) ((withFile L ino runs tree).withBlocks R) v v')
    (hlacks : (withFile L ino runs tree).Lacks v.sb R) :
    SoleFile (L.withBlocks R) v' ino links data runs tree where
  file := by
    rw [hkept.sb]
    refine h.file.sameOn hf hkept.dev fun p hp => hp.mono ⟨Set.subset_union_right, ?_⟩
    rintro j rfl
    exact Or.inl rfl
  minds := by
    have heq : withFile (L.withBlocks R) ino runs tree = (withFile L ino runs tree).withBlocks R :=
      congrArg (fun blocks => Ledger.mk blocks (insert ino L.inodes)) (Set.union_right_comm ..)
    rw [heq]
    exact hkept.minds
  new := h.new
  out x hx hmem := hmem.elim (h.out x hx) fun hR => hlacks.blocks x hR (Or.inr hx)
  clear := by
    obtain ⟨k, b, j, hnode, hclear⟩ := h.clear
    rw [hkept.sb]
    refine ⟨k, b, j, hnode, fun hmem => ?_⟩
    rcases hmem with (hL | hR) | hown
    · exact hclear (Or.inl hL)
    · exact hlacks.inodes k hnode.ag b hnode.block hR j hnode.index (Or.inl hnode.number)
    · exact hclear (Or.inr hown)

/-- A file's contents are replaced, the new ones stored before the old ones go; or they are not, and what
else is in the ledger is as it was. -/
theorem SoleFile.replaceFile {path data' : Bytes} {attrs : Option Attrs} (h : SoleFile L v ino links data runs tree)
    (hf : v.sb.Fitting) (ho : v.Opened) (hdata : divCeil data'.length v.sb.blockSize < 2 ^ 32) :
    Leaves (replaceFile path ino data' attrs) v (fun _ v' => Kept (L.Names v.sb) L v v')
      fun out v' => out = ino ∧ FileMade L v ino links data' v' ∧
        ∀ x ∈ covered (runs ++ tree), v'.BlockFree x := by
  have ha := hf.addressable
  have hs := ha.sound
  unfold Volume.replaceFile
  refine (writer_still.mono (fun _ v1 h1 => (h1.kept h.minds).mono ha le_withFile) fun _ _ => id).bind
    fun _ v1 h1 => ?_
  have hsb1 := h1.sb
  have hsole := h.still h1
  have hkept1 : ∀ {Q : Nat → Prop}, Kept Q (withFile L ino runs tree) v v1 := h1.kept h.minds
  have hdrop1 : ∀ {Q : Nat → Prop}, Kept Q L v v1 := hkept1.mono ha le_withFile
  obtain ⟨k, b, j, hnode, hclear⟩ := h.clear
  have hclear : v.sb.agbToFsb k b ∉ L.blocks := fun hL => hclear (le_withFile.1 hL)
  obtain ⟨a, i', bs, hslot, hof, hparse, -, hino, -, -, -, -, hmap, hbs⟩ := hsole.file.slot
  refine leaves_get_bind (Leaves.bind (leaves_liftE (Q := fun i v2 => i = i' ∧ v2 = v1) (fun _ _ => hdrop1)
    fun i hi => ⟨Except.ok.inj (hi.symm.trans ((hslot.inode_eq (hsb1 ▸ hs)).trans hparse)), rfl⟩)
    fun i v2 h2 => ?_)
  obtain ⟨rfl, rfl⟩ := h2
  refine Leaves.bind (leaves_throwIf (Q := fun _ v3 => v3 = v2) (fun _ => hdrop1) fun _ => rfl)
    fun _ v3 h3 => ?_
  subst h3
  refine Leaves.bind (leaves_throwIf (Q := fun _ v4 => v4 = v3) (fun _ => hdrop1) fun _ => rfl)
    fun _ v4 h4 => ?_
  subst h4
  refine Leaves.bind (leaves_liftE (Q := fun raw v5 => raw = a ∧ v5 = v4) (fun _ _ => hdrop1)
    fun raw hraw => ⟨hslot.eq_of_readRaw hraw, rfl⟩) fun raw v5 h5 => ?_
  obtain ⟨rfl, rfl⟩ := h5
  obtain ⟨⟨m, f, hwhole, hlt, hm⟩, hflags, hnblocks, hlinks⟩ := hof
  rw [hsb1] at hwhole
  have hsize := hs.inodeSize_ge
  have hsize' := hs.inodeSize_le
  have hdata'' := length_lt_of_blocks hs hdata
  have hino64 := hnode.ino_lt hf
  rw [hwhole.dataForkSize_eq]
  have hstore := @storeData_leaves v5 (withFile L ino runs tree) data' ino (v.sb.inodeSize - CORE) hsole.minds
    (hsb1 ▸ hf) (ho.kept (hkept1 (Q := fun _ => True))) hino64 (by unfold CORE; omega) (by omega) hdata''
  rw [hsb1] at hstore
  have hnames : ∀ p, L.Names v.sb p → (withFile L ino runs tree).Names v.sb p := fun p hp =>
    hp.mono le_withFile
  refine (hstore.mono (fun _ v6 h6 => (hkept1.trans (h6.of_bytes hnames)).mono ha le_withFile)
    fun _ _ => id).bind fun out v6 hout => ?_
  obtain ⟨runs', tree', hmade⟩ := hout
  obtain ⟨format, fork, blocks, n⟩ := out
  simp only
  have hkept56 := hmade.kept
  rw [hsb1] at hkept56
  have htaken := hmade.taken
  rw [hsb1] at htaken
  have hkept6 := hkept1.trans hkept56
  have hsb6 := hkept6.sb
  -- the old file beside the new blocks
  have hold := h.beside hf hkept6 htaken.lacks
  have hmap6 : Bmap.forkMap v6.dev v6.sb i false = .ok (extentsFrom 0 runs, bs) := by
    rw [hsb1] at hmap
    rw [hsb6]
    refine forkMap_of_sameOn hf (fun r hr => h.file.inAg r (List.mem_append_right _ hr)) hmap hbs hkept56.dev
      fun p hp => Or.inl (Or.inr ?_)
    rw [covered_append]
    exact Or.inr hp.2
  have hback : L ≤ (L.withBlocks (covered (runs' ++ tree'))).withInode ino :=
    Ledger.le_trans (Ledger.le_withBlocks _ _) (Ledger.le_withInode _ _)
  have hfree := hold.freeFork (P := (L.withBlocks (covered (runs' ++ tree'))).Names v.sb) (hsb6 ▸ hf)
    hmap6 hbs
  have hold' : ∀ p, L.Names v.sb p → (L.withBlocks (covered (runs' ++ tree'))).Names v.sb p := fun p hp =>
    hp.mono (Ledger.le_withBlocks _ _)
  have hkeptL6 :
      Kept (L.Names v.sb) ((withFile L ino runs tree).withBlocks (covered (runs' ++ tree'))) v v6 :=
    hkept1.trans (hkept56.of_bytes hnames)
  refine (hfree.mono (fun _ v7 h7 => (hkeptL6.trans (h7.of_bytes hold')).mono ha hback) fun _ _ => id).bind
    fun freed v7 hfreed => ?_
  obtain ⟨⟨rfl, hkept67⟩, hfree7⟩ := hfreed
  have hkept7 := hkeptL6.trans (hkept67.of_bytes hold')
  refine Leaves.bind
    (leaves_liftE (Q := fun raw' v8 => Raw.setDataFork raw format fork = .ok raw' ∧ v8 = v7)
    (fun _ _ => hkept7.mono ha hback) fun raw' hset => ⟨hset, rfl⟩) fun raw' v8 h8 => ?_
  obtain ⟨hset, rfl⟩ := h8
  obtain ⟨hcount, hsum⟩ := hmade.counts (hsb1 ▸ hf) (hsb1 ▸ hdata)
  have htells := Raw.saysFile_of_setDataFork hs hwhole hflags hlinks hcount (hdata''.trans (by norm_num))
    (hsum.trans_lt (by norm_num) : blocks < 2 ^ 64) hset
  -- all the blocks of the old file were counted, and have gone
  have hgone : Raw.nblocks (Raw.setNextents (Raw.setSize raw' data'.length) n) =
      ((runs ++ tree).map (·.2)).sum := by
    obtain ⟨hwhole', -⟩ := Raw.setDataFork_eq_ok hs hwhole hset
    have hlen := hwhole'.length_eq
    have hlen' : (Raw.setSize raw' data'.length).length = v.sb.inodeSize :=
      (length_putBe (by omega)).trans hlen
    refine (Raw.getBe_setNextents hs hlen' (by omega)).trans (Eq.trans ?_ hnblocks)
    refine (getBe_putBe_disjoint (by omega) (by omega)).trans ?_
    exact Raw.getBe_setDataFork hs hwhole hset (by omega) (by unfold CORE; omega)
  rw [hgone, Nat.sub_self, Nat.zero_add]
  refine (now_still.mono (fun _ v9 h9 => (hkept7.trans (h9.kept hkept7.minds)).mono ha hback)
    fun _ _ => id).bind fun t v9 h9 => ?_
  have hkept9 := hkept7.trans (h9.kept (P := L.Names v.sb) hkept7.minds)
  refine Leaves.bind (leaves_liftE (Q := fun r v10 => (∃ m' < 2 ^ 16, m' &&& Mode.IFMT = Mode.IFREG ∧
    Raw.SaysFile v.sb ino m' f format data'.length n blocks links fork r) ∧ v10 = v9)
    (fun _ _ => hkept9.mono ha hback) fun r htouch => ⟨?_, rfl⟩) fun r v10 h10 => ?_
  · cases attrs with
    | none => exact ⟨m, hlt, hm, htells.touch hs htouch⟩
    | some a =>
      obtain ⟨hlt', hm'⟩ := mode_file a
      have howned := ((htells.setMode hs hlt').putBe (x := a.uid) (o := 8) (w := 4) hs (by omega)).putBe
        (x := a.gid) (o := 12) (w := 4) hs (by omega)
      exact ⟨_, hlt', hm', howned.touch hs htouch⟩
  obtain ⟨⟨m', hlt', hm', htells'⟩, rfl⟩ := h10
  -- the new blocks have kept their bytes since they were written
  have hsame : Device.SameOn ((L.withBlocks (covered (runs' ++ tree'))).Names v.sb) v6.dev v10.dev :=
    hkept67.dev.trans (h9.dev ▸ .refl _ _)
  have hnew' : (L.withInode ino).Lacks v.sb (covered (runs' ++ tree')) :=
    ⟨fun x hx hL => htaken.lacks.blocks x hx (Or.inl hL), htaken.lacks.inodes⟩
  have hwrite := hmade.write_leaves hf hsb1 hnode h.new hclear hnew' rfl hlt' hm' htells' hkept9 hsame
  refine (hwrite.with_ok fun _ v11 hrun => loosens_writeRaw hrun).bind fun _ v11 h11 => ?_
  refine leaves_pure ⟨rfl, h11.1, fun x hx => ?_⟩
  exact ((hfree7 x hx).loosens h9.loosens hkept7.minds.groupsOk).loosens h11.2 hkept9.minds.groupsOk

end

end Volume

end FioXfs
