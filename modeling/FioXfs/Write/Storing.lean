import FioXfs.Bmap.Forks
import FioXfs.Write.Taking
set_option autoImplicit false

/-!
# Storing in taken blocks

Blocks that were just taken are written, with a file's bytes or as the B+tree of its fork.  What
the ledger names keeps its bytes, whatever comes of it, and what is written is read back.
-/

namespace FioXfs

open FioXfs.Lib FioXfs.Alloc FioXfs.Bmap

/-! ## The bytes of blocks -/

/-- Byte `p` is of one of these blocks. -/
def Superblock.BytesOf (sb : Superblock) (R : Set Nat) (p : Nat) : Prop :=
  sb.byteAg p < sb.agCount ∧ sb.byteFsb p ∈ R

namespace Volume

section
variable {v v' : Volume} {sb : Superblock} {L L' : Ledger} {R : Set Nat} {P : Nat → Prop} {p : Nat}
  {r : Nat × Nat} {runs : List (Nat × Nat)} {d d' : Device} {data : Bytes} {es : List Extent}

/-- A block of a group is where its number has it. -/
theorem byteOf_block (ha : sb.Addressable) {k b : Nat} (hk : k < sb.agCount) (hb : b < sb.agBlocks) :
    byteOf sb (sb.agbToFsb k b) = (k * sb.agBlocks + b) * sb.blockSize := by
  refine byteOf_agbToFsb ha.sound (hk.trans ha.agCount_lt) hb (lt_of_le_of_lt ?_ ha.bytes_lt)
  exact Nat.mul_le_mul_right _ (Superblock.Addressable.linear_lt hk hb).le

/-- The bytes of a run are of its blocks. -/
theorem bytesOf_run (hf : sb.Fitting) (h : InOneAg sb r) (hlo : byteOf sb r.1 ≤ p)
    (hhi : p < byteOf sb r.1 + r.2 * sb.blockSize) : sb.BytesOf (covered [r]) p := by
  have ha := hf.addressable
  have hbs := ha.sound.blockSize_pos
  obtain ⟨k, hk, s, hat, -, hpos, hend⟩ := h.fsbToAgb hf
  have hstart : byteOf sb r.1 = (k * sb.agBlocks + s) * sb.blockSize := by
    rw [hat]
    exact byteOf_block ha hk (by omega)
  rw [hstart] at hlo hhi
  obtain ⟨i, rfl⟩ := Nat.exists_eq_add_of_le hlo
  have hi : i < r.2 * sb.blockSize := Nat.lt_of_add_lt_add_left hhi
  have hq : i / sb.blockSize < r.2 := Nat.div_lt_of_lt_mul (by rwa [Nat.mul_comm])
  have hsplit := Nat.div_add_mod i sb.blockSize
  have hmod := Nat.mod_lt i hbs
  have hplace : (k * sb.agBlocks + (s + i / sb.blockSize)) * sb.blockSize =
      (k * sb.agBlocks + s) * sb.blockSize + sb.blockSize * (i / sb.blockSize) := by
    rw [← Nat.add_assoc, Nat.add_mul, Nat.mul_comm (i / sb.blockSize)]
  obtain ⟨hag, hagb⟩ := @Superblock.byte_of_block sb k (s + i / sb.blockSize)
    ((k * sb.agBlocks + s) * sb.blockSize + i) ha.sound (by omega) (by omega) (by omega)
  refine ⟨lt_of_eq_of_lt hag hk, ?_⟩
  unfold Superblock.byteFsb
  rw [hag, hagb]
  have hmem := (@agbToFsb_mem_covered sb k k s r.2 (s + i / sb.blockSize) ha hk hk (by omega) hpos hend).mpr
    ⟨rfl, Nat.le_add_right _ _, by omega⟩
  rwa [← hat] at hmem

theorem bytesOf_mono {R' : Set Nat} (h : sb.BytesOf R p) (hsub : R ⊆ R') :
    sb.BytesOf R' p := ⟨h.1, hsub h.2⟩

/-- Blocks that were free are written. -/
theorem kept_written (h : v.Minds L') (hs : v.sb.Sound) (hlacks : L.Lacks v.sb R) (hR : R ⊆ L'.blocks)
    (hsame : Device.SameOn (fun p => ¬v.sb.BytesOf R p) v.dev d) :
    Kept (L.Names v.sb) L' v { v with dev := d } := by
  refine ⟨rfl, hsame.mono fun p hp hof => hlacks.not_names hs hof.1 hof.2 hp, ?_⟩
  exact h.of_dev rfl (fun _ => rfl) (hsame.mono fun p hp hof => hp.2 (Or.inl (hR hof.2)))

/-! ## A file's bytes -/

theorem covered_singleton_subset (hr : r ∈ runs) : covered [r] ⊆ covered runs := by
  rintro x ⟨r', hr', hx⟩
  rw [List.mem_singleton.mp hr'] at hx
  exact ⟨r, hr, hx⟩

/-- Writing only in the extents of runs leaves the bytes of other blocks. -/
theorem sameOn_of_wroteOnly (hf : sb.Fitting) (hin : ∀ r ∈ runs, InOneAg sb r)
    (h : WroteOnly sb (extentsFrom 0 runs) d d') :
    Device.SameOn (fun p => ¬sb.BytesOf (covered runs) p) d d' := by
  refine ⟨h.size_eq, fun p hp => h.outside p fun e he => ?_⟩
  by_contra hmeet
  have hr := (mem_extentsFrom he).1
  exact hp (bytesOf_mono (bytesOf_run hf (hin _ hr) (by simp only; omega) (by simp only; omega))
    (covered_singleton_subset hr))

/-- A file's bytes are written to the runs that were given for them. -/
theorem writeMapped_leaves (h : v.Minds L') (hf : v.sb.Fitting) (ho : v.Opened)
    (hruns : Granted v.sb runs (divCeil data.length v.sb.blockSize))
    (hlacks : L.Lacks v.sb (covered runs)) (hR : covered runs ⊆ L'.blocks) :
    Leaves (writeMapped data (extentsFrom 0 runs)) v (fun _ v' => Kept (L.Names v.sb) L' v v')
      fun _ v' => Kept (L.Names v.sb) L' v v' ∧ HoldsData v.sb data (extentsFrom 0 runs) v'.dev := by
  have hs := ho.sound
  have hpos : ∀ r ∈ runs, 1 ≤ r.2 := fun r hr => by
    obtain ⟨_, _, _, _, _, _, h, _⟩ := hruns.inAg r hr
    exact h
  have hinside : ∀ e ∈ extentsFrom 0 runs, e.stop ≤ divCeil data.length v.sb.blockSize := by
    intro e he
    have hstop := (mem_extentsFrom he).2.2.1
    rwa [hruns.total, Nat.zero_add] at hstop
  have hapart : (extentsFrom 0 runs).Pairwise fun a b =>
      byteOf v.sb a.block + a.count * v.sb.blockSize ≤ byteOf v.sb b.block ∨
        byteOf v.sb b.block + b.count * v.sb.blockSize ≤ byteOf v.sb a.block := by
    have hruns' := hruns.apart
    rw [← map_extentsFrom 0 runs, List.pairwise_map] at hruns'
    exact hruns'.imp_of_mem fun {a b} ha hb hab =>
      (hruns.inAg _ (mem_extentsFrom ha).1).apart ho (hruns.inAg _ (mem_extentsFrom hb).1) hab
  have hmapped := writeMapped_mapped hs ho.size_lt (fun e he => hpos _ (mem_extentsFrom he).1)
    (fun e he => (hruns.inAg _ (mem_extentsFrom he).1).onDevice ho) hinside hapart
  refine leaves_iff.mpr ⟨fun _ v' hw => ?_, fun e v' hw => ?_⟩
  · rw [hw] at hmapped
    obtain ⟨d, rfl, honly, -, hholds⟩ := hmapped
    exact ⟨kept_written h hs hlacks hR (sameOn_of_wroteOnly hf hruns.inAg honly), hholds⟩
  · rw [hw] at hmapped
    obtain ⟨⟨d, rfl, honly⟩, -⟩ := hmapped
    exact kept_written h hs hlacks hR (sameOn_of_wroteOnly hf hruns.inAg honly)

/-- Blocks that hold the data are read as it. -/
theorem contents_of_holds (ho : v.Opened)
    (hruns : Granted v.sb runs (divCeil data.length v.sb.blockSize))
    (hholds : HoldsData v.sb data (extentsFrom 0 runs) v.dev) :
    v.contents (extentsFrom 0 runs) data.length = data := by
  have hs := ho.sound
  have hord := inOrder_extentsFrom (fun r hr => by
    obtain ⟨_, _, _, _, _, _, h, _⟩ := hruns.inAg r hr
    exact h) 0
  refine (eq_window rfl fun p hp => ?_).symm
  rw [Nat.zero_add]
  have hplt : p / v.sb.blockSize < divCeil data.length v.sb.blockSize :=
    Nat.div_lt_of_lt_mul (by
      have := @le_divCeil_mul data.length v.sb.blockSize hs.blockSize_pos
      rw [Nat.mul_comm]
      omega)
  obtain ⟨e, he, hc⟩ := exists_covers_extentsFrom (Nat.zero_le (p / v.sb.blockSize))
    (by rw [hruns.total]; omega)
  have hbyte := mappedByte_of_holds hs ho.size_lt
    ((hruns.inAg _ (mem_extentsFrom he).1).onDevice ho) hholds he hc
  unfold byteOver
  simp only [find?_of_covers hord he hc]
  rw [hbyte, paddedByte, List.getElem?_eq_getElem (by omega)]
  rfl

/-! ## The blocks of a B+tree -/

/-- A whole block that is written is there, and the bytes of other blocks stay. -/
theorem writeFsb_leaves {fsb : Nat} {buf : Bytes} (hf : v.sb.Fitting) (hin : InOneAg v.sb (fsb, 1))
    (hlen : buf.length = v.sb.blockSize) :
    Leaves (do
      let at_ ← liftE (v.sb.fsbToByte fsb)
      onDev (Device.writeAt at_ buf) : Act Volume Unit) v
      (fun _ v' => ∃ d, v' = { v with dev := d } ∧
        Device.SameOn (fun p => ¬v.sb.BytesOf (covered [(fsb, 1)]) p) v.dev d)
      fun _ v' => ∃ d, v' = { v with dev := d } ∧ BlockAt d v.sb fsb buf ∧
        Device.SameOn (fun p => ¬v.sb.BytesOf (covered [(fsb, 1)]) p) v.dev d := by
  have hat : v.sb.fsbToByte fsb = .ok (byteOf v.sb fsb) := by
    obtain ⟨k, hk, s, heq, -, -, hend⟩ := hin.fsbToAgb hf
    simp only at heq hend
    have hb : s < v.sb.agBlocks := by omega
    rw [heq, hf.addressable.fsbToByte_agbToFsb hk hb, byteOf_block hf.addressable hk hb,
      hf.addressable.agbToByte_eq hk hb]
  have hout : ∀ p, ¬v.sb.BytesOf (covered [(fsb, 1)]) p →
      p < byteOf v.sb fsb ∨ byteOf v.sb fsb + buf.length ≤ p := by
    intro p hp
    by_contra hmeet
    exact hp (bytesOf_run hf hin (by simp only; omega) (by simp only; omega))
  rw [hat]
  change Leaves (onDev (Device.writeAt (byteOf v.sb fsb) buf)) v _ _
  refine leaves_onDev (leaves_iff.mpr ⟨fun _ d hw => ?_, fun e d hw => ?_⟩)
  · refine ⟨d, rfl, ⟨byteOf v.sb fsb, hat, ?_⟩, (Device.writeAt_wroteIn.ok hw).sameOn hout⟩
    rw [← hlen]
    exact Device.readAt_writeAt_same hw
  · exact ⟨d, rfl, (Device.writeAt_wroteIn.error hw).sameOn hout⟩

/-- A block stays where its bytes do. -/
theorem blockAt_of_sameOn {fsb : Nat} {buf : Bytes} (hf : sb.Fitting) (hin : InOneAg sb (fsb, 1))
    (h : BlockAt d sb fsb buf) (hsame : Device.SameOn P d d')
    (hP : ∀ p, sb.BytesOf (covered [(fsb, 1)]) p → P p) : BlockAt d' sb fsb buf := by
  obtain ⟨at_, hat, hread⟩ := h
  obtain ⟨-, rfl⟩ := inside_of_fsbToByte hat
  refine ⟨_, hat, ?_⟩
  rw [hsame.readAt_eq fun p hlo hhi => hP p (bytesOf_run hf hin hlo (by rw [Nat.one_mul]; exact hhi)), hread]

/-- Blocks are written one after another. -/
theorem writeFsbs_leaves {blocks : List (Nat × Bytes)} : ∀ {v : Volume}, v.sb.Fitting →
    (∀ b ∈ blocks, InOneAg v.sb (b.1, 1) ∧ b.2.length = v.sb.blockSize) →
      (blocks.map (·.1)).Nodup →
      Leaves (writeFsbs blocks) v
        (fun _ v' => ∃ d, v' = { v with dev := d } ∧
          Device.SameOn (fun p => ¬v.sb.BytesOf (covered (blocks.map fun b => (b.1, 1))) p) v.dev d)
        fun _ v' => ∃ d, v' = { v with dev := d } ∧ (∀ b ∈ blocks, BlockAt d v.sb b.1 b.2) ∧
          Device.SameOn (fun p => ¬v.sb.BytesOf (covered (blocks.map fun b => (b.1, 1))) p) v.dev d := by
  induction blocks with
  | nil =>
    intro v _ _ _
    exact leaves_pure ⟨v.dev, rfl, fun _ hb => absurd hb List.not_mem_nil, .refl _ _⟩
  | cons b blocks ih =>
    intro v hf hin hnodup
    obtain ⟨fsb, buf⟩ := b
    obtain ⟨hone, hlen⟩ := hin _ List.mem_cons_self
    obtain ⟨hnot, hnodup⟩ := List.nodup_cons.mp hnodup
    have hcons : covered (((fsb, buf) :: blocks).map fun b => (b.1, 1)) =
        covered [(fsb, 1)] ∪ covered (blocks.map fun b => (b.1, 1)) := covered_cons
    unfold writeFsbs
    refine leaves_get_bind ?_
    have hhead := @writeFsb_leaves v fsb buf hf hone hlen
    rw [← bind_assoc]
    refine (hhead.mono (fun _ v1 h1 => ?_) fun _ _ => id).bind fun _ v1 h1 => ?_
    · obtain ⟨d, rfl, hsame⟩ := h1
      refine ⟨d, rfl, hsame.mono fun p hp hof => hp (bytesOf_mono hof ?_)⟩
      rw [hcons]
      exact Set.subset_union_left
    · obtain ⟨d, rfl, hat, hsame⟩ := h1
      have hsame' : Device.SameOn
          (fun p => ¬v.sb.BytesOf (covered (((fsb, buf) :: blocks).map fun b => (b.1, 1))) p) v.dev d := by
        refine hsame.mono fun p hp hof => hp (bytesOf_mono hof ?_)
        rw [hcons]
        exact Set.subset_union_left
      have hrest := @ih { v with dev := d } hf (fun b hb => hin b (List.mem_cons_of_mem _ hb)) hnodup
      have hjoin : ∀ d', Device.SameOn
          (fun p => ¬v.sb.BytesOf (covered (blocks.map fun b => (b.1, 1))) p) d d' → Device.SameOn
          (fun p => ¬v.sb.BytesOf (covered (((fsb, buf) :: blocks).map fun b => (b.1, 1))) p) v.dev d' := by
        refine fun d' h' => hsame'.trans (h'.mono fun p hp hof => hp (bytesOf_mono hof ?_))
        rw [hcons]
        exact Set.subset_union_right
      refine hrest.mono (fun _ v2 h2 => ?_) fun _ v2 h2 => ?_
      · obtain ⟨d', rfl, h'⟩ := h2
        exact ⟨d', rfl, hjoin d' h'⟩
      · obtain ⟨d', rfl, hall, h'⟩ := h2
        refine ⟨d', rfl, fun b hb => ?_, hjoin d' h'⟩
        rcases List.mem_cons.mp hb with rfl | hb
        · -- the first block is none of the others
          refine blockAt_of_sameOn hf hone hat h' fun p hp hof => ?_
          obtain ⟨r, hr, hlo, hhi⟩ := hof.2
          obtain ⟨b', hb', rfl⟩ := List.mem_map.mp hr
          have hp' := mem_covered_singleton.mp hp.2
          simp only at hlo hhi hp'
          exact hnot (List.mem_map.mpr ⟨b', hb', show b'.1 = fsb by omega⟩)
        · exact hall b hb

/-! ## Mapping a fork -/

theorem Opened.kept (ho : v.Opened) (h : Kept P L v v') : v'.Opened where
  sound := h.sb ▸ ho.sound
  agCount_lt := h.sb ▸ ho.agCount_lt
  fits := by
    rw [h.sb, h.dev.size_eq]
    exact ho.fits
  size_lt := h.dev.size_eq ▸ ho.size_lt

theorem mem_expand_iff {x : Nat} : x ∈ expand runs ↔ x ∈ covered runs := by
  unfold expand
  rw [List.mem_flatMap]
  refine exists_congr fun r => and_congr_right fun _ => ?_
  rw [List.mem_range'_1]

theorem nodup_expand (h : runs.Pairwise (Apart Prod.fst fun r => r.1 + r.2)) : (expand runs).Nodup := by
  induction runs with
  | nil => exact List.nodup_nil
  | cons r runs ih =>
    obtain ⟨hhead, htail⟩ := List.pairwise_cons.mp h
    refine List.nodup_append.mpr ⟨List.nodup_range', ih htail, fun x hx y hy heq => ?_⟩
    obtain ⟨r', hr', hlo, hhi⟩ := mem_expand_iff.mp hy
    have hx := List.mem_range'_1.mp hx
    have hmeet := hhead r' hr'
    simp only [Apart] at hmeet
    omega

/-- A block of a run is a run of its own. -/
theorem InOneAg.block_run (hf : sb.Fitting) (h : InOneAg sb r) {x : Nat} (hlo : r.1 ≤ x)
    (hhi : x < r.1 + r.2) : InOneAg sb (x, 1) ∧ x < 2 ^ 52 ∧ ∃ at_, sb.fsbToByte x = .ok at_ := by
  have ha := hf.addressable
  obtain ⟨k, hk, s, len, hat, hlen, hpos, hend⟩ := h
  have hle := (Superblock.agLen_le hlen).1
  obtain ⟨i, rfl⟩ := Nat.exists_eq_add_of_le hlo
  have hb : s + i < sb.agBlocks := by omega
  have hnum : r.1 + i = sb.agbToFsb k (s + i) := by
    rw [hat, ha.agbToFsb_eq hk (by omega), ha.agbToFsb_eq hk hb, Nat.add_assoc]
  refine ⟨⟨k, hk, s + i, len, hnum, hlen, Nat.le_refl 1, by simp only; omega⟩, ?_, ?_⟩
  · have hlt := ha.agbno_lt hb
    have hk' : (k + 1) * 2 ^ sb.agblkLog ≤ sb.agCount * 2 ^ sb.agblkLog := Nat.mul_le_mul_right _ hk
    rw [Nat.succ_mul] at hk'
    have hfsb := hf.fsb_le
    rw [hnum, ha.agbToFsb_eq hk hb]
    omega
  · rw [hnum, ha.fsbToByte_agbToFsb hk hb]
    exact ⟨_, rfl⟩

/-- The extents of given runs fit their records. -/
theorem packable_extentsFrom (hf : sb.Fitting) (hin : ∀ r ∈ runs, InOneAg sb r)
    (hshort : ∀ r ∈ runs, r.2 ≤ MAX_EXTENT) (htotal : (runs.map (·.2)).sum < 2 ^ 54)
    {e : Extent} (he : e ∈ extentsFrom 0 runs) : e.Packable := by
  obtain ⟨hr, -, hstop, -⟩ := mem_extentsFrom he
  have hmax := hshort _ hr
  obtain ⟨_, _, _, _, _, _, hpos, _⟩ := hin _ hr
  have hone := (hin _ hr).block_run hf (Nat.le_refl _) (by omega)
  unfold Extent.stop at hstop
  unfold MAX_EXTENT at hmax
  simp only at hmax hpos hone
  exact ⟨by omega, hone.2.1, by omega, by omega⟩

/-- What mapping extents in a fork leaves: the blocks `runs` are taken for a B+tree, and the fork's
bytes, in an inode, are read as the extents. -/
structure ForkMade (L : Ledger) (v : Volume) (ino forkSize : Nat) (extents : List Extent)
    (out : Format × Bytes × Nat) (runs : List (Nat × Nat)) (v' : Volume) : Prop where
  kept : Kept (L.Names v.sb) (L.withBlocks (covered runs)) v v'
  taken : Taken v.sb L runs
  total : (runs.map (·.2)).sum = out.2.2
  format_eq : out.1 = .extents ∨ out.1 = .btree
  reads : ∀ (i : Inode) (pad : Bytes), i.ino = ino → i.format = out.1 → i.dataFork = out.2.1 ++ pad →
    i.dataFork.length = forkSize → i.nextents = extents.length → out.2.2 ≤ i.nblocks →
    i.nblocks + 1 < 2 ^ 64 →
      ∃ bs, Bmap.forkMap v'.dev v'.sb i false = .ok (extents, bs) ∧ bs.Perm (expand runs)

/-- Extents are mapped in a fork, or the ledger is minded as it was. -/
theorem mapFork_leaves {ino forkSize : Nat} (h : v.Minds L) (hf : v.sb.Fitting) (hino : ino < 2 ^ 64)
    (hsize : 20 ≤ forkSize) (hsize' : forkSize ≤ 2048) (hpack : ∀ e ∈ es, e.Packable)
    (hsorted : es.Pairwise fun a b => a.stop ≤ b.offset) :
    Leaves (mapFork ino es forkSize) v (fun _ v' => Kept (L.Names v.sb) L v v')
      fun out v' => ∃ runs, ForkMade L v ino forkSize es out runs v' := by
  have ha := hf.addressable
  unfold mapFork
  by_cases hbig : es.length ≤ forkSize / 16
  · -- in the inode
    rw [if_pos hbig]
    refine leaves_pure ⟨[], ?_, taken_nil v.sb L, rfl, Or.inl rfl, fun i pad hi hformat hfork hlen hnext _ _ => ?_⟩
    · rw [Ledger.withBlocks_nil]
      exact h.kept
    · exact ⟨[], forkMap_inline hpack hsorted (by omega) hformat hnext hfork, List.Perm.refl _⟩
  · rw [if_neg hbig]
    refine leaves_get_bind ?_
    cases hnb : bmapBlocks es.length v.sb.blockSize (bmapRootMax forkSize) with
    | none => exact leaves_throw h.kept
    | some nb =>
      simp only
      unfold mapOver
      refine leaves_get_bind ?_
      simp only
      refine (@allocBlocks_leaves v L (L.Names v.sb) _ _ nb h hf).bind fun runs v1 hgave => ?_
      have hf1 := hgave.kept.sb ▸ hf
      have hin1 : ∀ r ∈ runs, InOneAg v1.sb r := hgave.kept.sb ▸ hgave.taken.inAg
      have hback : L ≤ L.withBlocks (covered runs) := Ledger.le_withBlocks _ _
      refine ((@recordBmbt_leaves (L.withBlocks (covered runs)) (L.Names v.sb) ino runs v1 hgave.kept.minds
        hf1 hin1).mono (fun _ v2 h2 => (hgave.kept.trans h2).mono ha hback) fun _ _ => id).bind
        fun _ v2 h2 => ?_
      have hkept2 := hgave.kept.trans h2
      refine Leaves.bind (leaves_liftE (Q := fun laid v3 =>
        layFork v.sb ino es forkSize (expand runs) = .ok laid ∧ v3 = v2)
        (fun _ _ => hkept2.mono ha hback) fun laid hlaid => ⟨hlaid, rfl⟩) fun laid v3 hlaid => ?_
      obtain ⟨hlaid, rfl⟩ := hlaid
      obtain ⟨format, fork, blocks⟩ := laid
      simp only
      have hblock : ∀ x ∈ expand runs, InOneAg v.sb (x, 1) ∧ x < 2 ^ 52 ∧
          ∃ at_, v.sb.fsbToByte x = .ok at_ := by
        intro x hx
        obtain ⟨r, hr, hlo, hhi⟩ := mem_expand_iff.mp hx
        exact (hgave.taken.inAg r hr).block_run hf hlo hhi
      have htree := treeLaid_of_layFork ha.sound hf.isV5 hino hsize (by unfold bmapRootMax; omega) hpack
        hsorted hbig (by rw [length_expand, hgave.total]; exact hnb) (nodup_expand hgave.taken.apart)
        (fun x hx => ⟨(hblock x hx).2.1.trans (by norm_num), (hblock x hx).2.2⟩) hlaid
      have hmem : ∀ b ∈ blocks, b.1 ∈ expand runs := fun b hb => by
        rw [← htree.placed]
        exact List.mem_map_of_mem hb
      have hwrite := @writeFsbs_leaves blocks v3 (hkept2.sb ▸ hf) (fun b hb => ?_)
        (htree.placed ▸ nodup_expand hgave.taken.apart)
      · have hcovers : covered (blocks.map fun b => (b.1, 1)) ⊆ covered runs := by
          rintro x ⟨r, hr, hlo, hhi⟩
          obtain ⟨b, hb, rfl⟩ := List.mem_map.mp hr
          simp only at hlo hhi
          obtain rfl : x = b.1 := by omega
          exact mem_expand_iff.mp (hmem b hb)
        have hkept3 : ∀ d, Device.SameOn (fun p => ¬v3.sb.BytesOf (covered (blocks.map fun b => (b.1, 1))) p)
            v3.dev d → Kept (L.Names v.sb) (L.withBlocks (covered runs)) v { v3 with dev := d } := by
          intro d hsame
          have hw := @kept_written v3 L (L.withBlocks (covered runs)) (covered runs) d hkept2.minds
            (hkept2.sb ▸ ha.sound) (hkept2.sb ▸ hgave.taken.lacks) Set.subset_union_right
            (hsame.mono fun p hp hof => hp (bytesOf_mono hof hcovers))
          exact hkept2.trans (hw.of_bytes fun p hp => by rwa [hkept2.sb])
        refine (hwrite.mono (fun _ v4 h4 => ?_) fun _ _ => id).bind fun _ v4 h4 => ?_
        · obtain ⟨d, rfl, hsame⟩ := h4
          exact (hkept3 d hsame).mono ha hback
        · obtain ⟨d, rfl, hat, hsame⟩ := h4
          refine leaves_pure ⟨runs, hkept3 d hsame, hgave.taken, hgave.total, Or.inr htree.format_eq,
            fun i pad hi hformat hfork hlen hnext hblocks hmax => ?_⟩
          have hpad : pad = [] := by
            have hlen' := hlen
            rw [hfork, List.length_append, htree.length_eq] at hlen'
            exact List.length_eq_zero_iff.mp (by omega)
          rw [hpad, List.append_nil] at hfork
          rw [hkept2.sb] at hat ⊢
          exact htree.reads d i hat hi (hformat.trans htree.format_eq) hfork hnext
            (by rw [length_expand, hgave.total]; exact hblocks) hmax
      · rw [hkept2.sb]
        exact ⟨(hblock _ (hmem b hb)).1, htree.whole b hb⟩

/-! ## Storing a file's contents -/

/-- Bytes that hold data hold it where they stay. -/
theorem holdsData_of_sameOn (hf : sb.Fitting) (hin : ∀ r ∈ runs, InOneAg sb r)
    (h : HoldsData sb data (extentsFrom 0 runs) d) (hsame : Device.SameOn P d d')
    (hP : ∀ p, sb.BytesOf (covered runs) p → P p) : HoldsData sb data (extentsFrom 0 runs) d' := by
  intro e he i hi
  have hr := (mem_extentsFrom he).1
  rw [hsame.bytes _ (hP _ (bytesOf_mono (bytesOf_run hf (hin _ hr) (Nat.le_add_right _ _)
    (Nat.add_lt_add_left hi _)) (covered_singleton_subset hr)))]
  exact h e he i hi

/-- What storing a file's contents leaves: they are in the blocks `runs`, and the fork's bytes, in an
inode, are read as those, under a B+tree in the blocks `tree` if need be. -/
structure DataMade (L : Ledger) (v : Volume) (ino forkSize : Nat) (data : Bytes)
    (out : Format × Bytes × Nat × Nat) (runs tree : List (Nat × Nat)) (v' : Volume) : Prop where
  kept : Kept (L.Names v.sb) (L.withBlocks (covered (runs ++ tree))) v v'
  taken : Taken v.sb L (runs ++ tree)
  format_eq : out.1 = .extents ∨ out.1 = .btree
  blocks : out.2.2.1 = ((runs ++ tree).map (·.2)).sum
  count : out.2.2.2 = (extentsFrom 0 runs).length
  granted : Granted v.sb runs (divCeil data.length v.sb.blockSize)
  short : ∀ r ∈ runs, r.2 ≤ MAX_EXTENT
  holds : HoldsData v.sb data (extentsFrom 0 runs) v'.dev
  reads : ∀ (i : Inode) (pad : Bytes), i.ino = ino → i.format = out.1 → i.dataFork = out.2.1 ++ pad →
    i.dataFork.length = forkSize → i.nextents = out.2.2.2 → out.2.2.1 ≤ i.nblocks →
    i.nblocks + 1 < 2 ^ 64 →
      ∃ bs, Bmap.forkMap v'.dev v'.sb i false = .ok (extentsFrom 0 runs, bs) ∧ bs.Perm (expand tree)

theorem extentRuns_extentsFrom (hshort : ∀ r ∈ runs, r.2 ≤ MAX_EXTENT) :
    extentRuns (extentsFrom 0 runs) = runs := by
  refine Eq.trans ?_ (map_extentsFrom 0 runs)
  refine List.map_congr_left fun e he => ?_
  have hmax := hshort _ (mem_extentsFrom he).1
  unfold MAX_EXTENT at hmax
  simp only at hmax
  rw [Nat.mod_eq_of_lt (by omega)]

/-- Nothing at all takes no blocks. -/
theorem dataMade_nil {ino forkSize : Nat} (h : v.Minds L) (hdata : divCeil data.length v.sb.blockSize = 0) :
    DataMade L v ino forkSize data (.extents, [], 0, 0) [] [] v where
  kept := by
    rw [List.append_nil, Ledger.withBlocks_nil]
    exact h.kept
  taken := taken_nil v.sb L
  format_eq := Or.inl rfl
  blocks := rfl
  count := rfl
  granted := ⟨hdata.symm, fun _ hr => absurd hr List.not_mem_nil, List.Pairwise.nil⟩
  short _ hr := absurd hr List.not_mem_nil
  holds _ he := absurd he List.not_mem_nil
  reads i pad _ hformat hfork _ hnext _ _ :=
    ⟨[], forkMap_inline (fun _ he => absurd he List.not_mem_nil) List.Pairwise.nil (by decide) hformat hnext
      hfork, List.Perm.refl _⟩

/-- A file's contents are stored, or what was taken for them is given back. -/
theorem storeData_leaves {ino forkSize : Nat} (h : v.Minds L) (hf : v.sb.Fitting) (ho : v.Opened)
    (hino : ino < 2 ^ 64) (hsize : 20 ≤ forkSize) (hsize' : forkSize ≤ 2048)
    (hdata : data.length < 2 ^ 54) :
    Leaves (storeData ino forkSize data) v (fun _ v' => Kept (L.Names v.sb) L v v')
      fun out v' => ∃ runs tree, DataMade L v ino forkSize data out runs tree v' := by
  have ha := hf.addressable
  unfold storeData
  refine leaves_get_bind ?_
  by_cases hn : divCeil data.length v.sb.blockSize = 0
  · rw [if_pos hn]
    exact leaves_pure ⟨[], [], dataMade_nil h hn⟩
  rw [if_neg hn]
  simp only
  refine (@allocBlocks_leaves v L (L.Names v.sb) _ _ _ h hf).bind fun runs v1 hgave => ?_
  have hsb1 := hgave.kept.sb
  have hback : L ≤ L.withBlocks (covered runs) := Ledger.le_withBlocks _ _
  have hrec := @recordRuns_leaves (L.withBlocks (covered runs)) (L.Names v.sb) ino runs 0 v1
    hgave.kept.minds (hsb1 ▸ hf) (hsb1 ▸ hgave.taken.inAg)
  refine (hrec.mono (fun _ v2 h2 => (hgave.kept.trans h2).mono ha hback) fun _ _ => id).bind
    fun es v2 h2 => ?_
  obtain ⟨hkept12, rfl⟩ := h2
  have hkept2 := hgave.kept.trans hkept12
  have hsb2 := hkept2.sb
  rw [extentRuns_extentsFrom hgave.short]
  -- whatever goes wrong from here, the runs are given back
  have hundo : ∀ {v3 : Volume}, Kept (L.Names v.sb) (L.withBlocks (covered runs)) v v3 → ∀ e : Error,
      Leaves (do
        releaseAll ino runs
        throw e : Act Volume (Format × Bytes × Nat × Nat)) v3
        (fun _ v' => Kept (L.Names v.sb) L v v')
        fun out v' => ∃ runs tree, DataMade L v ino forkSize data out runs tree v' := by
    intro v3 h3 e
    have hrel := @releaseAll_leaves L (L.Names v.sb) ino runs _ v3 h3.minds (h3.sb ▸ hf)
      (h3.sb ▸ hgave.taken.leaving)
    exact (hrel.mono (fun _ v4 h4 => h3.trans h4) fun _ _ => id).bind fun _ v4 h4 =>
      leaves_throw (h3.trans h4)
  refine leaves_recover ?_
  have hgranted := hgave.granted
  have hlacks := hgave.taken.lacks
  have hwrite := @writeMapped_leaves v2 L (L.withBlocks (covered runs)) runs data hkept2.minds
    (hsb2 ▸ hf) (ho.kept hkept2) (hsb2 ▸ hgranted) (hsb2 ▸ hlacks) Set.subset_union_right
  have htotal : (runs.map (·.2)).sum ≤ data.length := by
    rw [hgranted.total]
    exact (divCeil_le_iff ha.sound.blockSize_pos).mpr (Nat.le_mul_of_pos_right _ ha.sound.blockSize_pos)
  rw [hsb2] at hwrite
  refine (hwrite.mono (fun e v3 h3 => hundo (hkept2.trans h3) e) fun _ _ => id).bind fun _ v3 h3 => ?_
  obtain ⟨hkept23, hholds⟩ := h3
  have hkept3 := hkept2.trans hkept23
  have hsb3 := hkept3.sb
  have hord := @inOrder_extentsFrom runs (fun r hr => by
    obtain ⟨_, _, _, _, _, _, hpos, _⟩ := hgave.taken.inAg r hr
    exact hpos) 0
  have hmap := @mapFork_leaves v3 (L.withBlocks (covered runs)) (extentsFrom 0 runs) ino forkSize
    hkept3.minds (hsb3 ▸ hf) hino hsize hsize' (fun e he =>
      packable_extentsFrom hf hgave.taken.inAg hgave.short (by omega) he) hord.apart
  rw [hsb3] at hmap
  have hnames : ∀ p, L.Names v.sb p → (L.withBlocks (covered runs)).Names v.sb p := fun p hp => hp.mono hback
  refine (hmap.mono (fun e v4 h4 => hundo (hkept3.trans (h4.of_bytes hnames)) e) fun _ _ => id).bind
    fun out v4 h4 => ?_
  obtain ⟨tree, hmade⟩ := h4
  obtain ⟨format, fork, nb⟩ := out
  have hkept34 := hmade.kept
  rw [hsb3] at hkept34
  have htaken := hmade.taken
  rw [hsb3] at htaken
  refine leaves_pure ⟨runs, tree, ?_⟩
  exact
    { kept := by
        have hkept4 := hkept3.trans (hkept34.of_bytes hnames)
        rwa [Ledger.withBlocks_withBlocks, ← covered_append] at hkept4
      taken := hgave.taken.append htaken
      format_eq := hmade.format_eq
      blocks := by
        rw [List.map_append, List.sum_append, hgranted.total, hmade.total]
      count := rfl
      granted := hgranted
      short := hgave.short
      holds := holdsData_of_sameOn hf hgave.taken.inAg hholds hkept34.dev fun p hp => Or.inl (Or.inr hp.2)
      reads := fun i pad hi hformat hfork hlen hnext hblocks hmax =>
        hmade.reads i pad hi hformat hfork hlen hnext
          ((Nat.le_add_left _ _).trans hblocks) hmax }

end

end Volume

end FioXfs
