import FioXfs.Bmap.ReadBlocks
import FioXfs.Export
import FioXfs.Lib.Window
import Mathlib.Data.List.TakeWhile
set_option autoImplicit false

/-!
# The contents of a file

What a file holds is a matter of its size and its extents: at each place the byte of the block
mapped there, or zero.  Reading a range rounds it out to blocks, finds the extents that meet
them, reads from each the blocks it has there, and cuts the range out again; this is a slice of
the contents, wherever the ends fall.  Memory is taken to be enough for any range.
-/

namespace FioXfs

open FioXfs.Lib FioXfs.Bmap

namespace Bmap

/-! ## Extents in order -/

/-- The extent has bytes for logical block `lblk`. -/
def Extent.covers (e : Extent) (lblk : Nat) : Bool :=
  decide (e.offset ≤ lblk ∧ lblk < e.stop ∧ e.unwritten = false)

theorem Extent.covers_iff {e : Extent} {lblk : Nat} :
    e.covers lblk = true ↔ e.offset ≤ lblk ∧ lblk < e.stop ∧ e.unwritten = false :=
  decide_eq_true_iff

theorem Extent.covers_eq_false {e : Extent} {lblk : Nat} :
    e.covers lblk = false ↔ ¬(e.offset ≤ lblk ∧ lblk < e.stop ∧ e.unwritten = false) :=
  decide_eq_false_iff_not

/-- Extents in order, none empty, none meeting the next. -/
structure InOrder (es : List Extent) : Prop where
  count_pos : ∀ e ∈ es, 0 < e.count
  apart : es.Pairwise fun a b => a.stop ≤ b.offset

theorem InOrder.tail {e : Extent} {es : List Extent} (h : InOrder (e :: es)) : InOrder es :=
  ⟨fun e he => h.count_pos e (List.mem_cons_of_mem _ he), (List.pairwise_cons.mp h.apart).2⟩

section
variable {dev : Device} {sb : Superblock} {fsb n : Nat}

/-- Every block of the run has its bytes on the device. -/
def OnDevice (dev : Device) (sb : Superblock) (fsb n : Nat) : Prop :=
  ∀ i < n, ∃ at_, sb.fsbToByte (fsb + i) = .ok at_ ∧ at_ + sb.blockSize ≤ dev.size

theorem inside_of_fsbToByte {at_ : Nat} (h : sb.fsbToByte fsb = .ok at_) :
    Inside sb fsb ∧ at_ = byteOf sb fsb := by
  by_cases hin : Inside sb fsb
  · rw [fsbToByte_of_inside hin] at h
    exact ⟨hin, (Except.ok.inj h).symm⟩
  · rw [fsbToByte_of_not_inside hin] at h
    cases h

/-- The block after another is the next one over all groups too: a group that ends where the
block numbers go on has no numbers to spare. -/
theorem linear_succ (hs : sb.Sound) (h : Inside sb fsb) (h' : Inside sb (fsb + 1)) :
    agOf sb (fsb + 1) * sb.agBlocks + agbOf sb (fsb + 1) =
      agOf sb fsb * sb.agBlocks + agbOf sb fsb + 1 := by
  obtain ⟨q, r, hr, rfl⟩ : ∃ q r, r < 2 ^ sb.agblkLog ∧ q * 2 ^ sb.agblkLog + r = fsb :=
    ⟨_, _, Nat.mod_lt _ (Nat.two_pow_pos _), by rw [Nat.mul_comm]; exact Nat.div_add_mod _ _⟩
  have hb := h.2
  have hle := hs.agBlocks_le
  unfold agOf agbOf at *
  rw [Superblock.packed_mod hr] at hb
  rw [Superblock.packed_div hr, Superblock.packed_mod hr]
  by_cases hlast : r + 1 < 2 ^ sb.agblkLog
  · rw [Nat.add_assoc, Superblock.packed_div hlast, Superblock.packed_mod hlast]
    exact (Nat.add_assoc _ _ _).symm
  · have hend : q * 2 ^ sb.agblkLog + r + 1 = (q + 1) * 2 ^ sb.agblkLog + 0 := by
      rw [Nat.succ_mul]
      omega
    have hfull : sb.agBlocks = r + 1 := by omega
    rw [hend, Superblock.packed_div (Nat.two_pow_pos _), Superblock.packed_mod (Nat.two_pow_pos _),
      hfull, Nat.succ_mul]
    omega

/-- The bytes of a run that has them lie one after the other. -/
theorem byteOf_add_of_onDevice (hs : sb.Sound) (hsize : dev.size < 2 ^ 64)
    (h : OnDevice dev sb fsb n) {i : Nat} (hi : i < n) :
    Inside sb (fsb + i) ∧ byteOf sb (fsb + i) = byteOf sb fsb + i * sb.blockSize ∧
      byteOf sb fsb + i * sb.blockSize + sb.blockSize ≤ dev.size := by
  induction i with
  | zero =>
    obtain ⟨at_, hat, hfit⟩ := h 0 hi
    obtain ⟨hin, rfl⟩ := inside_of_fsbToByte hat
    rw [Nat.add_zero] at hin hfit ⊢
    exact ⟨hin, by omega, by omega⟩
  | succ i ih =>
    obtain ⟨hin, heq, hend⟩ := ih (by omega)
    obtain ⟨at_, hat, hfit⟩ := h (i + 1) hi
    obtain ⟨hin', rfl⟩ := inside_of_fsbToByte hat
    have hnext : byteOf sb (fsb + (i + 1)) = byteOf sb (fsb + i) + sb.blockSize := by
      have hlin := linear_succ hs hin hin'
      have hlt : byteOf sb (fsb + i) + sb.blockSize < 2 ^ 64 := by omega
      unfold byteOf at hlt ⊢
      rw [← Nat.add_assoc, hlin, Nat.shiftLeft_eq, Nat.succ_mul, ← Nat.shiftLeft_eq,
        ← hs.blockSize_eq, ← Nat.mod_add_mod, Nat.mod_eq_of_lt hlt]
    rw [hnext, heq] at hfit ⊢
    rw [Nat.succ_mul]
    exact ⟨hin', by omega, by omega⟩

/-- A run that has its bytes is read. -/
theorem readBlocks_of_onDevice (hs : sb.Sound) (hsize : dev.size < 2 ^ 64) (hn : 0 < n)
    (h : OnDevice dev sb fsb n) :
    readBlocks dev sb fsb n = .ok (slice dev.data (byteOf sb fsb) (n * sb.blockSize)) := by
  obtain ⟨hfirst, -, -⟩ := byteOf_add_of_onDevice hs hsize h hn
  obtain ⟨hlast, -, hend⟩ := byteOf_add_of_onDevice hs hsize h (Nat.sub_lt hn Nat.one_pos)
  refine readBlocks_of_taken hs ⟨hfirst, ?_, ?_⟩
  · rwa [← Nat.add_sub_assoc hn] at hlast
  · rw [Nat.add_assoc, ← Nat.succ_mul, Nat.succ_eq_add_one, Nat.sub_add_cancel hn] at hend
    exact hend

end

end Bmap

namespace Volume

/-! ## What a file holds -/

/-- The byte of the device at `a`. -/
def deviceByte (v : Volume) (a : Nat) : UInt8 := (v.dev.data[a]?).getD 0

/-- The byte at `p` of the file in the block that extent `e` maps there. -/
def mappedByte (v : Volume) (e : Extent) (p : Nat) : UInt8 :=
  v.deviceByte (placeOf v.sb (e.block + (p / v.sb.blockSize - e.offset)) + p % v.sb.blockSize)

/-- The byte at `p` of the file, over bytes `under` where no written extent is. -/
def byteOver (v : Volume) (under : Nat → UInt8) (es : List Extent) (p : Nat) : UInt8 :=
  match es.find? (·.covers (p / v.sb.blockSize)) with
  | some e => v.mappedByte e p
  | none => under p

/-- The contents of a file of `size` bytes. -/
def contents (v : Volume) (es : List Extent) (size : Nat) : Bytes :=
  window (v.byteOver (fun _ => 0) es) 0 size

/-- Every written extent's blocks have their bytes on the device. -/
def Readable (v : Volume) (es : List Extent) : Prop :=
  ∀ e ∈ es, e.unwritten = false → OnDevice v.dev v.sb e.block e.count

/-- A file's contents from `off` on, in pieces of `chunk` bytes. -/
def piecesBy (v : Volume) (chunk : Nat) (i : Inode) (extents : List Extent) (size : Nat) :
    Nat → Nat → Steps Bytes
  | 0, _ => ⟨[], some (.panic "out of fuel")⟩
  | fuel + 1, off =>
      if off < size then
        match v.readInodeRange i extents off chunk with
        | .error e => ⟨[], some e⟩
        | .ok piece =>
            Lib.Steps.andThen ⟨[piece], none⟩
              (piecesBy v chunk i extents size fuel (off + piece.length))
      else ⟨[], none⟩

/-- Every range read is a slice of the contents, and so are the pieces of any length, `CHUNK`
among them, one after the other. -/
structure ReadsContents (v : Volume) (i : Inode) (es : List Extent) : Prop where
  ranges : ∀ offset len,
    v.readInodeRange i es offset len = .ok (slice (v.contents es i.size) offset len)
  pieces : ∀ chunk, 0 < chunk → ∃ ps,
    v.piecesBy chunk i es i.size (i.size + 1) 0 = ⟨ps, none⟩ ∧ ps.flatten = v.contents es i.size
  packed : ∃ ps,
    v.readPieces i es i.size (i.size + 1) 0 = ⟨ps, none⟩ ∧ ps.flatten = v.contents es i.size

section
variable {v : Volume} {es : List Extent} {e : Extent}

/-! ## One extent -/

/-- The bytes of blocks `n` of an extent from its block `k` on. -/
theorem readBlocks_extent (hs : v.sb.Sound) (hsize : v.dev.size < 2 ^ 64)
    (h : OnDevice v.dev v.sb e.block e.count) {k n : Nat} (hn : 0 < n) (hk : k + n ≤ e.count) :
    ∃ data, readBlocks v.dev v.sb (e.block + k) n = .ok data ∧ data.length = n * v.sb.blockSize ∧
      ∀ j < n * v.sb.blockSize,
        data[j]? = some (v.mappedByte e ((e.offset + k) * v.sb.blockSize + j)) := by
  have hbs := hs.blockSize_pos
  have hsub : OnDevice v.dev v.sb (e.block + k) n := by
    intro i hi
    rw [Nat.add_assoc]
    exact h (k + i) (by omega)
  have hfit : byteOf v.sb (e.block + k) + n * v.sb.blockSize ≤ v.dev.size := by
    obtain ⟨-, -, hend⟩ := byteOf_add_of_onDevice hs hsize hsub (Nat.sub_lt hn Nat.one_pos)
    rw [Nat.add_assoc, ← Nat.succ_mul, Nat.succ_eq_add_one, Nat.sub_add_cancel hn] at hend
    exact hend
  refine ⟨_, readBlocks_of_onDevice hs hsize hn hsub, length_slice hfit, fun j hj => ?_⟩
  have hdiv : ((e.offset + k) * v.sb.blockSize + j) / v.sb.blockSize - e.offset =
      k + j / v.sb.blockSize := by
    rw [Nat.mul_comm, Nat.mul_add_div hbs, Nat.add_assoc, Nat.add_sub_cancel_left]
  have hmod : ((e.offset + k) * v.sb.blockSize + j) % v.sb.blockSize = j % v.sb.blockSize := by
    rw [Nat.mul_comm, Nat.mul_add_mod]
  have hjn : j / v.sb.blockSize < n := Nat.div_lt_of_lt_mul (by rwa [Nat.mul_comm])
  obtain ⟨hin, hplace, -⟩ := byteOf_add_of_onDevice hs hsize hsub hjn
  have hat : placeOf v.sb (e.block + (k + j / v.sb.blockSize)) + j % v.sb.blockSize =
      byteOf v.sb (e.block + k) + j := by
    have hj' := Nat.div_add_mod j v.sb.blockSize
    rw [← Nat.add_assoc, placeOf, fsbToByte_of_inside hin, hplace, Nat.mul_comm]
    simp only [Except.toOption, Option.getD_some]
    omega
  rw [mappedByte, hdiv, hmod, hat, deviceByte, getElem?_slice, if_pos hj]
  unfold Device.size at hfit
  rw [List.getElem?_eq_getElem (by omega)]
  rfl

/-! ## Filling in -/

theorem byteOver_nil (v : Volume) (g : Nat → UInt8) : v.byteOver g [] = g := rfl

theorem byteOver_of_covers {g : Nat → UInt8} {p : Nat} (h : e.covers (p / v.sb.blockSize) = true) :
    v.byteOver g (e :: es) p = v.mappedByte e p := by
  rw [byteOver, List.find?_cons, h]

theorem byteOver_of_not_covers {g : Nat → UInt8} {p : Nat}
    (h : e.covers (p / v.sb.blockSize) = false) :
    v.byteOver g (e :: es) p = v.byteOver g es p := by
  rw [byteOver, List.find?_cons, h, byteOver]

/-- Filling one extent in before the others leaves what they cover to them. -/
theorem byteOver_cons (h : InOrder (e :: es)) (g : Nat → UInt8) (p : Nat) :
    v.byteOver (v.byteOver g [e]) es p = v.byteOver g (e :: es) p := by
  cases hc : e.covers (p / v.sb.blockSize) with
  | true =>
    have hnone : es.find? (·.covers (p / v.sb.blockSize)) = none := by
      refine List.find?_eq_none.mpr fun e' he' => ?_
      have hapart := (List.pairwise_cons.mp h.apart).1 e' he'
      rw [Extent.covers_iff] at hc ⊢
      omega
    have hone : v.byteOver g [e] p = v.mappedByte e p := byteOver_of_covers hc
    rw [byteOver_of_covers hc, byteOver, hnone]
    exact hone
  | false =>
    have hsame : v.byteOver g [e] p = g p := by
      rw [byteOver_of_not_covers hc, byteOver_nil]
    rw [byteOver_of_not_covers hc]
    conv_lhs => rw [byteOver]
    conv_rhs => rw [byteOver]
    rw [hsame]

/-- One extent's part of the blocks `lblk..stop` filled in. -/
theorem fillMapped_eq (hs : v.sb.Sound) (hsize : v.dev.size < 2 ^ 64)
    (hread : e.unwritten = false → OnDevice v.dev v.sb e.block e.count) (hcount : 0 < e.count)
    {lblk stop : Nat} (hlo : lblk < e.stop) (hhi : e.offset < stop) (hne : lblk < stop)
    (g : Nat → UInt8) :
    v.fillMapped lblk stop
        (window g (lblk * v.sb.blockSize) ((stop - lblk) * v.sb.blockSize)) e =
      .ok (window (v.byteOver g [e]) (lblk * v.sb.blockSize) ((stop - lblk) * v.sb.blockSize)) := by
  have hbs := hs.blockSize_pos
  unfold fillMapped
  cases hun : e.unwritten with
  | true =>
    have hnone : ∀ p, v.byteOver g [e] p = g p := by
      intro p
      rw [byteOver_of_not_covers (Extent.covers_eq_false.mpr (by simp [hun])), byteOver_nil]
    rw [if_pos rfl]
    exact congrArg _ (window_congr fun i _ => (hnone _).symm)
  | false =>
    unfold Extent.stop at hlo ⊢
    obtain ⟨first, hfirst⟩ : ∃ first, first = max e.offset lblk := ⟨_, rfl⟩
    obtain ⟨n, hn⟩ : ∃ n, n = min (e.offset + e.count) stop - first := ⟨_, rfl⟩
    obtain ⟨data, hdata, hlen, hbytes⟩ := readBlocks_extent hs hsize (hread hun)
      (k := first - e.offset) (n := n) (by omega) (by omega)
    simp only [Bool.false_eq_true, if_false, ← hfirst, ← hn, hdata, except_ok_bind]
    have hplace : e.offset + (first - e.offset) = first := by omega
    have hstart : lblk * v.sb.blockSize + (first - lblk) * v.sb.blockSize =
        first * v.sb.blockSize := by
      rw [← Nat.add_mul, Nat.add_sub_cancel' (by omega)]
    have hroom : (first - lblk) * v.sb.blockSize + n * v.sb.blockSize ≤
        (stop - lblk) * v.sb.blockSize := by
      rw [← Nat.add_mul]
      exact Nat.mul_le_mul_right _ (by omega)
    refine congrArg _ (splice_window (by rwa [hlen]) (fun j hj => ?_) fun j hj hout => ?_)
    · -- a byte that was read: its block is one the extent covers
      rw [hlen] at hj
      have hjn : j / v.sb.blockSize < n := Nat.div_lt_of_lt_mul (by rwa [Nat.mul_comm])
      have hblk : (first * v.sb.blockSize + j) / v.sb.blockSize = first + j / v.sb.blockSize := by
        rw [Nat.mul_comm, Nat.mul_add_div hbs]
      rw [hbytes j hj, hplace, hstart, byteOver_of_covers]
      rw [hblk, Extent.covers_iff, Extent.stop]
      generalize j / v.sb.blockSize = q at hjn
      exact ⟨by omega, by omega, hun⟩
    · -- a byte beside them: its block is before the extent's first or past its last
      rw [hlen] at hout
      have hblk : (lblk * v.sb.blockSize + j) / v.sb.blockSize = lblk + j / v.sb.blockSize := by
        rw [Nat.mul_comm, Nat.mul_add_div hbs]
      have hjs : j / v.sb.blockSize < stop - lblk := Nat.div_lt_of_lt_mul (by rwa [Nat.mul_comm])
      rw [byteOver_of_not_covers, byteOver_nil]
      rw [hblk, Extent.covers_eq_false, Extent.stop]
      rcases hout with hbefore | hafter
      · have hlt : j / v.sb.blockSize < first - lblk :=
          Nat.div_lt_of_lt_mul (by rwa [Nat.mul_comm])
        generalize j / v.sb.blockSize = q at hlt hjs
        omega
      · have hge : first - lblk + n ≤ j / v.sb.blockSize := by
          rw [Nat.le_div_iff_mul_le hbs, Nat.add_mul]
          exact hafter
        generalize j / v.sb.blockSize = q at hge hjs
        omega

/-- A run of extents filled in, whatever was there before. -/
theorem foldlM_fillMapped (hs : v.sb.Sound) (hsize : v.dev.size < 2 ^ 64) (hord : InOrder es)
    (hread : v.Readable es) {lblk stop : Nat} (hne : lblk < stop)
    (hmeet : ∀ e ∈ es, lblk < e.stop ∧ e.offset < stop) (g : Nat → UInt8) :
    es.foldlM (v.fillMapped lblk stop)
        (window g (lblk * v.sb.blockSize) ((stop - lblk) * v.sb.blockSize)) =
      .ok (window (v.byteOver g es) (lblk * v.sb.blockSize) ((stop - lblk) * v.sb.blockSize)) := by
  induction es generalizing g with
  | nil => rfl
  | cons e es ih =>
    obtain ⟨hlo, hhi⟩ := hmeet e (by simp)
    rw [List.foldlM_cons, fillMapped_eq hs hsize (hread e (by simp)) (hord.count_pos e (by simp))
      hlo hhi hne, except_ok_bind, ih hord.tail (fun e he => hread e (List.mem_cons_of_mem _ he))
      fun e he => hmeet e (List.mem_cons_of_mem _ he)]
    exact congrArg _ (window_congr fun i _ => byteOver_cons hord g _)

/-! ## The extents that meet a range -/

/-- Past the partition point all extents end after `lblk`. -/
theorem lt_stop_of_mem_dropWhile (hord : InOrder es) {lblk : Nat}
    (he : e ∈ es.dropWhile fun e => decide (e.stop ≤ lblk)) : lblk < e.stop := by
  induction es with
  | nil => cases he
  | cons a es ih =>
    by_cases ha : a.stop ≤ lblk
    · rw [List.dropWhile_cons, if_pos (decide_eq_true ha)] at he
      exact ih hord.tail he
    · rw [List.dropWhile_cons, if_neg (by simpa using ha)] at he
      rcases List.mem_cons.mp he with rfl | he
      · exact not_le.mp ha
      · have hae := (List.pairwise_cons.mp hord.apart).1 e he
        have hee : e.offset ≤ e.stop := Nat.le_add_right _ _
        omega

theorem mem_meeting {lblk stop : Nat} (he : e ∈ meeting es lblk stop) (hord : InOrder es) :
    e ∈ es ∧ lblk < e.stop ∧ e.offset < stop := by
  have hdrop := (List.takeWhile_sublist _).subset he
  have htake := @List.mem_takeWhile_imp _ (fun e : Extent => decide (e.offset < stop)) _ _ he
  exact ⟨(List.dropWhile_sublist _).subset hdrop, lt_stop_of_mem_dropWhile hord hdrop,
    of_decide_eq_true htake⟩

theorem inOrder_meeting (hord : InOrder es) (lblk stop : Nat) : InOrder (meeting es lblk stop) := by
  have hsub : (meeting es lblk stop).Sublist es :=
    (List.takeWhile_sublist _).trans (List.dropWhile_sublist _)
  exact ⟨fun e he => hord.count_pos e (hsub.subset he), hord.apart.sublist hsub⟩

/-- Nothing that covers a block of the range is left out. -/
theorem find?_meeting (hord : InOrder es) {lblk stop l : Nat} (hlo : lblk ≤ l) (hhi : l < stop) :
    (meeting es lblk stop).find? (·.covers l) = es.find? (·.covers l) := by
  have hafter : (es.dropWhile fun e => decide (e.stop ≤ lblk)).Pairwise fun a b =>
      decide (a.offset < stop) = false → b.covers l = false := by
    refine (hord.apart.sublist (List.dropWhile_sublist _)).imp fun {a b} hab ha => ?_
    have haa : a.offset ≤ a.stop := Nat.le_add_right _ _
    rw [decide_eq_false_iff_not] at ha
    rw [Extent.covers_eq_false]
    omega
  rw [meeting, find?_takeWhile (fun a _ ha => ?_) hafter, find?_dropWhile fun a _ ha => ?_]
  · rw [decide_eq_true_iff] at ha
    rw [Extent.covers_eq_false]
    omega
  · rw [decide_eq_false_iff_not] at ha
    rw [Extent.covers_eq_false]
    omega

/-- Mapped blocks as they are in the file. -/
theorem readMapped_eq (hs : v.sb.Sound) (hsize : v.dev.size < 2 ^ 64) (hord : InOrder es)
    (hread : v.Readable es) {lblk count : Nat} (hcount : 0 < count) :
    v.readMapped es lblk count =
      .ok (window (v.byteOver (fun _ => 0) es) (lblk * v.sb.blockSize)
        (count * v.sb.blockSize)) := by
  have hzero : List.replicate (count * v.sb.blockSize) (0 : UInt8) =
      window (fun _ => 0) (lblk * v.sb.blockSize) ((lblk + count - lblk) * v.sb.blockSize) := by
    rw [Nat.add_sub_cancel_left]
    refine eq_window List.length_replicate fun i hi => ?_
    rw [List.getElem?_replicate, if_pos hi]
  have hread' : v.Readable (meeting es lblk (lblk + count)) :=
    fun e he => hread e (mem_meeting he hord).1
  rw [readMapped, hzero, foldlM_fillMapped hs hsize (inOrder_meeting hord _ _) hread' (by omega)
    fun e he => (mem_meeting he hord).2]
  rw [Nat.add_sub_cancel_left]
  refine congrArg _ (window_congr fun i hi => ?_)
  have hblk : (lblk * v.sb.blockSize + i) / v.sb.blockSize = lblk + i / v.sb.blockSize := by
    rw [Nat.mul_comm, Nat.mul_add_div hs.blockSize_pos]
  have hin : i / v.sb.blockSize < count := Nat.div_lt_of_lt_mul (by rwa [Nat.mul_comm])
  rw [byteOver, byteOver, hblk, find?_meeting hord (Nat.le_add_right _ _) (by omega)]

/-! ## Ranges -/

section
variable {i : Inode}

/-- A range is rounded out to blocks and cut out of them again. -/
theorem readInodeRange_eq (hs : v.sb.Sound) (hsize : v.dev.size < 2 ^ 64) (hord : InOrder es)
    (hread : v.Readable es) (hfmt : i.format ≠ .local_) (hrt : i.isRealtime = false)
    (offset len : Nat) :
    v.readInodeRange i es offset len = .ok (slice (v.contents es i.size) offset len) := by
  have hbs := hs.blockSize_pos
  rw [contents, slice_window, Nat.zero_add]
  unfold readInodeRange
  by_cases hout : i.size ≤ offset ∨ len = 0
  · have hnone : min len (i.size - offset) = 0 := by omega
    rw [if_pos hout, hnone]
    rfl
  · rw [if_neg hout, if_neg hfmt, hrt]
    obtain ⟨n, hn⟩ : ∃ n, n = min len (i.size - offset) := ⟨_, rfl⟩
    simp only [← hn]
    obtain ⟨first, hfirst⟩ : ∃ first, first = offset / v.sb.blockSize := ⟨_, rfl⟩
    obtain ⟨last, hlast⟩ : ∃ last, last = (offset + n - 1) / v.sb.blockSize := ⟨_, rfl⟩
    have hle : first ≤ last := by
      rw [hfirst, hlast]
      exact Nat.div_le_div_right (by omega)
    have hstart : first * v.sb.blockSize ≤ offset := hfirst ▸ Nat.div_mul_le_self _ _
    have hend : offset + n - 1 < (last + 1) * v.sb.blockSize := by
      rw [Nat.mul_comm]
      exact hlast ▸ Nat.lt_mul_div_succ _ hbs
    have hcount : (last + 1) * v.sb.blockSize =
        first * v.sb.blockSize + (last - first + 1) * v.sb.blockSize := by
      rw [← Nat.add_mul]
      congr 1
      omega
    rw [except_throwIf_bind_of_not Bool.false_ne_true, ← hfirst, ← hlast,
      readMapped_eq hs hsize hord hread (by omega), except_ok_bind]
    have hwin : slice (window (v.byteOver (fun _ => 0) es) (first * v.sb.blockSize)
        ((last - first + 1) * v.sb.blockSize)) (offset - first * v.sb.blockSize) n =
        window (v.byteOver (fun _ => 0) es) offset n := by
      rw [slice_window, Nat.add_sub_cancel' hstart, Nat.min_eq_left (by omega)]
    exact congrArg _ hwin

/-! ## Piece by piece -/

end

end

/-! ## A file with holes -/

/-- An unwritten block, two written ones with a hole before and after them. -/
def holeyExtents : List Extent := [⟨0, 12, 1, true⟩, ⟨2, 9, 2, false⟩]

/-- A volume with a device of 16 blocks. -/
def holeyVolume : Volume :=
  { dev := ⟨List.replicate 8192 7, []⟩, sb := freshSb 16 true, log := .clean, w := none
    time := none, clock := [] }

/-- Its size ends within the last block. -/
def holeyInode : Inode :=
  { ino := 200, mode := Mode.IFREG, version := 3, format := .extents, uid := 0, gid := 0, nlink := 1
    projid := 0, atime := ⟨0, 0⟩, mtime := ⟨0, 0⟩, ctime := ⟨0, 0⟩, crtime := none, size := 2500
    nblocks := 3, nextents := 2, anextents := 0, aformat := none, flags := 0, flags2 := 0
    generation := 0, dataFork := [], attrFork := [] }

end Volume

end FioXfs
