import FioXfs.Addresses
import FioXfs.Volume.Contents
import FioXfs.Write.Blocks
set_option autoImplicit false

/-!
# A file's contents, stored

The runs that are given for a file become extents one after the other, and its bytes go into
them piece by piece.  Three ends meet in the copying: that of the extent, that of the data, and
that of the data's last block; wherever they fall, the blocks of the runs get the data and
zeroes after it, and no other byte of the device changes.
-/

namespace FioXfs

open FioXfs.Lib FioXfs.Bmap FioXfs.Alloc

/-- The byte of `data` at `p`, zero past its end. -/
def paddedByte (data : Bytes) (p : Nat) : UInt8 := (data[p]?).getD 0

namespace Device

/-! ## One piece -/

/-- Nothing outside the `n` bytes from `a` on has changed. -/
structure WroteIn (d d' : Device) (a n : Nat) : Prop where
  size_eq : d'.size = d.size
  outside : ∀ p, p < a ∨ a + n ≤ p → d'.data[p]? = d.data[p]?

/-- The device fails one of the writes to come, and `e` is how it says so. -/
def Fails (d : Device) (e : Error) : Prop := e = .io "the device failed" ∧ true ∈ d.faults

/-- What copying `n` bytes of `data` from `at_` on to `devAt` may end in. -/
def Copied (data : Bytes) (at_ devAt n : Nat) (d : Device) : EStateM.Result Error Device Unit → Prop
  | .ok _ d' => WroteIn d d' devAt n ∧ d'.faults <:+ d.faults ∧
      ∀ i < n, d'.data[devAt + i]? = some (paddedByte data (at_ + i))
  | .error e d' => WroteIn d d' devAt n ∧ d.Fails e

section
variable {data buf : Bytes} {d d' d'' : Device} {a b m n at_ devAt stop : Nat} {e : Error}

theorem Fails.of_suffix (h : d'.Fails e) (hs : d'.faults <:+ d.faults) : d.Fails e :=
  ⟨h.1, hs.mem h.2⟩

theorem WroteIn.refl (d : Device) (a n : Nat) : WroteIn d d a n := ⟨rfl, fun _ _ => rfl⟩

theorem WroteIn.trans (h : WroteIn d d' a m) (h' : WroteIn d' d'' (a + m) n) :
    WroteIn d d'' a (m + n) where
  size_eq := h'.size_eq.trans h.size_eq
  outside p hp := (h'.outside p (by omega)).trans (h.outside p (by omega))

theorem WroteIn.mono (h : WroteIn d d' a m) (hle : m ≤ n) : WroteIn d d' a n where
  size_eq := h.size_eq
  outside p hp := h.outside p (by omega)

/-- What a write that is done leaves of the faults to come, and one that is not had among them. -/
theorem nextFault_faults (d : Device) :
    d.nextFault.2.faults <:+ d.faults ∧ (d.nextFault.1 = true → true ∈ d.faults) := by
  unfold nextFault
  cases h : d.faults with
  | nil => exact ⟨by rw [h], fun hf => by cases hf⟩
  | cons f fs => exact ⟨List.suffix_cons f fs, fun hf => by rw [← hf]; exact List.mem_cons_self⟩

/-- A write changes its own bytes, or fails and changes nothing. -/
theorem writeAt_copied (hfit : a + buf.length ≤ d.size)
    (hbuf : ∀ i < buf.length, buf[i]? = some (paddedByte data (at_ + i))) :
    Copied data at_ a buf.length d (writeAt a buf d) := by
  obtain ⟨hleft, hmem⟩ := nextFault_faults d
  cases hw : writeAt a buf d with
  | ok u d' =>
    obtain ⟨-, hdata⟩ := writeAt_ok hw
    have hle : a ≤ d.data.length := by unfold Device.size at hfit; omega
    have hfaults : d'.faults <:+ d.faults := by
      unfold writeAt at hw
      rw [if_pos hfit] at hw
      split at hw
      · cases hw
      · rename_i d1 hf
        obtain ⟨-, rfl⟩ := EStateM.Result.ok.inj hw
        rwa [hf] at hleft
    refine ⟨⟨size_writeAt hw, fun p hp => ?_⟩, hfaults, fun i hi => ?_⟩
    · rw [hdata, getElem?_splice hle]
      rcases hp with hp | hp
      · rw [if_pos hp]
      · rw [if_neg (by omega), if_neg (by omega)]
    · rw [hdata, getElem?_splice hle, if_neg (by omega), if_pos (by omega),
        Nat.add_sub_cancel_left, hbuf i hi]
  | error e d' =>
    unfold writeAt at hw
    rw [if_pos hfit] at hw
    split at hw
    · rename_i d1 hf
      obtain ⟨rfl, rfl⟩ := EStateM.Result.error.inj hw
      have hd1 : d1.data = d.data := by
        have hdata := nextFault_data d
        rwa [hf] at hdata
      exact ⟨⟨congrArg List.length hd1, fun p _ => by rw [hd1]⟩, rfl, hmem (by rw [hf])⟩
    · cases hw

/-! ## The copying loop -/

/-- What is sliced of the data and the zeroes after it are one window. -/
theorem piece_eq_window (hat : at_ ≤ data.length) (n : Nat) :
    slice data at_ (min (data.length - at_) n) ++
        List.replicate (n - min (data.length - at_) n) 0 = window (paddedByte data) at_ n := by
  have hlen : (slice data at_ (min (data.length - at_) n)).length = min (data.length - at_) n :=
    length_slice (by omega)
  refine eq_window ?_ fun i hi => ?_
  · rw [List.length_append, hlen, List.length_replicate]
    omega
  · by_cases hin : i < min (data.length - at_) n
    · rw [List.getElem?_append_left (by omega), getElem?_slice, if_pos hin, paddedByte,
        List.getElem?_eq_getElem (by omega)]
      rfl
    · rw [List.getElem?_append_right (by omega), hlen, List.getElem?_replicate,
        if_pos (by omega), paddedByte, List.getElem?_eq_none (by omega)]
      rfl

/-- A place a block begins, before the end of the last block, is inside the data. -/
theorem le_length_of_dvd {bs : Nat} (hbs : 0 < bs) (hdvd : bs ∣ at_)
    (hlt : at_ < divCeil data.length bs * bs) : at_ ≤ data.length := by
  obtain ⟨q, rfl⟩ := hdvd
  rw [Nat.mul_comm bs q] at hlt ⊢
  by_contra hlong
  have hq : divCeil data.length bs ≤ q := (divCeil_le_iff hbs).mpr (by omega)
  exact absurd (Nat.mul_le_mul_right bs hq) (by omega)

/-- The loop, from any place where a block begins, in whatever pieces. -/
theorem writePieces_copied {bs : Nat} (hbs : 0 < bs) (hchunk : bs ∣ WRITE_CHUNK)
    (hstop : bs ∣ stop) (hend : stop ≤ divCeil data.length bs * bs) (fuel : Nat) :
    ∀ at_ devAt d, bs ∣ at_ → stop - at_ < fuel → devAt + (stop - at_) ≤ d.size →
      Copied data at_ devAt (stop - at_) d (Volume.writePieces data stop fuel at_ devAt d) := by
  induction fuel with
  | zero => intro at_ devAt d _ hfuel; omega
  | succ fuel ih =>
    intro at_ devAt d hat hfuel hfit
    rw [Volume.writePieces]
    by_cases hlt : at_ < stop
    · obtain ⟨n, hn⟩ : ∃ n, n = min (stop - at_) WRITE_CHUNK := ⟨_, rfl⟩
      have hpos : 0 < WRITE_CHUNK := by decide
      have hle : at_ ≤ data.length := le_length_of_dvd hbs hat (by omega)
      simp only [if_pos hlt, ← hn]
      rw [act_throwIf_bind_of_not (by omega), piece_eq_window hle]
      have hpiece := @writeAt_copied data (window (paddedByte data) at_ n) d devAt at_
        (by rw [length_window]; omega) fun i hi => by
          rw [length_window] at hi
          rw [getElem?_window, if_pos hi]
      rw [length_window] at hpiece
      have hsum : stop - at_ = n + (stop - (at_ + n)) := by omega
      cases hw : writeAt devAt (window (paddedByte data) at_ n) d with
      | error e d1 =>
        rw [hw] at hpiece
        rw [bind_of_error hw, hsum]
        exact ⟨hpiece.1.mono (Nat.le_add_right _ _), hpiece.2⟩
      | ok u d1 =>
        rw [hw] at hpiece
        obtain ⟨hwrote, hleft, hbytes⟩ := hpiece
        have hdvd : bs ∣ n := by
          rw [hn]
          rcases Nat.le_total (stop - at_) WRITE_CHUNK with h | h
          · rw [Nat.min_eq_left h]
            exact Nat.dvd_sub hstop hat
          · rw [Nat.min_eq_right h]
            exact hchunk
        have hrest := ih (at_ + n) (devAt + n) d1 (Nat.dvd_add hat hdvd) (by omega)
          (by rw [hwrote.size_eq]; omega)
        rw [bind_of_ok hw, hsum]
        cases hr : Volume.writePieces data stop fuel (at_ + n) (devAt + n) d1 with
        | error e d2 =>
          rw [hr] at hrest
          exact ⟨hwrote.trans hrest.1, hrest.2.of_suffix hleft⟩
        | ok u d2 =>
          rw [hr] at hrest
          refine ⟨hwrote.trans hrest.1, hrest.2.1.trans hleft, fun i hi => ?_⟩
          -- a byte of this piece is not written again; any other is one of the rest
          by_cases hin : i < n
          · rw [hrest.1.outside _ (.inl (by omega)), hbytes i hin]
          · have hi' := hrest.2.2 (i - n) (by omega)
            rwa [Nat.add_assoc, Nat.add_assoc, Nat.add_sub_cancel' (by omega)] at hi'
    · rw [if_neg hlt]
      refine ⟨.refl d _ _, List.suffix_rfl, fun i hi => ?_⟩
      omega

end

end Device

namespace Volume

/-! ## The extents of given runs -/

/-- The runs as extents one after the other, from logical block `lblk` on. -/
def extentsFrom : Nat → List (Nat × Nat) → List Extent
  | _, [] => []
  | lblk, (fsb, len) :: runs => ⟨lblk, fsb, len, false⟩ :: extentsFrom (lblk + len) runs

/-- An open volume: the device has all blocks of the filesystem. -/
structure Opened (v : Volume) : Prop where
  sound : v.sb.Sound
  agCount_lt : v.sb.agCount < 2 ^ 32
  fits : v.sb.dataBlocks * v.sb.blockSize ≤ v.dev.size
  size_lt : v.dev.size < 2 ^ 64

/-- A run of blocks of one AG. -/
def InOneAg (sb : Superblock) (r : Nat × Nat) : Prop :=
  ∃ k < sb.agCount, ∃ s len, r.1 = sb.agbToFsb k s ∧ sb.agLen k = .ok len ∧ 1 ≤ r.2 ∧
    s + r.2 ≤ len

/-- Runs as they are given for `n` blocks: each in one AG, no two sharing a block. -/
structure Granted (sb : Superblock) (runs : List (Nat × Nat)) (n : Nat) : Prop where
  total : (runs.map (·.2)).sum = n
  inAg : ∀ r ∈ runs, InOneAg sb r
  apart : runs.Pairwise (Apart Prod.fst fun r => r.1 + r.2)

section
variable {v : Volume} {sb : Superblock} {runs : List (Nat × Nat)} {n lblk : Nat} {e : Extent}

/-- What `store_data` records are the runs' extents, and it writes nothing. -/
theorem recordRuns_eq_ok {ino : Nat} {es : List Extent} {v' : Volume}
    (h : recordRuns ino lblk runs v = .ok es v') :
    es = extentsFrom lblk runs ∧ v'.sb = v.sb ∧ v'.dev = v.dev := by
  induction runs generalizing lblk v v' es with
  | nil =>
    obtain ⟨rfl, rfl⟩ := EStateM.Result.ok.inj h
    exact ⟨rfl, rfl, rfl⟩
  | cons r runs ih =>
    obtain ⟨fsb, len⟩ := r
    obtain ⟨_, v1, hrec, h⟩ := bind_eq_ok.mp h
    obtain ⟨_, _, -, -, rfl⟩ := onAg_ok hrec
    obtain ⟨rest, v2, hrest, h⟩ := bind_eq_ok.mp h
    obtain ⟨rfl, rfl⟩ := EStateM.Result.ok.inj h
    obtain ⟨rfl, hsb, hdev⟩ := ih hrest
    exact ⟨rfl, hsb, hdev⟩

theorem mem_extentsFrom (he : e ∈ extentsFrom lblk runs) :
    (e.block, e.count) ∈ runs ∧ lblk ≤ e.offset ∧ e.stop ≤ lblk + (runs.map (·.2)).sum ∧
      e.unwritten = false := by
  induction runs generalizing lblk with
  | nil => cases he
  | cons r runs ih =>
    obtain ⟨fsb, len⟩ := r
    simp only [List.map_cons, List.sum_cons]
    rcases List.mem_cons.mp he with rfl | he
    · exact ⟨List.mem_cons_self, Nat.le_refl _, by simp only [Extent.stop]; omega, rfl⟩
    · obtain ⟨hmem, hlo, hhi, hun⟩ := ih he
      exact ⟨List.mem_cons_of_mem _ hmem, by omega, by omega, hun⟩

theorem map_extentsFrom (lblk : Nat) (runs : List (Nat × Nat)) :
    (extentsFrom lblk runs).map (fun e => (e.block, e.count)) = runs := by
  induction runs generalizing lblk with
  | nil => rfl
  | cons r runs ih => exact congrArg _ (ih _)

theorem inOrder_extentsFrom (hpos : ∀ r ∈ runs, 1 ≤ r.2) (lblk : Nat) :
    InOrder (extentsFrom lblk runs) := by
  refine ⟨fun e he => hpos _ (mem_extentsFrom he).1, ?_⟩
  induction runs generalizing lblk with
  | nil => exact List.Pairwise.nil
  | cons r runs ih =>
    obtain ⟨fsb, len⟩ := r
    exact List.pairwise_cons.mpr ⟨fun e he => (mem_extentsFrom he).2.1,
      ih (fun r hr => hpos r (List.mem_cons_of_mem _ hr)) _⟩

/-- Every block is in one of them. -/
theorem exists_covers_extentsFrom {x : Nat} (hlo : lblk ≤ x)
    (hhi : x < lblk + (runs.map (·.2)).sum) :
    ∃ e ∈ extentsFrom lblk runs, e.covers x = true := by
  induction runs generalizing lblk with
  | nil => simp at hhi; omega
  | cons r runs ih =>
    obtain ⟨fsb, len⟩ := r
    simp only [List.map_cons, List.sum_cons] at hhi
    by_cases hx : x < lblk + len
    · exact ⟨⟨lblk, fsb, len, false⟩, List.mem_cons_self, Extent.covers_iff.mpr ⟨hlo, hx, rfl⟩⟩
    · obtain ⟨e, he, hc⟩ := ih (not_lt.mp hx) (by omega)
      exact ⟨e, List.mem_cons_of_mem _ he, hc⟩

/-- Extents in order: no block is in two. -/
theorem eq_of_covers {es : List Extent} (h : InOrder es) {e e' : Extent} (he : e ∈ es)
    (he' : e' ∈ es) {x : Nat} (hx : e.covers x = true) (hx' : e'.covers x = true) : e = e' := by
  by_contra hne
  have hapart : es.Pairwise (Apart Extent.offset Extent.stop) := h.apart.imp fun h => Or.inl h
  have := hapart.forall he he' hne
  rw [Extent.covers_iff] at hx hx'
  unfold Apart at this
  omega

theorem find?_of_covers {es : List Extent} (h : InOrder es) (he : e ∈ es) {x : Nat}
    (hx : e.covers x = true) : es.find? (·.covers x) = some e := by
  have hsome : (es.find? fun e => e.covers x).isSome = true := List.find?_isSome.mpr ⟨e, he, hx⟩
  obtain ⟨e', he'⟩ := Option.isSome_iff_exists.mp hsome
  have hx' := List.find?_some he'
  rw [he', eq_of_covers h (List.mem_of_find?_eq_some he') he hx' hx]

/-! ## Where they are -/

/-- A block of a run of one AG: its number, and where it is on the device. -/
theorem InOneAg.block (ho : v.Opened) {r : Nat × Nat} (h : InOneAg v.sb r) :
    ∃ k s, s + r.2 ≤ v.sb.agBlocks ∧ ∀ i < r.2, r.1 + i = k * 2 ^ v.sb.agblkLog + (s + i) ∧
      v.sb.fsbToByte (r.1 + i) = .ok ((k * v.sb.agBlocks + (s + i)) * v.sb.blockSize) ∧
      (k * v.sb.agBlocks + (s + i)) * v.sb.blockSize + v.sb.blockSize ≤ v.dev.size := by
  obtain ⟨k, hk, s, len, hr, hlen, hpos, hfit⟩ := h
  obtain ⟨hag, hdata⟩ := Superblock.agLen_le hlen
  have hs := ho.sound
  have hle := hs.agBlocks_le
  refine ⟨k, s, by omega, fun i hi => ?_⟩
  have hnum : r.1 + i = k * 2 ^ v.sb.agblkLog + (s + i) := by
    rw [hr, hs.agbToFsb_eq (hk.trans ho.agCount_lt) (by omega), Nat.add_assoc]
  have hend : (k * v.sb.agBlocks + (s + i)) * v.sb.blockSize + v.sb.blockSize ≤ v.dev.size :=
    calc (k * v.sb.agBlocks + (s + i)) * v.sb.blockSize + v.sb.blockSize
        = (k * v.sb.agBlocks + (s + i) + 1) * v.sb.blockSize := (Nat.succ_mul _ _).symm
      _ ≤ v.sb.dataBlocks * v.sb.blockSize := Nat.mul_le_mul_right _ (by omega)
      _ ≤ v.dev.size := ho.fits
  have hlt : s + i < 2 ^ v.sb.agblkLog := by omega
  have hsize := ho.size_lt
  refine ⟨hnum, ?_, hend⟩
  unfold Superblock.fsbToByte
  simp only [hnum, Superblock.packed_div hlt, Superblock.packed_mod hlt]
  rw [if_neg (by omega), Nat.shiftLeft_eq, ← hs.blockSize_eq, Nat.mod_eq_of_lt (by omega)]

theorem InOneAg.onDevice (ho : v.Opened) {r : Nat × Nat} (h : InOneAg v.sb r) :
    OnDevice v.dev v.sb r.1 r.2 := by
  obtain ⟨k, s, -, hblock⟩ := h.block ho
  intro i hi
  obtain ⟨-, hat, hfit⟩ := hblock i hi
  exact ⟨_, hat, hfit⟩

/-- Runs that share no block share no byte. -/
theorem InOneAg.apart (ho : v.Opened) {r r' : Nat × Nat} (h : InOneAg v.sb r) (h' : InOneAg v.sb r')
    (hapart : Apart Prod.fst (fun r => r.1 + r.2) r r') :
    byteOf v.sb r.1 + r.2 * v.sb.blockSize ≤ byteOf v.sb r'.1 ∨
      byteOf v.sb r'.1 + r'.2 * v.sb.blockSize ≤ byteOf v.sb r.1 := by
  have hpos : 1 ≤ r.2 := by obtain ⟨_, _, _, _, _, _, hpos, _⟩ := h; exact hpos
  have hpos' : 1 ≤ r'.2 := by obtain ⟨_, _, _, _, _, _, hpos, _⟩ := h'; exact hpos
  obtain ⟨k, s, hin, hblock⟩ := h.block ho
  obtain ⟨k', s', hin', hblock'⟩ := h'.block ho
  have hstart : byteOf v.sb r.1 = (k * v.sb.agBlocks + s) * v.sb.blockSize := by
    have hat := (hblock 0 hpos).2.1
    exact (inside_of_fsbToByte hat).2.symm
  have hstart' : byteOf v.sb r'.1 = (k' * v.sb.agBlocks + s') * v.sb.blockSize := by
    have hat := (hblock' 0 hpos').2.1
    exact (inside_of_fsbToByte hat).2.symm
  -- over all groups the runs do not meet, or a block of both would have one number
  have hlin : k * v.sb.agBlocks + s + r.2 ≤ k' * v.sb.agBlocks + s' ∨
      k' * v.sb.agBlocks + s' + r'.2 ≤ k * v.sb.agBlocks + s := by
    by_contra hmeet
    obtain ⟨i, j, hi, hj, heq⟩ : ∃ i j, i < r.2 ∧ j < r'.2 ∧
        k * v.sb.agBlocks + (s + i) = k' * v.sb.agBlocks + (s' + j) := by
      rcases Nat.le_total (k * v.sb.agBlocks + s) (k' * v.sb.agBlocks + s') with hle | hle
      · exact ⟨k' * v.sb.agBlocks + s' - (k * v.sb.agBlocks + s), 0, by omega, by omega, by omega⟩
      · exact ⟨0, k * v.sb.agBlocks + s - (k' * v.sb.agBlocks + s'), by omega, by omega, by omega⟩
    obtain ⟨rfl, hsame⟩ := Superblock.Addressable.linear_injective (by omega) (by omega) heq
    have hnum := (hblock i hi).1
    have hnum' := (hblock' j hj).1
    rw [← hsame] at hnum'
    simp only [Apart] at hapart
    omega
  rw [hstart, hstart', ← Nat.add_mul, ← Nat.add_mul]
  rcases hlin with hlin | hlin
  · exact Or.inl (Nat.mul_le_mul_right _ hlin)
  · exact Or.inr (Nat.mul_le_mul_right _ hlin)

/-! ## Writing them -/

/-- Only bytes of the extents' blocks have changed. -/
structure WroteOnly (sb : Superblock) (es : List Extent) (d d' : Device) : Prop where
  size_eq : d'.size = d.size
  outside : ∀ p, (∀ e ∈ es, p < byteOf sb e.block ∨
    byteOf sb e.block + e.count * sb.blockSize ≤ p) → d'.data[p]? = d.data[p]?

/-- The extents' blocks hold their parts of the data, and zeroes past its end. -/
def HoldsData (sb : Superblock) (data : Bytes) (es : List Extent) (d : Device) : Prop :=
  ∀ e ∈ es, ∀ i < e.count * sb.blockSize,
    d.data[byteOf sb e.block + i]? = some (paddedByte data (e.offset * sb.blockSize + i))

/-- What writing the data into the extents may end in. -/
def Mapped (data : Bytes) (es : List Extent) (v : Volume) : EStateM.Result Error Volume Unit → Prop
  | .ok _ v' => ∃ d, v' = { v with dev := d } ∧ WroteOnly v.sb es v.dev d ∧
      d.faults <:+ v.dev.faults ∧ HoldsData v.sb data es d
  | .error e v' => (∃ d, v' = { v with dev := d } ∧ WroteOnly v.sb es v.dev d) ∧ v.dev.Fails e

theorem WroteOnly.cons {es : List Extent} {d d' d'' : Device}
    (h : Device.WroteIn d d' (byteOf sb e.block) (e.count * sb.blockSize))
    (h' : WroteOnly sb es d' d'') : WroteOnly sb (e :: es) d d'' where
  size_eq := h'.size_eq.trans h.size_eq
  outside p hp := by
    rw [h'.outside p fun a ha => hp a (List.mem_cons_of_mem _ ha)]
    exact h.outside p (hp e List.mem_cons_self)

theorem WroteOnly.refl (sb : Superblock) (es : List Extent) (d : Device) : WroteOnly sb es d d :=
  ⟨rfl, fun _ _ => rfl⟩

theorem dvd_writeChunk (hs : sb.Sound) : sb.blockSize ∣ WRITE_CHUNK := by
  rw [hs.blockSize_eq, WRITE_CHUNK]
  exact Nat.pow_dvd_pow 2 (hs.blockLog_le.trans (by norm_num))

/-- Whatever part of the data each extent gets, its blocks get that and no other byte changes. -/
theorem writeMapped_mapped {data : Bytes} {es : List Extent} (hs : v.sb.Sound)
    (hsize : v.dev.size < 2 ^ 64) (hpos : ∀ e ∈ es, 0 < e.count)
    (hon : ∀ e ∈ es, OnDevice v.dev v.sb e.block e.count)
    (hdata : ∀ e ∈ es, e.stop ≤ divCeil data.length v.sb.blockSize)
    (hapart : es.Pairwise fun a b =>
      byteOf v.sb a.block + a.count * v.sb.blockSize ≤ byteOf v.sb b.block ∨
        byteOf v.sb b.block + b.count * v.sb.blockSize ≤ byteOf v.sb a.block) :
    Mapped data es v (writeMapped data es v) := by
  induction es generalizing v with
  | nil => exact ⟨v.dev, rfl, .refl _ _ _, List.suffix_rfl, fun e he => by cases he⟩
  | cons e es ih =>
    obtain ⟨hehead, hes⟩ := List.pairwise_cons.mp hapart
    have hecount := hpos e List.mem_cons_self
    have heon := hon e List.mem_cons_self
    obtain ⟨hin, -, -⟩ := byteOf_add_of_onDevice hs hsize heon hecount
    rw [Nat.add_zero] at hin
    have hfit : byteOf v.sb e.block + e.count * v.sb.blockSize ≤ v.dev.size := by
      obtain ⟨-, -, hend⟩ := byteOf_add_of_onDevice hs hsize heon (Nat.sub_lt hecount Nat.one_pos)
      rw [Nat.add_assoc, ← Nat.succ_mul, Nat.succ_eq_add_one, Nat.sub_add_cancel hecount] at hend
      exact hend
    have hstop : min (e.stop * v.sb.blockSize) (divCeil data.length v.sb.blockSize * v.sb.blockSize) =
        e.stop * v.sb.blockSize :=
      Nat.min_eq_left (Nat.mul_le_mul_right _ (hdata e List.mem_cons_self))
    have hcount : e.stop * v.sb.blockSize - e.offset * v.sb.blockSize = e.count * v.sb.blockSize := by
      rw [← Nat.sub_mul, Extent.stop, Nat.add_sub_cancel_left]
    have hcopy := Device.writePieces_copied hs.blockSize_pos (dvd_writeChunk hs)
      (Dvd.intro_left e.stop rfl) (Nat.mul_le_mul_right _ (hdata e List.mem_cons_self))
      (e.count * v.sb.blockSize + 1) (e.offset * v.sb.blockSize) (byteOf v.sb e.block) v.dev
      (Dvd.intro_left e.offset rfl) (by omega) (by omega)
    rw [hcount] at hcopy
    rw [writeMapped, get_bind_apply]
    simp only [hstop, hcount]
    rw [bind_of_ok (liftE_eq_ok.mpr ⟨fsbToByte_of_inside hin, rfl⟩)]
    cases hp : writePieces data (e.stop * v.sb.blockSize) (e.count * v.sb.blockSize + 1)
        (e.offset * v.sb.blockSize) (byteOf v.sb e.block) v.dev with
    | error err d =>
      rw [hp] at hcopy
      have hfail : onDev (writePieces data (e.stop * v.sb.blockSize) (e.count * v.sb.blockSize + 1)
          (e.offset * v.sb.blockSize) (byteOf v.sb e.block)) v = .error err { v with dev := d } :=
        zoom_eq_error.mpr ⟨d, hp, rfl⟩
      rw [bind_of_error hfail]
      exact ⟨⟨d, rfl, .cons hcopy.1 (.refl _ _ _)⟩, hcopy.2⟩
    | ok u d =>
      rw [hp] at hcopy
      obtain ⟨hwrote, hleft, hbytes⟩ := hcopy
      rw [bind_of_ok (onDev_eq_ok.mpr ⟨d, hp, rfl⟩)]
      have hon' : ∀ a ∈ es, OnDevice d v.sb a.block a.count := by
        intro a ha i hi
        rw [hwrote.size_eq]
        exact hon a (List.mem_cons_of_mem _ ha) i hi
      have hrest := @ih { v with dev := d } hs (by rw [hwrote.size_eq]; exact hsize)
        (fun a ha => hpos a (List.mem_cons_of_mem _ ha)) hon'
        (fun a ha => hdata a (List.mem_cons_of_mem _ ha)) hes
      cases hr : writeMapped data es { v with dev := d } with
      | error err v2 =>
        rw [hr] at hrest
        obtain ⟨⟨d2, rfl, honly⟩, hfails⟩ := hrest
        exact ⟨⟨d2, rfl, .cons hwrote honly⟩, hfails.of_suffix hleft⟩
      | ok u v2 =>
        rw [hr] at hrest
        obtain ⟨d2, rfl, honly, hleft2, hholds⟩ := hrest
        have honly : WroteOnly v.sb es d d2 := honly
        refine ⟨d2, rfl, .cons hwrote honly, hleft2.trans hleft, fun a ha i hi => ?_⟩
        rcases List.mem_cons.mp ha with rfl | ha
        · -- what was written first is not in the way of the rest
          rw [honly.outside _ fun b hb => ?_, hbytes i hi]
          rcases hehead b hb with h | h
          · exact Or.inl (by omega)
          · exact Or.inr (by omega)
        · exact hholds a ha i hi

/-! ## What is stored -/

/-- What storing data in given runs comes to, from whatever volume and with whatever failure of the
device. -/
structure Stores (v : Volume) (data : Bytes) (runs : List (Nat × Nat)) : Prop where
  covered : ∀ lblk, (lblk < divCeil data.length v.sb.blockSize ↔
    ∃! e, e ∈ extentsFrom 0 runs ∧ e.covers lblk = true)
  inside : ∀ e ∈ extentsFrom 0 runs, e.stop ≤ divCeil data.length v.sb.blockSize
  /-- Only the runs' blocks are written, nothing is sliced past its end, and at the end all of
  them hold the data and zeroes after it. -/
  mapped : Mapped data (extentsFrom 0 runs) v (writeMapped data (extentsFrom 0 runs) v)
  /-- The writing fails for the device only. -/
  writes : true ∉ v.dev.faults →
    ∃ d, writeMapped data (extentsFrom 0 runs) v = .ok () { v with dev := d }
  padded : ∀ v', writeMapped data (extentsFrom 0 runs) v = .ok () v' →
    ∀ p, data.length ≤ p → p < divCeil data.length v.sb.blockSize * v.sb.blockSize →
      ∃ e ∈ extentsFrom 0 runs, e.covers (p / v.sb.blockSize) = true ∧ v'.mappedByte e p = 0
  read_back : ∀ v', writeMapped data (extentsFrom 0 runs) v = .ok () v' →
    ∀ i : Inode, (i.format = .extents ∨ i.format = .btree) → i.isRealtime = false →
      i.size = data.length → ∀ offset len,
        v'.readInodeRange i (extentsFrom 0 runs) offset len = .ok (slice data offset len)

/-- The byte of a file that a written extent holds. -/
theorem mappedByte_of_holds {data : Bytes} {es : List Extent} {d : Device} (hs : v.sb.Sound)
    (hsize : v.dev.size < 2 ^ 64) (hon : OnDevice v.dev v.sb e.block e.count)
    (hholds : HoldsData v.sb data es d) (he : e ∈ es) {p : Nat}
    (hp : e.covers (p / v.sb.blockSize) = true) :
    ({ v with dev := d } : Volume).mappedByte e p = paddedByte data p := by
  have hbs := hs.blockSize_pos
  obtain ⟨hlo, hhi, -⟩ := Extent.covers_iff.mp hp
  obtain ⟨q, hq⟩ : ∃ q, p / v.sb.blockSize = e.offset + q := ⟨_, (Nat.add_sub_cancel' hlo).symm⟩
  have hqlt : q < e.count := by rw [hq, Extent.stop] at hhi; omega
  obtain ⟨hin, hplace, -⟩ := byteOf_add_of_onDevice hs hsize hon hqlt
  have hpq : e.offset * v.sb.blockSize + (q * v.sb.blockSize + p % v.sb.blockSize) = p := by
    rw [← Nat.add_assoc, ← Nat.add_mul, ← hq, Nat.mul_comm]
    exact Nat.div_add_mod _ _
  have hbound : q * v.sb.blockSize + p % v.sb.blockSize < e.count * v.sb.blockSize :=
    calc q * v.sb.blockSize + p % v.sb.blockSize < (q + 1) * v.sb.blockSize := by
          rw [Nat.succ_mul]
          exact Nat.add_lt_add_left (Nat.mod_lt _ hbs) _
      _ ≤ e.count * v.sb.blockSize := Nat.mul_le_mul_right _ hqlt
  have hbyte := hholds e he _ hbound
  rw [hpq, ← Nat.add_assoc, ← hplace] at hbyte
  have hplaced : placeOf v.sb (e.block + q) = byteOf v.sb (e.block + q) := by
    rw [placeOf, fsbToByte_of_inside hin]
    rfl
  unfold mappedByte deviceByte
  simp only [hq, Nat.add_sub_cancel_left, hplaced, hbyte, Option.getD_some]

/-- Data stored in runs that are given for its blocks is what is read of them. -/
theorem stores_of_granted {data : Bytes} (ho : v.Opened)
    (hruns : Granted v.sb runs (divCeil data.length v.sb.blockSize)) : Stores v data runs := by
  have hs := ho.sound
  have hbs := hs.blockSize_pos
  have hlen : data.length ≤ divCeil data.length v.sb.blockSize * v.sb.blockSize :=
    le_divCeil_mul hbs
  have hpos : ∀ r ∈ runs, 1 ≤ r.2 := fun r hr => by
    obtain ⟨_, _, _, _, _, _, h, _⟩ := hruns.inAg r hr
    exact h
  have hord := inOrder_extentsFrom hpos 0
  have hinside : ∀ e ∈ extentsFrom 0 runs, e.stop ≤ divCeil data.length v.sb.blockSize := by
    intro e he
    have hstop := (mem_extentsFrom he).2.2.1
    rwa [hruns.total, Nat.zero_add] at hstop
  have hon : ∀ e ∈ extentsFrom 0 runs, OnDevice v.dev v.sb e.block e.count := fun e he =>
    (hruns.inAg _ (mem_extentsFrom he).1).onDevice ho
  have hcover : ∀ lblk < divCeil data.length v.sb.blockSize,
      ∃ e ∈ extentsFrom 0 runs, e.covers lblk = true := fun lblk hlt =>
    exists_covers_extentsFrom (Nat.zero_le _) (by rw [hruns.total]; omega)
  have hapart : (extentsFrom 0 runs).Pairwise fun a b =>
      byteOf v.sb a.block + a.count * v.sb.blockSize ≤ byteOf v.sb b.block ∨
        byteOf v.sb b.block + b.count * v.sb.blockSize ≤ byteOf v.sb a.block := by
    have hruns' := hruns.apart
    rw [← map_extentsFrom 0 runs, List.pairwise_map] at hruns'
    exact hruns'.imp_of_mem fun {a b} ha hb hab =>
      (hruns.inAg _ (mem_extentsFrom ha).1).apart ho (hruns.inAg _ (mem_extentsFrom hb).1) hab
  have hmapped := writeMapped_mapped hs ho.size_lt (fun e he => hpos _ (mem_extentsFrom he).1) hon
    hinside hapart
  refine ⟨fun lblk => ⟨fun hlt => ?_, ?_⟩, hinside, hmapped, fun hsound => ?_,
    fun v' hw p hlo hhi => ?_, fun v' hw i hfmt hrt hisize offset len => ?_⟩
  · obtain ⟨e, he, hc⟩ := hcover lblk hlt
    exact ⟨e, ⟨he, hc⟩, fun e' ⟨he', hc'⟩ => eq_of_covers hord he' he hc' hc⟩
  · rintro ⟨e, ⟨he, hc⟩, -⟩
    exact (Extent.covers_iff.mp hc).2.1.trans_le (hinside e he)
  · cases hw : writeMapped data (extentsFrom 0 runs) v with
    | ok u v' =>
      rw [hw] at hmapped
      obtain ⟨d, rfl, -⟩ := hmapped
      exact ⟨d, rfl⟩
    | error e v' =>
      rw [hw] at hmapped
      exact absurd hmapped.2.2 hsound
  · rw [hw] at hmapped
    obtain ⟨d, rfl, -, -, hholds⟩ := hmapped
    obtain ⟨e, he, hc⟩ := hcover (p / v.sb.blockSize)
      (Nat.div_lt_of_lt_mul (by rwa [Nat.mul_comm]))
    refine ⟨e, he, hc, ?_⟩
    rw [mappedByte_of_holds hs ho.size_lt (hon e he) hholds he hc, paddedByte,
      List.getElem?_eq_none hlo]
    rfl
  · rw [hw] at hmapped
    obtain ⟨d, rfl, honly, -, hholds⟩ := hmapped
    have hread : ({ v with dev := d } : Volume).Readable (extentsFrom 0 runs) := by
      intro e he _ j hj
      rw [honly.size_eq]
      exact hon e he j hj
    have hne : i.format ≠ .local_ := by
      rcases hfmt with h | h <;> rw [h] <;> decide
    have hcontents : ({ v with dev := d } : Volume).contents (extentsFrom 0 runs) i.size = data := by
      refine (eq_window hisize.symm fun p hp => ?_).symm
      rw [Nat.zero_add]
      have hplt : p / v.sb.blockSize < divCeil data.length v.sb.blockSize :=
        Nat.div_lt_of_lt_mul (by rw [Nat.mul_comm]; omega)
      obtain ⟨e, he, hc⟩ := hcover _ hplt
      unfold byteOver
      simp only [find?_of_covers hord he hc]
      rw [mappedByte_of_holds hs ho.size_lt (hon e he) hholds he hc, paddedByte,
        List.getElem?_eq_getElem (by omega)]
      rfl
    have hsize : d.size < 2 ^ 64 := honly.size_eq ▸ ho.size_lt
    rw [@readInodeRange_eq { v with dev := d } _ i hs hsize hord hread hne hrt, hcontents]

/-- Where no block is in two runs, the runs share none. -/
theorem apart_of_withinRuns (hpos : ∀ r ∈ runs, 1 ≤ r.2)
    (h : ∀ r ∈ runs, ∀ x, r.1 ≤ x → x < r.1 + r.2 → withinRuns runs x ≤ 1) :
    runs.Pairwise (Apart Prod.fst fun r => r.1 + r.2) := by
  induction runs with
  | nil => exact List.Pairwise.nil
  | cons r runs ih =>
    refine List.pairwise_cons.mpr ⟨fun r' hr' => ?_, ih (fun r hr => hpos r (List.mem_cons_of_mem _ hr))
      fun r hr x hlo hhi => ?_⟩
    · by_contra hmeet
      have hr1 := hpos r List.mem_cons_self
      have hr2 := hpos r' (List.mem_cons_of_mem _ hr')
      simp only [Apart] at hmeet
      have hx := h r List.mem_cons_self (max r.1 r'.1) (by omega) (by omega)
      rw [withinRuns_cons] at hx
      have hin : 0 < within r.1 r.2 (max r.1 r'.1) := within_pos.mpr (by omega)
      have hin' : 0 < withinRuns runs (max r.1 r'.1) :=
        lt_of_lt_of_le (within_pos.mpr (by omega)) (List.single_le_sum (fun _ _ => Nat.zero_le _) _
          (List.mem_map_of_mem hr'))
      omega
    · have hx := h r (List.mem_cons_of_mem _ hr) x hlo hhi
      rw [withinRuns_cons] at hx
      omega

/-- Runs that are taken from the groups are given for their blocks. -/
theorem granted_of_took {ags ags' : Nat → Ag} (hs : sb.Sound) (hcount : sb.agCount < 2 ^ 32)
    (hok : ∀ k < sb.agCount, GroupOk sb k (ags k)) (h : Took sb ags ags' runs n) :
    Granted sb runs n where
  total := h.length
  inAg r hr := by
    obtain ⟨k, hk, s, hat, hpos, -, hfit⟩ := h.placed r hr
    exact ⟨k, hk, s, _, hat, (hok k hk).agLen, hpos, hfit⟩
  apart := by
    refine apart_of_withinRuns (fun r hr => ?_) fun r hr x hlo hhi => ?_
    · obtain ⟨k, hk, s, hat, hpos, -, hfit⟩ := h.placed r hr
      exact hpos
    · obtain ⟨k, hk, s, hat, hpos, -, hfit⟩ := h.placed r hr
      have hlen := groupOk_len hs (hok k hk)
      have hx : x = sb.agbToFsb k (s + (x - r.1)) := by
        rw [hs.agbToFsb_eq (hk.trans hcount) (by omega)]
        rw [hs.agbToFsb_eq (hk.trans hcount) (by omega)] at hat
        omega
      have htook := h.at_ k hk (s + (x - r.1)) (by omega)
      have honce := (hok k hk).space.freeOk.once (s + (x - r.1))
      rw [hx]
      omega

/-- What `alloc_blocks` returns is given for as many blocks as were asked for. -/
theorem granted_of_allocBlocks {ags : Nat → Ag} {pref near : Nat} {v' : Volume} (hs : v.sb.Sound)
    (hcount : v.sb.agCount < 2 ^ 32) (hgroups : v.HasGroups ags)
    (hok : ∀ k < v.sb.agCount, GroupOk v.sb k (ags k))
    (h : allocBlocks pref n near v = .ok runs v') :
    Granted v.sb runs n ∧ v'.sb = v.sb ∧ v'.dev = v.dev := by
  have hpref : pref % v.sb.agCount + v.sb.agCount ≤ 2 ^ 32 := by
    by_contra hover
    unfold allocBlocks at h
    simp only [get_bind_apply] at h
    rw [bind_of_error (liftE_eq_error.mpr
      ⟨by rw [agOrder_eq hs.agCount_pos, if_pos (by omega)], rfl⟩)] at h
    cases h
  obtain ⟨hyes, hno⟩ := @allocBlocks_spec v ags pref near hs hcount hgroups hok hpref n
  rcases Nat.lt_or_ge (∑ k ∈ Finset.range v.sb.agCount, (ags k).spare) n with hlt | hle
  · obtain ⟨_, _, herr, -⟩ := hno hlt
    rw [herr] at h
    cases h
  · obtain ⟨_, _, _, hrun, hsb, hdev, -, htook⟩ := hyes hle
    rw [hrun] at h
    cases h
    exact ⟨granted_of_took hs hcount hok htook, hsb, hdev⟩

/-- The blocks `store_data` asks for. -/
def askedFor (v : Volume) (ino : Nat) (data : Bytes) : EStateM.Result Error Volume (List (Nat × Nat)) :=
  allocBlocks (nearIno v.sb ino).1 (divCeil data.length v.sb.blockSize) (nearIno v.sb ino).2 v

/-- What `store_data` does with data: the runs it is given for it are recorded as extents one after
the other and get the data, and it succeeds just when each of its steps does. -/
structure DataStored (v : Volume) (ino forkSize : Nat) (data : Bytes) : Prop where
  nothing : divCeil data.length v.sb.blockSize = 0 →
    storeData ino forkSize data v = .ok (.extents, [], 0, 0) v
  given : ∀ runs v1, askedFor v ino data = .ok runs v1 →
    Granted v.sb runs (divCeil data.length v.sb.blockSize) ∧
      ∀ es v2, recordRuns ino 0 runs v1 = .ok es v2 →
        es = extentsFrom 0 runs ∧ v2.sb = v.sb ∧ v2.dev = v.dev ∧ Stores v2 data runs
  ok_iff : 0 < divCeil data.length v.sb.blockSize → ∀ out v', storeData ino forkSize data v = .ok out v' ↔
    ∃ runs v1 v2 v3 format fork blocks, askedFor v ino data = .ok runs v1 ∧
      recordRuns ino 0 runs v1 = .ok (extentsFrom 0 runs) v2 ∧
      writeMapped data (extentsFrom 0 runs) v2 = .ok () v3 ∧
      mapFork ino (extentsFrom 0 runs) forkSize v3 = .ok (format, fork, blocks) v' ∧
      out = (format, fork, divCeil data.length v.sb.blockSize + blocks, (extentsFrom 0 runs).length)

/-- Whatever it gives back after a failure, `store_data` fails. -/
theorem storeData_ok_iff {ino forkSize : Nat} {data : Bytes} {out : Format × Bytes × Nat × Nat}
    {v' : Volume} (hn : 0 < divCeil data.length v.sb.blockSize) :
    storeData ino forkSize data v = .ok out v' ↔
      ∃ runs v1 es v2 v3 format fork blocks, askedFor v ino data = .ok runs v1 ∧
        recordRuns ino 0 runs v1 = .ok es v2 ∧ writeMapped data es v2 = .ok () v3 ∧
        mapFork ino es forkSize v3 = .ok (format, fork, blocks) v' ∧
        out = (format, fork, divCeil data.length v.sb.blockSize + blocks, es.length) := by
  unfold storeData askedFor
  simp only [get_bind_apply]
  rw [if_neg (by omega)]
  simp only [bind_eq_ok, recover_eq_ok]
  constructor
  · rintro ⟨runs, v1, htaken, es, v2, hrec, hdone | ⟨_, _, -, _, _, -, hfail⟩⟩
    · obtain ⟨_, v3, hwrite, ⟨format, fork, blocks⟩, v4, hmap, hout⟩ := hdone
      obtain ⟨rfl, rfl⟩ := EStateM.Result.ok.inj hout
      exact ⟨runs, v1, es, v2, v3, format, fork, blocks, htaken, hrec, hwrite, hmap, rfl⟩
    · cases hfail
  · rintro ⟨runs, v1, es, v2, v3, format, fork, blocks, htaken, hrec, hwrite, hmap, rfl⟩
    exact ⟨runs, v1, htaken, es, v2, hrec, Or.inl ⟨_, v3, hwrite, _, v', hmap, rfl⟩⟩

/-- What `store_data` stores is read back, whatever runs its blocks are given in. -/
theorem data_stored {ags : Nat → Ag} (ho : v.Opened) (hgroups : v.HasGroups ags)
    (hok : ∀ k < v.sb.agCount, GroupOk v.sb k (ags k)) (data : Bytes) :
    (∀ ino forkSize, DataStored v ino forkSize data) ∧
      ∀ runs, Granted v.sb runs (divCeil data.length v.sb.blockSize) → Stores v data runs := by
  refine ⟨fun ino forkSize => ⟨fun hn => ?_, fun runs v1 htaken => ?_, fun hn out v' => ?_⟩,
    fun runs hruns => stores_of_granted ho hruns⟩
  · unfold storeData
    simp only [get_bind_apply]
    rw [if_pos hn]
    rfl
  · obtain ⟨hruns, hsb1, hdev1⟩ := granted_of_allocBlocks ho.sound ho.agCount_lt hgroups hok htaken
    refine ⟨hruns, fun es v2 hrec => ?_⟩
    obtain ⟨rfl, hsb, hdev⟩ := recordRuns_eq_ok hrec
    rw [hsb1] at hsb
    rw [hdev1] at hdev
    have ho2 : v2.Opened :=
      ⟨hsb ▸ ho.sound, hsb ▸ ho.agCount_lt, by rw [hsb, hdev]; exact ho.fits, hdev ▸ ho.size_lt⟩
    exact ⟨rfl, hsb, hdev, stores_of_granted ho2 (by rw [hsb]; exact hruns)⟩
  · rw [storeData_ok_iff hn]
    constructor
    · rintro ⟨runs, v1, es, v2, v3, format, fork, blocks, htaken, hrec, hwrite, hmap, rfl⟩
      obtain ⟨rfl, -⟩ := recordRuns_eq_ok hrec
      exact ⟨runs, v1, v2, v3, format, fork, blocks, htaken, hrec, hwrite, hmap, rfl⟩
    · rintro ⟨runs, v1, v2, v3, format, fork, blocks, htaken, hrec, hwrite, hmap, rfl⟩
      exact ⟨runs, v1, _, v2, v3, format, fork, blocks, htaken, hrec, hwrite, hmap, rfl⟩

/-- The pieces of three groups that seven blocks are given in, from AG 1 on. -/
def brokenRuns : List (Nat × Nat) := [(30, 2), (26, 1), (46, 2), (40, 1), (8, 1)]

theorem opened_broken : (brokenVolume 3).Opened where
  sound := Superblock.sound_of_parse parse_three
  agCount_lt := by decide
  fits := by
    change 48 * 512 ≤ (List.replicate 24576 (0 : UInt8)).length
    rw [List.length_replicate]
  size_lt := by
    change (List.replicate 24576 (0 : UInt8)).length < 2 ^ 64
    rw [List.length_replicate]
    decide

set_option maxRecDepth 100000 in
theorem recorded_broken : okWith (fun runs => decide (runs = brokenRuns))
    ((do
      let runs ← allocBlocks 1 7 10
      let _ ← recordRuns 52 0 runs
      return runs : Act Volume (List (Nat × Nat))) (brokenVolume 3)) = true := by
  decide +kernel

/-- Six blocks and a bit in five runs of three groups, the first group's last. -/
theorem data_stored_broken : ∃ v2 d v', storeData 52 336 (List.replicate 3400 9) (brokenVolume 3) =
      .ok (.extents, packExtents (extentsFrom 0 brokenRuns), 7, 5) v' ∧
    writeMapped (List.replicate 3400 9) (extentsFrom 0 brokenRuns) v2 = .ok () { v2 with dev := d } ∧
    Stores v2 (List.replicate 3400 9) brokenRuns := by
  have hlen : divCeil (List.replicate 3400 (9 : UInt8)).length (brokenVolume 3).sb.blockSize = 7 := by
    rw [List.length_replicate]
    decide
  obtain ⟨_, v2, hrun, hruns⟩ := exists_of_okWith recorded_broken
  obtain ⟨runs, v1, htaken, hrun⟩ := bind_eq_ok.mp hrun
  obtain ⟨es, v2', hrec, hout⟩ := bind_eq_ok.mp hrun
  obtain ⟨rfl, rfl⟩ := EStateM.Result.ok.inj hout
  obtain rfl : runs = brokenRuns := of_decide_eq_true hruns
  have htaken : askedFor (brokenVolume 3) 52 (List.replicate 3400 9) = .ok brokenRuns v1 := by
    unfold askedFor
    rw [hlen]
    exact htaken
  obtain ⟨hsteps, -⟩ := data_stored opened_broken (hasGroups_broken 3) (fun _ hk => groupOk_broken hk)
    (List.replicate 3400 9)
  obtain ⟨-, hgiven⟩ := (hsteps 52 336).given _ _ htaken
  obtain ⟨rfl, -, hdev, hstores⟩ := hgiven _ _ hrec
  obtain ⟨d, hwrite⟩ := hstores.writes (by rw [hdev]; exact List.not_mem_nil)
  refine ⟨v2', d, { v2' with dev := d }, ?_, hwrite, hstores⟩
  refine ((hsteps 52 336).ok_iff (by rw [hlen]; decide) _ _).mpr ⟨brokenRuns, v1, v2', _, _, _, 0,
    htaken, hrec, hwrite, ?_, by rw [hlen]; rfl⟩
  rfl

end

end Volume

end FioXfs
