import FioXfs.Alloc.Load
import FioXfs.Alloc.Mappings
import FioXfs.Alloc.Merge
import FioXfs.Lib.Runs
set_option autoImplicit false

/-!
# Reverse mappings as a partial map

What a set of mappings says is a partial function from blocks: who owns a block and,
when an inode does, with which flags and at which offset of its fork.  The records are
only how it is kept: adding a run extends the function by it, removing one takes
exactly it away whatever records it is cut out of, and merging leaves it alone.
-/

namespace FioXfs.Alloc

open FioXfs.Lib FioXfs.Btree Finset

/-! ## The function a list of records stands for -/

/-- What a mapped block is known by. -/
structure Use where
  owner : Nat
  /-- Of an inode's block: the flags. -/
  flags : Option Nat
  /-- Of an inode's block that is not its B+tree's: where it is in the fork. -/
  offset : Option Nat
  deriving DecidableEq

namespace Rmap

/-- What the record says of block `b`. -/
def useAt (r : Rmap) (b : Nat) : Use :=
  { owner := r.owner
    flags := if r.inodeOwned then some r.flags else none
    offset :=
      if r.inodeOwned && !r.isBmbt then some (r.offset % OFF_LIMIT + (b - r.start)) else none }

/-- Whether the record holds block `b`. -/
abbrev Holds (r : Rmap) (b : Nat) : Prop := Covers Rmap.start Rmap.stop r b

/-- The fork offsets of a record stay within their 54 bits. -/
def Fits (r : Rmap) : Prop :=
  r.inodeOwned = true → r.isBmbt = false → r.offset % OFF_LIMIT + r.len ≤ OFF_LIMIT

end Rmap

/-- The partial map a list of records stands for. -/
def usedBy (rs : List Rmap) : Nat → Option Use := valueAt Rmap.start Rmap.stop Rmap.useAt rs

/-- Records of a group of `len` blocks that stand for a partial map. -/
structure PartialMap (len : Nat) (rs : List Rmap) : Prop where
  pos : ∀ r ∈ rs, 0 < r.len
  inside : ∀ r ∈ rs, r.stop ≤ len
  apart : rs.Pairwise (Apart Rmap.start Rmap.stop)
  fits : ∀ r ∈ rs, r.Fits

section
variable {rmap : OrdSet Rmap} {len : Nat} {r x : Rmap}

theorem mem_keys : x ∈ rmap.keys ↔ (x, ()) ∈ rmap.entries := by
  constructor
  · intro h
    obtain ⟨e, he, rfl⟩ := List.mem_map.mp h
    exact he
  · exact fun h => List.mem_map.mpr ⟨(x, ()), h, rfl⟩

theorem mem_keys_insert : x ∈ (rmap.insert r ()).keys ↔ x = r ∨ (x ∈ rmap.keys ∧ x ≠ r) := by
  simp [mem_keys]

theorem mem_keys_erase : x ∈ (rmap.erase r).keys ↔ x ∈ rmap.keys ∧ x ≠ r := by
  simp [mem_keys]

theorem sorted_keys (rmap : OrdSet Rmap) : rmap.keys.Pairwise (· < ·) :=
  List.pairwise_map.mpr rmap.sorted

theorem nodup_keys (rmap : OrdSet Rmap) : rmap.keys.Nodup :=
  (sorted_keys rmap).imp fun h => ne_of_lt h

theorem partialMap_keys (hpos : ∀ r ∈ rmap.keys, 0 < r.len) (hin : ∀ r ∈ rmap.keys, r.stop ≤ len)
    (hfits : ∀ r ∈ rmap.keys, r.Fits)
    (hap : ∀ a ∈ rmap.keys, ∀ b ∈ rmap.keys, a ≠ b → Apart Rmap.start Rmap.stop a b) :
    PartialMap len rmap.keys :=
  ⟨hpos, hin, (nodup_keys rmap).pairwise_of_forall_ne hap, hfits⟩

theorem PartialMap.apart_of_ne {rs : List Rmap} (h : PartialMap len rs) {a b : Rmap} (ha : a ∈ rs)
    (hb : b ∈ rs) (hne : a ≠ b) : Apart Rmap.start Rmap.stop a b :=
  h.apart.forall ha hb hne

theorem usedBy_eq_some {rs : List Rmap} (h : PartialMap len rs) {b : Nat} {u : Use} :
    usedBy rs b = some u ↔ ∃ r ∈ rs, r.Holds b ∧ r.useAt b = u :=
  valueAt_eq_some h.apart

theorem usedBy_eq_none {rs : List Rmap} {b : Nat} :
    usedBy rs b = none ↔ ∀ r ∈ rs, ¬r.Holds b :=
  valueAt_eq_none

/-- A record none of whose blocks is mapped shares none with the others. -/
theorem apart_of_unused {rs : List Rmap} (h : PartialMap len rs) (hr : 0 < r.len)
    (hfree : ∀ b, r.Holds b → usedBy rs b = none) (hx : x ∈ rs) :
    Apart Rmap.start Rmap.stop x r := by
  by_contra hmeet
  have hxpos := h.pos x hx
  unfold Apart Rmap.stop at hmeet
  refine usedBy_eq_none.mp (hfree (max x.start r.start) ⟨?_, ?_⟩) x hx ⟨?_, ?_⟩ <;>
    unfold Rmap.stop at * <;> omega

/-! ## Adding and removing one record -/

/-- A new record of unmapped blocks, even of none, adds just these. -/
theorem usedBy_insert_run (hfree : ∀ b, r.Holds b → usedBy rmap.keys b = none) (b : Nat) :
    usedBy (rmap.insert r ()).keys b =
      if r.Holds b then some (r.useAt b) else usedBy rmap.keys b := by
  rcases rmap.keys_insert r () with h | ⟨l1, l2, h, h'⟩
  · have hr : r ∈ rmap.keys := h ▸ mem_keys_insert.mpr (Or.inl rfl)
    rw [h, if_neg fun hb => usedBy_eq_none.mp (hfree b hb) r hr hb]
  · unfold usedBy at hfree ⊢
    rw [h', h, valueAt_append, valueAt_cons, valueAt_append]
    split
    · rename_i hb
      have := hfree b hb
      rw [h, valueAt_append, Option.or_eq_none_iff] at this
      rw [this.1, Option.none_or]
    · rfl

theorem usedBy_insert (h : PartialMap len rmap.keys) (hpos : 0 < r.len) (hin : r.stop ≤ len)
    (hfits : r.Fits) (hfree : ∀ b, r.Holds b → usedBy rmap.keys b = none) :
    PartialMap len (rmap.insert r ()).keys ∧ ∀ b, usedBy (rmap.insert r ()).keys b =
      if r.Holds b then some (r.useAt b) else usedBy rmap.keys b := by
  have hap := fun x (hx : x ∈ rmap.keys) => apart_of_unused h hpos hfree hx
  have hok : PartialMap len (rmap.insert r ()).keys := by
    refine partialMap_keys ?_ ?_ ?_ ?_
    · intro x hx
      rcases mem_keys_insert.mp hx with rfl | ⟨hx, _⟩
      · exact hpos
      · exact h.pos x hx
    · intro x hx
      rcases mem_keys_insert.mp hx with rfl | ⟨hx, _⟩
      · exact hin
      · exact h.inside x hx
    · intro x hx
      rcases mem_keys_insert.mp hx with rfl | ⟨hx, _⟩
      · exact hfits
      · exact h.fits x hx
    · intro a ha b hb hne
      rcases mem_keys_insert.mp ha with ha' | ⟨ha', _⟩
      · rcases mem_keys_insert.mp hb with hb' | ⟨hb', _⟩
        · exact absurd (ha'.trans hb'.symm) hne
        · exact ha' ▸ (hap b hb').symm
      · rcases mem_keys_insert.mp hb with hb' | ⟨hb', _⟩
        · exact hb' ▸ hap a ha'
        · exact h.apart_of_ne ha' hb' hne
  exact ⟨hok, usedBy_insert_run hfree⟩

theorem usedBy_erase (h : PartialMap len rmap.keys) (hr : r ∈ rmap.keys) :
    PartialMap len (rmap.erase r).keys ∧ ∀ b, usedBy (rmap.erase r).keys b =
      if r.Holds b then none else usedBy rmap.keys b := by
  have hok : PartialMap len (rmap.erase r).keys := by
    refine partialMap_keys ?_ ?_ ?_ ?_
    · exact fun x hx => h.pos x (mem_keys_erase.mp hx).1
    · exact fun x hx => h.inside x (mem_keys_erase.mp hx).1
    · exact fun x hx => h.fits x (mem_keys_erase.mp hx).1
    · exact fun a ha b hb => h.apart_of_ne (mem_keys_erase.mp ha).1 (mem_keys_erase.mp hb).1
  refine ⟨hok, fun b => ?_⟩
  split
  · rename_i hb
    refine usedBy_eq_none.mpr fun x hx => ?_
    obtain ⟨hx, hne⟩ := mem_keys_erase.mp hx
    exact (h.apart_of_ne hr hx hne.symm).not_covers hb
  · rename_i hb
    refine valueAt_congr hok.apart h.apart fun v => ⟨?_, ?_⟩
    · rintro ⟨x, hx, hxb, hv⟩
      exact ⟨x, (mem_keys_erase.mp hx).1, hxb, hv⟩
    · rintro ⟨x, hx, hxb, hv⟩
      refine ⟨x, mem_keys_erase.mpr ⟨hx, ?_⟩, hxb, hv⟩
      rintro rfl
      exact hb hxb

end

/-! ## Removing a run -/

/-- Whether `r` is `owner`'s and holds block `b`, from `start` on. -/
abbrev Rmap.Yields (r : Rmap) (start owner b : Nat) : Prop :=
  r.owner = owner ∧ r.Holds b ∧ start ≤ b

section
variable {len start stop owner : Nat}

theorem useAt_piece {r : Rmap} {s n o b : Nat} (hown : r.owner = owner)
    (hflags : o / OFF_LIMIT = r.offset / OFF_LIMIT)
    (hoff : r.inodeOwned = true → r.isBmbt = false →
      o % OFF_LIMIT + (b - s) = r.offset % OFF_LIMIT + (b - r.start)) :
    (⟨s, owner, o, n⟩ : Rmap).useAt b = r.useAt b := by
  have hi : (⟨s, owner, o, n⟩ : Rmap).inodeOwned = r.inodeOwned :=
    Rmap.inodeOwned_of_owner hown.symm
  have hb : (⟨s, owner, o, n⟩ : Rmap).isBmbt = r.isBmbt := Rmap.isBmbt_of_flags hflags
  unfold Rmap.useAt
  rw [hi, hb]
  simp only [hown, Use.mk.injEq, true_and]
  refine ⟨by simp only [Rmap.flags, hflags], ?_⟩
  cases h1 : r.inodeOwned <;> cases h2 : r.isBmbt <;> simp
  exact hoff h1 h2

/-- The offset of the right piece of a cut record: within the 54 bits it only moves on. -/
theorem shiftOffset_eq {r : Rmap} (h : r.Fits) {k : Nat} (hk : k < r.len) :
    shiftOffset r k / OFF_LIMIT = r.offset / OFF_LIMIT ∧
      (r.inodeOwned = true → r.isBmbt = false →
        shiftOffset r k % OFF_LIMIT = r.offset % OFF_LIMIT + k) := by
  unfold shiftOffset
  split
  · rename_i hc
    simp only [Bool.and_eq_true, Bool.not_eq_true'] at hc
    have hfit := h hc.1 hc.2
    have hL : 0 < OFF_LIMIT := by decide
    have hdiv := Nat.div_add_mod r.offset OFF_LIMIT
    have hmod := Nat.mod_lt r.offset hL
    have heq : r.offset + k = OFF_LIMIT * (r.offset / OFF_LIMIT) + (r.offset % OFF_LIMIT + k) := by
      omega
    refine ⟨?_, fun _ _ => ?_⟩
    · rw [heq, Nat.mul_add_div hL,
        Nat.div_eq_of_lt (show r.offset % OFF_LIMIT + k < OFF_LIMIT by omega), Nat.add_zero]
    · rw [heq, Nat.mul_add_mod,
        Nat.mod_eq_of_lt (show r.offset % OFF_LIMIT + k < OFF_LIMIT by omega)]
  · rename_i hc
    refine ⟨rfl, fun h1 h2 => ?_⟩
    simp [h1, h2] at hc

theorem yields_iff {r : Rmap} {b : Nat} : r.Yields start owner b ↔
    r.owner = owner ∧ r.start ≤ b ∧ b < r.stop ∧ start ≤ b := by
  unfold Rmap.Yields Rmap.Holds Covers
  rw [and_assoc]

theorem sum_yields (r : Rmap) :
    (∑ b ∈ range stop, if r.Yields start owner b then 1 else 0) =
      if r.owner = owner then min r.stop stop - max r.start start else 0 := by
  by_cases hown : r.owner = owner
  · have hf : (range stop).filter (fun b => r.Yields start owner b) =
        Ico (max r.start start) (min r.stop stop) := by
      ext b
      rw [Finset.mem_filter, Finset.mem_range, Finset.mem_Ico, yields_iff]
      omega
    rw [if_pos hown, ← Finset.card_filter, hf, Nat.card_Ico]
  · simp [yields_iff, hown]

/-- One record cut: what `owner` has there is gone, and counted. -/
theorem cutRmap_use {acc : OrdSet Rmap × Nat} {r : Rmap} (h : PartialMap len acc.1.keys)
    (hle : start ≤ stop) (hr : r ∈ acc.1.keys) :
    PartialMap len (cutRmap start stop owner acc r).1.keys ∧
      (∀ b, usedBy (cutRmap start stop owner acc r).1.keys b =
        if r.Yields start owner b ∧ b < stop then none else usedBy acc.1.keys b) ∧
      (cutRmap start stop owner acc r).2 =
        acc.2 + (∑ b ∈ range stop, if r.Yields start owner b then 1 else 0) ∧
      ∀ x ∈ acc.1.keys, x ≠ r → x ∈ (cutRmap start stop owner acc r).1.keys := by
  rw [sum_yields]
  unfold cutRmap
  split
  · rename_i hout
    refine ⟨h, fun b => ?_, ?_, fun x hx _ => hx⟩
    · rw [if_neg]
      rintro ⟨⟨hown, ⟨h1, h2⟩, h3⟩, h4⟩
      rcases hout with hout | hout | hout
      · exact hout hown
      · omega
      · omega
    · split
      · rename_i hown
        have := h.pos r hr
        simp only [hown, ne_eq, not_true, false_or] at hout
        omega
      · rfl
  · rename_i hcut
    obtain ⟨hown, hcut⟩ := not_or.mp hcut
    obtain ⟨hstop, hstart⟩ := not_or.mp hcut
    simp only [ne_eq, not_not, not_le] at hown hstop hstart
    have hlen := h.pos r hr
    have hin := h.inside r hr
    have hfit := h.fits r hr
    have hend : r.stop = r.start + r.len := rfl
    rw [if_pos hown]
    dsimp only
    generalize hS : max r.start start = cutS
    generalize hE : min r.stop stop = cutE
    obtain ⟨h1, hu1⟩ := usedBy_erase h hr
    generalize hs1 : acc.1.erase r = s1 at h1 hu1 ⊢
    have hgone : ∀ b, r.Holds b → usedBy s1.keys b = none := fun b hb => by
      rw [hu1, if_pos hb]
    -- The left piece.
    generalize hs2 : (if r.start < cutS then
      s1.insert ⟨r.start, owner, r.offset, cutS - r.start⟩ () else s1) = s2
    have h2 : PartialMap len s2.keys ∧ ∀ b, usedBy s2.keys b =
        if r.start ≤ b ∧ b < cutS then some (r.useAt b) else usedBy s1.keys b := by
      split at hs2
      · rename_i hlt
        have hpiece : ∀ b, (⟨r.start, owner, r.offset, cutS - r.start⟩ : Rmap).Holds b ↔
            r.start ≤ b ∧ b < cutS := fun b => by
          simp only [Covers, Rmap.stop]
          omega
        have := usedBy_insert h1 (show 0 < (⟨r.start, owner, r.offset, cutS - r.start⟩ : Rmap).len
          by simp only; omega) (by simp only [Rmap.stop] at hin ⊢; omega)
          (fun hi hb => by
            have := hfit ((@Rmap.inodeOwned_of_owner r ⟨_, _, _, _⟩ hown).trans hi) hb
            simp only
            omega)
          fun b hb => hgone b (by rw [hpiece] at hb; exact ⟨hb.1, by omega⟩)
        rw [hs2] at this
        refine ⟨this.1, fun b => ?_⟩
        rw [this.2 b]
        simp only [hpiece]
        rw [useAt_piece hown rfl fun _ _ => rfl]
      · subst hs2
        exact ⟨h1, fun b => by rw [if_neg (by omega)]⟩
    -- The right piece.
    generalize hs3 : (if cutE < r.stop then
      s2.insert ⟨cutE, owner, shiftOffset r (cutE - r.start), r.stop - cutE⟩ () else s2) = s3
    have h3 : PartialMap len s3.keys ∧ ∀ b, usedBy s3.keys b =
        if cutE ≤ b ∧ b < r.stop then some (r.useAt b) else usedBy s2.keys b := by
      split at hs3
      · rename_i hlt
        obtain ⟨hsf, hso⟩ := shiftOffset_eq hfit (show cutE - r.start < r.len by omega)
        have hpiece : ∀ b, (⟨cutE, owner, shiftOffset r (cutE - r.start), r.stop - cutE⟩ :
            Rmap).Holds b ↔ cutE ≤ b ∧ b < r.stop := fun b => by
          simp only [Covers, Rmap.stop]
          omega
        have := usedBy_insert h2.1
          (show 0 < (⟨cutE, owner, shiftOffset r (cutE - r.start), r.stop - cutE⟩ : Rmap).len
            by simp only; omega) (by simp only [Rmap.stop] at hin ⊢; omega)
          (fun hi hb => by
            have hi' := (@Rmap.inodeOwned_of_owner r ⟨_, _, _, _⟩ hown).trans hi
            have hb' := (@Rmap.isBmbt_of_flags r ⟨_, _, _, _⟩ hsf.symm).trans hb
            have := hfit hi' hb'
            simp only [hso hi' hb']
            omega)
          fun b hb => by
            rw [hpiece] at hb
            rw [h2.2, if_neg (by omega)]
            exact hgone b ⟨by omega, hb.2⟩
        rw [hs3] at this
        refine ⟨this.1, fun b => ?_⟩
        rw [this.2 b]
        simp only [hpiece]
        split
        · rename_i hb
          rw [useAt_piece hown hsf fun h1 h2 => by rw [hso h1 h2]; omega]
        · rfl
      · subst hs3
        exact ⟨h2.1, fun b => by rw [if_neg (by omega)]⟩
    refine ⟨h3.1, fun b => ?_, rfl, fun x hx hne => ?_⟩
    · rw [h3.2, h2.2, hu1]
      by_cases hb : r.Holds b
      · have hold : usedBy acc.1.keys b = some (r.useAt b) :=
          (usedBy_eq_some h).mpr ⟨r, hr, hb, rfl⟩
        rw [if_pos hb, hold]
        obtain ⟨hb1, hb2⟩ := hb
        by_cases hy : r.Yields start owner b ∧ b < stop
        · rw [if_pos hy, if_neg (by rw [yields_iff] at hy; omega),
            if_neg (by rw [yields_iff] at hy; omega)]
        · rw [if_neg hy]
          rw [yields_iff] at hy
          split
          · rfl
          · rw [if_pos (by omega)]
      · have hb' : ¬(r.start ≤ b ∧ b < r.stop) := hb
        rw [if_neg (by omega), if_neg (by omega), if_neg hb, if_neg fun hy => hb hy.1.2.1]
    · have hx1 : x ∈ s1.keys := hs1 ▸ mem_keys_erase.mpr ⟨hx, hne⟩
      have hx2 : x ∈ s2.keys := by
        split at hs2
        · exact hs2 ▸ mem_keys.mpr (mem_of_mem_insert (mem_keys.mp hx1))
        · exact hs2 ▸ hx1
      change x ∈ s3.keys
      split at hs3
      · exact hs3 ▸ mem_keys.mpr (mem_of_mem_insert (mem_keys.mp hx2))
      · exact hs3 ▸ hx2

/-- Every hit cut, one after another. -/
theorem foldl_cutRmap_use (hle : start ≤ stop) :
    ∀ {hits : List Rmap} {acc : OrdSet Rmap × Nat}, PartialMap len acc.1.keys → hits.Nodup →
      (∀ r ∈ hits, r ∈ acc.1.keys) →
      PartialMap len (hits.foldl (cutRmap start stop owner) acc).1.keys ∧
        (∀ b, usedBy (hits.foldl (cutRmap start stop owner) acc).1.keys b =
          if (∃ r ∈ hits, r.Yields start owner b) ∧ b < stop then none
          else usedBy acc.1.keys b) ∧
        (hits.foldl (cutRmap start stop owner) acc).2 =
          acc.2 + ∑ b ∈ range stop, if ∃ r ∈ hits, r.Yields start owner b then 1 else 0 := by
  intro hits
  induction hits with
  | nil =>
    intro acc h _ _
    exact ⟨h, fun b => by simp, by simp⟩
  | cons r hits ih =>
    intro acc h hnd hmem
    obtain ⟨hnot, hnd⟩ := List.nodup_cons.mp hnd
    obtain ⟨h1, hu1, hn1, hkeep⟩ :=
      @cutRmap_use _ _ _ owner _ _ h hle (hmem r List.mem_cons_self)
    obtain ⟨h2, hu2, hn2⟩ := ih h1 hnd fun x hx =>
      hkeep x (hmem x (List.mem_cons_of_mem _ hx)) (by rintro rfl; exact hnot hx)
    have hcons : ∀ b, (∃ x ∈ r :: hits, x.Yields start owner b) ↔
        r.Yields start owner b ∨ ∃ x ∈ hits, x.Yields start owner b := fun b =>
      List.exists_mem_cons_iff _ _ _
    rw [List.foldl_cons]
    refine ⟨h2, fun b => ?_, ?_⟩
    · rw [hu2, hu1]
      have hor := (and_congr_left' (hcons b)).trans
        (or_and_right (a := r.Yields start owner b) (c := b < stop))
      by_cases hr : r.Yields start owner b ∧ b < stop
      · rw [if_pos hr, if_pos (hor.mpr (Or.inl hr)), ite_self]
      · by_cases hx : (∃ x ∈ hits, x.Yields start owner b) ∧ b < stop
        · rw [if_pos hx, if_pos (hor.mpr (Or.inr hx))]
        · rw [if_neg hx, if_neg hr, if_neg fun hc => (hor.mp hc).elim hr hx]
    · rw [hn2, hn1, Nat.add_assoc, ← Finset.sum_add_distrib]
      congr 1
      refine Finset.sum_congr rfl fun b _ => ?_
      by_cases hr : r.Yields start owner b
      · -- No other hit holds the block too.
        have hx : ¬∃ x ∈ hits, x.Yields start owner b := by
          rintro ⟨x, hx, hxy⟩
          refine hnot ?_
          have := eq_of_covers h.apart (hmem r List.mem_cons_self)
            (hmem x (List.mem_cons_of_mem _ hx)) hr.2.1 hxy.2.1
          exact this ▸ hx
        rw [if_pos hr, if_neg hx, if_pos ((hcons b).mpr (Or.inl hr))]
      · rw [if_neg hr, Nat.zero_add]
        by_cases hx : ∃ x ∈ hits, x.Yields start owner b
        · rw [if_pos hx, if_pos ((hcons b).mpr (Or.inr hx))]
        · rw [if_neg hx, if_neg fun hc => ((hcons b).mp hc).elim hr hx]

/-- The probe at a block comes before every record from there on. -/
theorem Rmap.probe_le {x : Rmap} : (⟨start, 0, 0, 0⟩ : Rmap) ≤ x ↔ start ≤ x.start := by
  constructor
  · intro h
    by_contra hc
    exact absurd h (not_le.mpr (Rmap.lt_of_start_lt (Nat.lt_of_not_le hc)))
  · intro h
    rcases Nat.lt_or_ge start x.start with hc | hc
    · exact le_of_lt (Rmap.lt_of_start_lt hc)
    · have hst : x.start = start := by omega
      change Rmap.key _ ≤ Rmap.key _
      simp only [Rmap.key, Prod.Lex.toLex_le_toLex, hst, Nat.zero_le, lt_irrefl, true_and,
        and_true, false_or]
      omega

/-- The records that may cover part of a run: those that start inside it, and the one
before them. -/
theorem mem_rmapHits_iff {rmap : OrdSet Rmap} {r : Rmap} :
    r ∈ rmapHits rmap start stop ↔ rmap.lastBelow ⟨start, 0, 0, 0⟩ = some (r, ()) ∨
      r ∈ rmap.keys ∧ start ≤ r.start ∧ r.start < stop := by
  have hback : r ∈ (((rmap.entriesFrom ⟨start, 0, 0, 0⟩).map (·.1)).takeWhile
        fun r => decide (r.start < stop)) ↔ r ∈ rmap.keys ∧ start ≤ r.start ∧ r.start < stop := by
    constructor
    · intro h
      have hlt := List.mem_takeWhile_imp h
      obtain ⟨e, he, rfl⟩ := List.mem_map.mp (List.takeWhile_subset _ h)
      obtain ⟨he, hle⟩ := OrdMap.mem_entriesFrom.mp he
      exact ⟨mem_keys.mpr he, Rmap.probe_le.mp hle, of_decide_eq_true hlt⟩
    · rintro ⟨hr, hge, hlt⟩
      refine mem_takeWhile_of_pairwise ?_ ?_ (by simpa using hlt)
      · refine List.pairwise_map.mpr ((rmap.sorted.filter _).imp fun {a b} hab hlt => ?_)
        simp only [decide_eq_true_eq] at hlt ⊢
        by_contra hc
        exact absurd (Rmap.lt_of_start_lt (by omega : b.1.start < a.1.start)) (lt_asymm hab)
      · exact List.mem_map.mpr ⟨(r, ()),
          OrdMap.mem_entriesFrom.mpr ⟨mem_keys.mp hr, Rmap.probe_le.mpr hge⟩, rfl⟩
  unfold rmapHits
  rw [List.mem_append, hback]
  refine or_congr_left ?_
  simp only [List.mem_map, Option.mem_toList]
  exact ⟨fun ⟨⟨x, ()⟩, hx, hxr⟩ => hxr ▸ hx, fun h => ⟨_, h, rfl⟩⟩

/-- The look-up by the one record before the run and those that start in it misses none
that meets it, because no two records share a block. -/
theorem mem_rmapHits_of_holds {rmap : OrdSet Rmap} (h : PartialMap len rmap.keys) {x : Rmap}
    (hx : x ∈ rmap.keys) {b : Nat} (hb : x.Holds b) (h1 : start ≤ b) (h2 : b < stop) :
    x ∈ rmapHits rmap start stop := by
  obtain ⟨hb1, hb2⟩ := hb
  rw [mem_rmapHits_iff]
  by_cases hs : x.start < start
  · left
    have hxp : x < (⟨start, 0, 0, 0⟩ : Rmap) := Rmap.lt_of_start_lt hs
    cases hl : rmap.lastBelow ⟨start, 0, 0, 0⟩ with
    | none => exact absurd hxp (not_lt.mpr (OrdMap.lastBelow_eq_none hl _ (mem_keys.mp hx)))
    | some y =>
      obtain ⟨hy, hyp, hmax⟩ := OrdMap.lastBelow_eq_some hl
      have hxy : x ≤ y.1 := hmax _ (mem_keys.mp hx) hxp
      have hyk : y.1 ∈ rmap.keys := mem_keys.mpr hy
      have hypos := h.pos _ hyk
      by_cases hne : x = y.1
      · simp [hne]
      · -- The record before starts later, so `x` ends before it.
        exfalso
        have hyx : ¬y.1.start < x.start := fun hc => absurd (Rmap.lt_of_start_lt hc) (not_lt.mpr hxy)
        have hys : y.1.start < start := by
          by_contra hc
          exact absurd hyp (not_lt.mpr (Rmap.probe_le.mpr (Nat.le_of_not_lt hc)))
        rcases h.apart_of_ne hx hyk hne with ha | ha
        · omega
        · unfold Rmap.stop at ha
          omega
  · exact Or.inr ⟨hx, by omega, by omega⟩

end

/-- Who owns a block. -/
def ownerAt (rs : List Rmap) (b : Nat) : Option Nat := (usedBy rs b).map (·.owner)

section
variable {rmap : OrdSet Rmap} {len s n owner : Nat}

theorem ownerAt_eq_some {rs : List Rmap} (h : PartialMap len rs) {b : Nat} :
    ownerAt rs b = some owner ↔ ∃ r ∈ rs, r.Holds b ∧ r.owner = owner := by
  unfold ownerAt
  rw [Option.map_eq_some_iff]
  constructor
  · rintro ⟨u, hu, rfl⟩
    obtain ⟨r, hr, hb, rfl⟩ := (usedBy_eq_some h).mp hu
    exact ⟨r, hr, hb, rfl⟩
  · rintro ⟨r, hr, hb, rfl⟩
    exact ⟨r.useAt b, (usedBy_eq_some h).mpr ⟨r, hr, hb, rfl⟩, rfl⟩

theorem yields_iff_ownerAt (h : PartialMap len rmap.keys) {stop b : Nat} (h1 : s ≤ b)
    (h2 : b < stop) : (∃ r ∈ rmapHits rmap s stop, r.Yields s owner b) ↔
      ownerAt rmap.keys b = some owner := by
  rw [ownerAt_eq_some h]
  constructor
  · rintro ⟨r, hr, hown, hb, _⟩
    exact ⟨r, mem_keys.mpr (mem_rmapHits hr), hb, hown⟩
  · rintro ⟨r, hr, hb, hown⟩
    exact ⟨r, mem_rmapHits_of_holds h hr hb h1 h2, hown, hb, h1⟩

/-- What `rmap_remove` counts is the run's length exactly when `owner` has all of it. -/
theorem sum_ownerAt {rs : List Rmap} :
    (∑ b ∈ range (s + n), if s ≤ b ∧ ownerAt rs b = some owner then 1 else 0) = n ↔
      ∀ b, s ≤ b → b < s + n → ownerAt rs b = some owner := by
  have hcut : (∑ b ∈ range (s + n), if s ≤ b ∧ ownerAt rs b = some owner then 1 else 0) =
      ∑ b ∈ range (s + n), if (s ≤ b ∧ ownerAt rs b = some owner) ∧ b < s + n then 1 else 0 :=
    Finset.sum_congr rfl fun b hb => by
      rw [Finset.mem_range] at hb
      simp only [hb, and_true]
  rw [hcut]
  constructor
  · intro hsum b h1 h2
    have := eq_within_of_sum (le_refl _) (fun b => ?_) hsum b
    · rw [within_eq_one.mpr ⟨h1, h2⟩] at this
      by_contra hne
      rw [if_neg fun hc => hne hc.1.2] at this
      exact absurd this (by norm_num)
    · split
      · rename_i hc
        exact le_of_eq (within_eq_one.mpr ⟨hc.1.1, hc.2⟩).symm
      · exact Nat.zero_le _
  · intro hall
    refine Eq.trans (Finset.sum_congr rfl fun b _ => ?_) (sum_within (le_refl (s + n)))
    unfold within
    by_cases hb : s ≤ b ∧ b < s + n
    · rw [if_pos hb, if_pos ⟨⟨hb.1, hall b hb.1 hb.2⟩, hb.2⟩]
    · rw [if_neg hb, if_neg fun hc => hb ⟨hc.1.1, hc.2⟩]

/-- What `rmap_remove` does: it takes away the blocks of the run that `owner` has, and
succeeds when that is all of them. -/
theorem rmapRemove_eq {sb : Superblock} {ag : Ag} (hrm : sb.hasRmapbt = true)
    (hlen : ag.len < 2 ^ 32) (h : PartialMap ag.len ag.rmap.keys) (hlt : s + n < 2 ^ 32) :
    ∃ rmap' removed, PartialMap ag.len rmap'.keys ∧
      (∀ b, usedBy rmap'.keys b = if s ≤ b ∧ b < s + n ∧ ownerAt ag.rmap.keys b = some owner
        then none else usedBy ag.rmap.keys b) ∧
      (removed = n ↔ ∀ b, s ≤ b → b < s + n → ownerAt ag.rmap.keys b = some owner) ∧
      rmapRemove sb s n owner ag =
        if removed = n then .ok () { ag with rmap := rmap', dirty := true }
        else .error (.corrupt s!"AG {ag.agno}: reverse mappings of {s}+{n} for owner {hex owner} cover {removed} blocks")
          { ag with rmap := rmap' } := by
  obtain ⟨h1, hu, hcount⟩ := @foldl_cutRmap_use ag.len s (s + n) owner (Nat.le_add_right _ _)
    (rmapHits ag.rmap s (s + n)) (ag.rmap, 0) h (nodup_rmapHits _ _ _)
    fun r hr => mem_keys.mpr (mem_rmapHits hr)
  have hsum : (∑ b ∈ range (s + n),
        if ∃ r ∈ rmapHits ag.rmap s (s + n), r.Yields s owner b then 1 else 0) =
      ∑ b ∈ range (s + n), if s ≤ b ∧ ownerAt ag.rmap.keys b = some owner then 1 else 0 := by
    refine Finset.sum_congr rfl fun b hb => ?_
    rw [Finset.mem_range] at hb
    by_cases h1 : s ≤ b
    · simp only [yields_iff_ownerAt h h1 hb, h1, true_and]
    · rw [if_neg fun ⟨_, _, hy⟩ => h1 hy.2.2, if_neg fun hc => h1 hc.1]
  rw [hsum, Nat.zero_add] at hcount
  refine ⟨_, _, h1, fun b => ?_, hcount ▸ sum_ownerAt, ?_⟩
  · rw [hu]
    by_cases hb : s ≤ b ∧ b < s + n
    · have := @yields_iff_ownerAt _ _ _ owner h _ _ hb.1 hb.2
      by_cases ho : ownerAt ag.rmap.keys b = some owner
      · rw [if_pos ⟨this.mpr ho, hb.2⟩, if_pos ⟨hb.1, hb.2, ho⟩]
      · rw [if_neg fun hc => ho (this.mp hc.1), if_neg fun hc => ho hc.2.2]
    · rw [if_neg, if_neg fun hc => hb ⟨hc.1, hc.2.1⟩]
      rintro ⟨⟨r, _, hy⟩, h2⟩
      exact hb ⟨hy.2.2, h2⟩
  · unfold rmapRemove
    simp only [hrm, Bool.not_true, Bool.false_eq_true, if_false]
    have hfit : HeldFit owner (rmapHits ag.rmap s (s + n)) := fun r hr _ =>
      (h.inside r (mem_keys.mpr (mem_rmapHits hr))).trans_lt hlen
    rw [act_throwIf_bind_of_not (by omega)]
    simp only [get_bind_apply]
    rw [bind_of_ok (cutHits_of_fit hfit)]
    split
    · rename_i heq
      rw [act_throwIf_bind_of_not (by simpa using heq)]
      rfl
    · rename_i hne
      rw [act_throwIf_bind_of hne]

end

/-! ## Merging -/

/-- Records in order, none reaching into the next. -/
def Ordered (rs : List Rmap) : Prop := rs.Pairwise fun a b => a.stop ≤ b.start

theorem PartialMap.ordered {len : Nat} {rmap : OrdSet Rmap} (h : PartialMap len rmap.keys) :
    Ordered rmap.keys := by
  refine List.Pairwise.imp_of_mem (fun {a b} ha hb hab => ?_) ((sorted_keys rmap).and h.apart)
  obtain ⟨hlt, hap⟩ := hab
  have hb0 := h.pos b hb
  have hstart : a.start ≤ b.start := by
    by_contra hc
    exact absurd (Rmap.lt_of_start_lt (by omega : b.start < a.start)) (lt_asymm hlt)
  rcases hap with hap | hap
  · exact hap
  · unfold Rmap.stop at hap
    omega

/-- A record and the one it merges with say the same of every block. -/
theorem useAt_of_joins {last r : Rmap} (h : last.joins r = true) {b : Nat}
    (hb : r.start ≤ b) : last.useAt b = r.useAt b := by
  obtain ⟨h1, h2, _, h4⟩ := Rmap.joins_iff.mp h
  have hi := Rmap.inodeOwned_of_owner h1
  unfold Rmap.useAt
  rw [hi, h1]
  simp only [Use.mk.injEq, true_and]
  cases hio : r.inodeOwned with
  | false => simp
  | true =>
    obtain ⟨hf, ho⟩ := h4 (hi.trans hio)
    rw [Rmap.isBmbt_of_flags hf]
    refine ⟨by rw [hf], ?_⟩
    cases hbm : r.isBmbt with
    | true => simp
    | false =>
      have := ho ((Rmap.isBmbt_of_flags hf).trans hbm)
      simp only [Bool.and_self, Bool.not_false, if_true, Option.some.injEq]
      unfold Rmap.stop at h2
      omega

theorem usedBy_extend {last r : Rmap} (h : last.joins r = true) (rs : List Rmap) (b : Nat) :
    usedBy (last.extend r :: rs) b = usedBy (last :: r :: rs) b := by
  have hstop := (Rmap.joins_iff.mp h).2.1
  have hext : (last.extend r).Holds b ↔ last.Holds b ∨ r.Holds b := by
    simp only [Covers, Rmap.extend, Rmap.stop] at hstop ⊢
    omega
  unfold usedBy
  rw [valueAt_cons, valueAt_cons, valueAt_cons]
  by_cases h1 : last.Holds b
  · rw [if_pos (hext.mpr (Or.inl h1)), if_pos h1]
    rfl
  · rw [if_neg h1]
    by_cases h2 : r.Holds b
    · rw [if_pos (hext.mpr (Or.inr h2)), if_pos h2, ← useAt_of_joins h h2.1]
      rfl
    · rw [if_neg fun hc => (hext.mp hc).elim h1 h2, if_neg h2]

theorem usedBy_mergeFrom : ∀ {rs : List Rmap} {last : Rmap} (b : Nat),
    usedBy (mergeFrom last rs) b = usedBy (last :: rs) b := by
  intro rs
  induction rs with
  | nil => intro last b; rfl
  | cons r rs ih =>
    intro last b
    rw [mergeFrom]
    split
    · rename_i h
      rw [ih, usedBy_extend h]
    · unfold usedBy at ih ⊢
      rw [valueAt_cons, ih, valueAt_cons last]

/-- The first record of a merged list is the first of the list, as far as it goes. -/
theorem head_mergeFrom : ∀ {rs : List Rmap} {last : Rmap},
    ∃ l tl, last.len ≤ l ∧ mergeFrom last rs = { last with len := l } :: tl := by
  intro rs
  induction rs with
  | nil => intro last; exact ⟨last.len, [], le_refl _, rfl⟩
  | cons r rs ih =>
    intro last
    rw [mergeFrom]
    split
    · obtain ⟨l, tl, hl, htl⟩ := @ih (last.extend r)
      exact ⟨l, tl, (Nat.le_add_right _ _).trans hl, htl⟩
    · exact ⟨last.len, mergeFrom r rs, le_refl _, rfl⟩

/-- What a record did not continue, it does not continue grown. -/
theorem joins_grown {a r : Rmap} {l : Nat} (hl : r.len ≤ l)
    (h : a.joins r = false) : a.joins { r with len := l } = false := by
  by_contra hc
  rw [Bool.not_eq_false, Rmap.joins_iff] at hc
  obtain ⟨h1, h2, h3, h4⟩ := hc
  simp only at h1 h2 h3 h4
  rw [Rmap.joins_iff.mpr ⟨h1, h2, by omega, h4⟩] at h
  exact absurd h (by simp)

/-- No two neighbours of a merged list would merge again. -/
theorem isChain_mergeFrom : ∀ {rs : List Rmap} {last : Rmap},
    (mergeFrom last rs).IsChain fun a b => a.joins b = false := by
  intro rs
  induction rs with
  | nil => intro last; exact List.isChain_singleton _
  | cons r rs ih =>
    intro last
    rw [mergeFrom]
    split
    · exact ih
    · rename_i h
      have hr := @ih r
      obtain ⟨l, tl, hl, heq⟩ := @head_mergeFrom rs r
      rw [heq] at hr ⊢
      exact List.isChain_cons_cons.mpr ⟨joins_grown hl (by simpa using h), hr⟩

/-- A record of the group that stands for its part of a partial map. -/
def Sane (len : Nat) (r : Rmap) : Prop := 0 < r.len ∧ r.stop ≤ len ∧ r.Fits

theorem sane_extend {len : Nat} {last r : Rmap} (h : last.joins r = true)
    (hl : Sane len last) (hr : Sane len r) : Sane len (last.extend r) := by
  obtain ⟨h1, h2, _, h4⟩ := Rmap.joins_iff.mp h
  obtain ⟨hl1, _, _⟩ := hl
  obtain ⟨_, hr2, hr3⟩ := hr
  refine ⟨Nat.add_pos_left hl1 _, ?_, fun hi hb => ?_⟩
  · simp only [Rmap.extend, Rmap.stop] at h2 hr2 ⊢
    omega
  · obtain ⟨hf, ho⟩ := h4 hi
    have hfit := hr3 ((Rmap.inodeOwned_of_owner h1).symm.trans hi)
      ((Rmap.isBmbt_of_flags hf).symm.trans hb)
    have := ho hb
    simp only [Rmap.extend]
    omega

theorem sane_mergeFrom {len : Nat} : ∀ {rs : List Rmap} {last : Rmap}, Ordered (last :: rs) →
    (∀ r ∈ last :: rs, Sane len r) →
    Ordered (mergeFrom last rs) ∧ ∀ r ∈ mergeFrom last rs, Sane len r := by
  intro rs
  induction rs with
  | nil => intro last ho hs; exact ⟨ho, hs⟩
  | cons r rs ih =>
    intro last ho hs
    obtain ⟨hhead, hor⟩ := List.pairwise_cons.mp ho
    have hlast := hs last List.mem_cons_self
    have hr := hs r (List.mem_cons_of_mem _ List.mem_cons_self)
    rw [mergeFrom]
    split
    · rename_i h
      refine ih (List.pairwise_cons.mpr ⟨fun x hx => ?_, hor.of_cons⟩) fun x hx => ?_
      · have h1 := (Rmap.joins_iff.mp h).2.1
        have h2 := List.rel_of_pairwise_cons hor hx
        simp only [Rmap.extend, Rmap.stop] at h1 h2 ⊢
        omega
      · rcases List.mem_cons.mp hx with rfl | hx
        · exact sane_extend h hlast hr
        · exact hs x (List.mem_cons_of_mem _ (List.mem_cons_of_mem _ hx))
    · obtain ⟨ho', hs'⟩ := @ih r hor fun x hx => hs x (List.mem_cons_of_mem _ hx)
      refine ⟨List.pairwise_cons.mpr ⟨fun x hx => ?_, ho'⟩, fun x hx => ?_⟩
      · obtain ⟨l, tl, _, heq⟩ := @head_mergeFrom rs r
        have hstart : r.start ≤ x.start := by
          rw [heq] at hx ho'
          rcases List.mem_cons.mp hx with rfl | hx
          · exact le_refl _
          · have := List.rel_of_pairwise_cons ho' hx
            simp only [Rmap.stop] at this
            omega
        exact (hhead r List.mem_cons_self).trans hstart
      · rcases List.mem_cons.mp hx with rfl | hx
        · exact hlast
        · exact hs' x hx

section
variable {len : Nat} {rmap : OrdSet Rmap}

theorem usedBy_merged (rmap : OrdSet Rmap) (b : Nat) :
    usedBy (merged rmap) b = usedBy rmap.keys b := by
  unfold merged
  cases rmap.keys with
  | nil => rfl
  | cons r rs => exact usedBy_mergeFrom b

theorem isChain_merged (rmap : OrdSet Rmap) :
    (merged rmap).IsChain fun a b => a.joins b = false := by
  unfold merged
  cases rmap.keys with
  | nil => exact List.isChain_nil
  | cons r rs => exact isChain_mergeFrom

theorem sane_merged (h : PartialMap len rmap.keys) :
    Ordered (merged rmap) ∧ ∀ r ∈ merged rmap, Sane len r := by
  have ho := h.ordered
  have hs : ∀ r ∈ rmap.keys, Sane len r := fun r hr => ⟨h.pos r hr, h.inside r hr, h.fits r hr⟩
  unfold merged
  cases hk : rmap.keys with
  | nil => exact ⟨List.Pairwise.nil, by simp [mergeList]⟩
  | cons r rs =>
    rw [hk] at ho hs
    exact sane_mergeFrom ho hs

/-- No two neighbours of the merged records would merge again. -/
theorem mergesWith_merged (hlen : len < 2 ^ 32) (h : PartialMap len rmap.keys) :
    (merged rmap).IsChain fun a b => a.mergesWith b = .ok false := by
  refine (isChain_merged rmap).imp_of_mem_imp fun a b ha _ hab => ?_
  have hstop := ((sane_merged h).2 a ha).2.1.trans_lt hlen
  rw [mergesWith_eq, if_neg fun hc => absurd hstop (not_lt.mpr hc.2), hab]

theorem sorted_merged (h : PartialMap len rmap.keys) :
    (merged rmap).Pairwise (· < ·) := by
  obtain ⟨ho, hs⟩ := sane_merged h
  refine ho.imp_of_mem fun {a b} ha _ hab => Rmap.lt_of_start_lt ?_
  have := (hs a ha).1
  unfold Rmap.stop at hab
  omega

end

/-! ## The operations on the partial map -/

/-- Adding a run of unmapped blocks extends the map by it; removing a run succeeds when
its owner has all of it, and takes just it away; merging succeeds and changes nothing, and
leaves the records sorted and none to be merged with the next. -/
theorem mappings_are_partial_map {sb : Superblock} {ag : Ag} (hrm : sb.hasRmapbt = true)
    (hlen : ag.len < 2 ^ 32) (h : PartialMap ag.len ag.rmap.keys) :
    (∀ start len owner offset, start + len ≤ ag.len → (⟨start, owner, offset, len⟩ : Rmap).Fits →
      (∀ b, start ≤ b → b < start + len → usedBy ag.rmap.keys b = none) →
      ∃ ag', rmapAdd sb start len owner offset ag = .ok () ag' ∧
        (0 < len → PartialMap ag.len ag'.rmap.keys) ∧
        ∀ b, usedBy ag'.rmap.keys b = if start ≤ b ∧ b < start + len
          then some ((⟨start, owner, offset, len⟩ : Rmap).useAt b) else usedBy ag.rmap.keys b) ∧
    (∀ start len owner, start < 2 ^ 32 → len < 2 ^ 32 →
      ((∃ ag', rmapRemove sb start len owner ag = .ok () ag') ↔
        ∀ b, start ≤ b → b < start + len → ownerAt ag.rmap.keys b = some owner) ∧
      ∀ ag', rmapRemove sb start len owner ag = .ok () ag' →
        PartialMap ag.len ag'.rmap.keys ∧ ∀ b, usedBy ag'.rmap.keys b =
          if start ≤ b ∧ b < start + len then none else usedBy ag.rmap.keys b) ∧
    ∃ rs, mergedRmap ag.rmap = .ok rs ∧ (∀ b, usedBy rs b = usedBy ag.rmap.keys b) ∧
      rs.Pairwise (· < ·) ∧ rs.IsChain fun a b => a.mergesWith b = .ok false := by
  refine ⟨?_, ?_, merged ag.rmap, mergedRmap_eq_ok.mpr ⟨?_, rfl⟩, usedBy_merged ag.rmap,
    sorted_merged h, mergesWith_merged hlen h⟩
  · intro start len owner offset hin hfits hfree
    have hfree' : ∀ b, (⟨start, owner, offset, len⟩ : Rmap).Holds b →
        usedBy ag.rmap.keys b = none := fun b hb => hfree b hb.1 hb.2
    unfold rmapAdd
    rw [if_pos hrm]
    exact ⟨_, rfl, fun hpos => (usedBy_insert h hpos (by exact hin) hfits hfree').1,
      usedBy_insert_run hfree'⟩
  · intro start len owner hs hn
    rcases Nat.lt_or_ge (start + len) (2 ^ 32) with hlt | hge
    · obtain ⟨rmap', removed, hok, hu, hiff, heq⟩ :=
        @rmapRemove_eq start len owner sb ag hrm hlen h hlt
      rw [heq, ← hiff]
      by_cases hr : removed = len
      · rw [if_pos hr]
        refine ⟨⟨fun _ => hr, fun _ => ⟨_, rfl⟩⟩, fun ag' hag => ?_⟩
        obtain rfl := (EStateM.Result.ok.inj hag).2
        refine ⟨hok, fun b => ?_⟩
        rw [hu]
        have hall := hiff.mp hr
        by_cases hb : start ≤ b ∧ b < start + len
        · rw [if_pos hb, if_pos ⟨hb.1, hb.2, hall b hb.1 hb.2⟩]
        · rw [if_neg hb, if_neg fun hc => hb ⟨hc.1, hc.2.1⟩]
      · rw [if_neg hr]
        refine ⟨⟨fun hc => ?_, fun hc => absurd hc hr⟩, fun _ hc => ?_⟩
        · obtain ⟨_, hc⟩ := hc
          cases hc
        · cases hc
    · -- The sum of the two arguments overflows: no group reaches that far.
      have hpanic : rmapRemove sb start len owner ag =
          .error (.panic "attempt to add with overflow") ag := by
        unfold rmapRemove
        simp only [hrm, Bool.not_true, Bool.false_eq_true, if_false]
        exact act_throwIf_bind_of hge
      rw [hpanic]
      refine ⟨⟨fun hc => ?_, fun hc => ?_⟩, fun _ hc => ?_⟩
      · obtain ⟨_, hc⟩ := hc
        cases hc
      · obtain ⟨r, hr, hb, _⟩ := (ownerAt_eq_some h).mp (hc (start + len - 1) (by omega) (by omega))
        have := h.inside r hr
        have := hb.2
        omega
      · cases hc
  · exact endsFit_of_forall fun r hr => (h.inside r hr).trans_lt hlen

theorem partialMap_fresh : PartialMap 16 (freshAg 16 true).rmap.keys := by
  refine partialMap_keys (by decide) (by decide) ?_ (by decide)
  intro r hr hi
  simp only [show (freshAg 16 true).rmap.keys = freshRmap from rfl, freshRmap, List.mem_cons,
    List.not_mem_nil, or_false] at hr
  rcases hr with rfl | rfl | rfl <;> exact absurd hi (by decide)

/-- Giving up the middle one of three blocks. -/
theorem mappings_are_partial_map_fresh :
    ∃ ag', rmapRemove (freshSb 16 true) 5 1 OWN_AG (freshAg 16 true) = .ok () ag' ∧
      usedBy ag'.rmap.keys 5 = none ∧ ownerAt ag'.rmap.keys 6 = some OWN_AG := by
  obtain ⟨-, hremove, -⟩ :=
    @mappings_are_partial_map (freshSb 16 true) (freshAg 16 true) (by decide) (by decide)
      partialMap_fresh
  obtain ⟨hiff, hres⟩ := hremove 5 1 OWN_AG (by decide) (by decide)
  obtain ⟨ag', hok⟩ := hiff.mpr fun b h1 h2 => by
    obtain rfl : b = 5 := by omega
    decide
  refine ⟨ag', hok, by rw [(hres ag' hok).2]; rfl, ?_⟩
  rw [ownerAt, (hres ag' hok).2]
  decide

end FioXfs.Alloc
