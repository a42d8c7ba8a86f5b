import FioXfs.DirWrite.ShortForm
import FioXfs.Geometry
import FioXfs.Write
set_option autoImplicit false

/-!
# A directory laid out is listed again

In each of its forms a directory that was laid out lists as it was given: the short form in the
inode, a single block, or data blocks with their index kept beyond where listing looks.
-/

namespace FioXfs.DirWrite

open FioXfs.Lib FioXfs.Dir

/-! ## Names -/

/-- A name that an entry can hold.  Its inode number does not begin as free space does. -/
structure DirEnt.Fits (e : DirEnt) : Prop where
  name_pos : 0 < e.name.length
  name_le : e.name.length ≤ 255
  ino_lt : e.ino < 2 ^ 56
  ftype_lt : e.ftype < 2 ^ 8

/-- The entry as it is listed. -/
def DirEnt.raw (e : DirEnt) : RawEntry := ⟨e.name, e.ino, .fromFtype e.ftype⟩

theorem ftypeAt_eq {sb : Superblock} (h : sb.hasFtype = true) (buf : Bytes) (o : Nat) :
    ftypeAt sb buf o = .fromFtype (getBe 1 buf o) := by
  rw [ftypeAt, if_pos h]

/-! ## The short form -/

section
variable {sb : Superblock} {names : List DirEnt} {ino parent isz forkSize : Nat}

/-- Entries that are written one after another are read one after another, whatever comes before
and after them. -/
theorem shortEntries_shortBody (hft : sb.hasFtype = true) : ∀ {names : List DirEnt} (pre post : Bytes)
    (offset : Nat), (∀ e ∈ names, e.Fits ∧ e.ino < 256 ^ isz) →
      shortEntries sb isz (pre ++ (shortBody isz offset names ++ post)) names.length pre.length =
        .ok (names.map DirEnt.raw) := by
  intro names
  induction names with
  | nil => intro pre post offset _; rfl
  | cons e es ih =>
    intro pre post offset h
    obtain ⟨he, hino⟩ := h e List.mem_cons_self
    have hlen := he.name_le
    have hpos := he.name_pos
    have hone : ftypeLen sb = 1 := by rw [ftypeLen, if_pos hft]
    -- the record, and what comes after it
    have hbuf : pre ++ (shortBody isz offset (e :: es) ++ post) =
        pre ++ (toBe 1 e.name.length ++ (toBe 2 offset ++ (e.name ++ (toBe 1 e.ftype ++
          (toBe isz e.ino ++ (shortBody isz (offset + entsize e.name.length) es ++ post)))))) := by
      simp only [shortBody, List.append_assoc]
    have hlong : pre.length + (1 + 2 + e.name.length + 1 + isz) ≤
        (pre ++ (shortBody isz offset (e :: es) ++ post)).length := by
      rw [hbuf]
      simp only [List.length_append, length_toBe]
      omega
    have hname : getBe 1 (pre ++ (shortBody isz offset (e :: es) ++ post)) pre.length = e.name.length := by
      rw [hbuf]
      exact getBe_field _ _ (by omega) rfl
    have hbytes : slice (pre ++ (shortBody isz offset (e :: es) ++ post)) (pre.length + 3)
        e.name.length = e.name := by
      have hat := @slice_field _ e.name (pre ++ (toBe 1 e.name.length ++ toBe 2 offset)) (toBe 1 e.ftype ++
        (toBe isz e.ino ++ (shortBody isz (offset + entsize e.name.length) es ++ post)))
        (pre.length + 3) (by simp)
      rw [hbuf]
      simpa only [List.append_assoc] using hat
    have htype : getBe 1 (pre ++ (shortBody isz offset (e :: es) ++ post))
        (pre.length + 3 + e.name.length) = e.ftype := by
      have hat := @getBe_field 1 e.ftype (pre ++ (toBe 1 e.name.length ++ (toBe 2 offset ++ e.name)))
        (toBe isz e.ino ++ (shortBody isz (offset + entsize e.name.length) es ++ post)) he.ftype_lt
        (pre.length + 3 + e.name.length) (by simp; omega)
      rw [hbuf]
      simpa only [List.append_assoc] using hat
    have hnum : getBe isz (pre ++ (shortBody isz offset (e :: es) ++ post))
        (pre.length + 3 + e.name.length + 1) = e.ino := by
      have hat := @getBe_field isz e.ino (pre ++ (toBe 1 e.name.length ++ (toBe 2 offset ++ (e.name ++
        toBe 1 e.ftype)))) (shortBody isz (offset + entsize e.name.length) es ++ post) hino
        (pre.length + 3 + e.name.length + 1) (by simp; omega)
      rw [hbuf]
      simpa only [List.append_assoc] using hat
    have hnext : (pre ++ (toBe 1 e.name.length ++ toBe 2 offset ++ e.name ++ toBe 1 e.ftype ++
        toBe isz e.ino)).length = pre.length + 3 + e.name.length + 1 + isz := by
      simp only [List.length_append, length_toBe]
      omega
    have hrest := ih (pre ++ (toBe 1 e.name.length ++ toBe 2 offset ++ e.name ++ toBe 1 e.ftype ++
      toBe isz e.ino)) post (offset + entsize e.name.length) fun x hx => h x (List.mem_cons_of_mem _ hx)
    rw [hnext] at hrest
    have hsame : pre ++ (toBe 1 e.name.length ++ toBe 2 offset ++ e.name ++ toBe 1 e.ftype ++
        toBe isz e.ino) ++ (shortBody isz (offset + entsize e.name.length) es ++ post) =
        pre ++ (shortBody isz offset (e :: es) ++ post) := by
      simp only [shortBody, List.append_assoc]
    rw [hsame] at hrest
    generalize pre ++ (shortBody isz offset (e :: es) ++ post) = buf at *
    rw [List.length_cons]
    unfold shortEntries
    rw [except_throwIf_bind_of_not (by omega)]
    simp only [hname, hone]
    rw [except_throwIf_bind_of_not (by omega)]
    unfold inoAt
    rw [except_throwIf_bind_of_not (by omega)]
    rw [show (pure (getBe isz buf (pre.length + 3 + e.name.length + 1)) : Result Nat) =
      .ok (getBe isz buf (pre.length + 3 + e.name.length + 1)) from rfl, except_ok_bind, hrest,
      except_ok_bind, hbytes, hnum, ftypeAt_eq hft, htype]
    rfl

/-- The inode numbers that need eight bytes get them, and are counted in the byte for it. -/
theorem shortIsz_wide (hparent : parent < 2 ^ 56) (hnames : ∀ e ∈ names, e.Fits)
    (hsize : shortSize parent names ≤ 2048) :
    parent < 256 ^ shortIsz parent names ∧ (∀ e ∈ names, e.ino < 256 ^ shortIsz parent names) ∧
      i8count parent names < 256 ∧
      (shortIsz parent names = if 0 < i8count parent names then 8 else 4) := by
  have hcount : i8count parent names ≤ names.length + 1 := by
    have hfilter := List.length_filter_le (fun e : DirEnt => decide (MAX_SHORT_INUM < e.ino)) names
    unfold i8count
    split <;> omega
  have hsum : (names.map fun e => 1 + 2 + e.name.length + 1 + shortIsz parent names).sum +
      (2 + shortIsz parent names) ≤ 2048 := by
    unfold shortSize at hsize
    simp only at hsize
    omega
  have hfew : names.length * (4 + shortIsz parent names) ≤
      (names.map fun e => 1 + 2 + e.name.length + 1 + shortIsz parent names).sum := by
    clear hsum hsize hcount hnames hparent
    generalize shortIsz parent names = k
    induction names with
    | nil => simp
    | cons e es ih =>
      rw [List.length_cons, Nat.succ_mul, List.map_cons, List.sum_cons]
      omega
  refine ⟨?_, fun e he => ?_, ?_, rfl⟩
  · unfold shortIsz
    split
    · omega
    · rename_i hnone
      unfold i8count MAX_SHORT_INUM at hnone
      split at hnone <;> omega
  · have hino := (hnames e he).ino_lt
    unfold shortIsz
    split
    · omega
    · rename_i hnone
      have hempty : (names.filter fun e => decide (MAX_SHORT_INUM < e.ino)) = [] := by
        refine List.eq_nil_of_length_eq_zero ?_
        unfold i8count at hnone
        omega
      have hsmall : ¬MAX_SHORT_INUM < e.ino := fun hbig =>
        List.filter_eq_nil_iff.mp hempty e he (decide_eq_true hbig)
      unfold MAX_SHORT_INUM at hsmall
      omega
  · by_cases h0 : 0 < i8count parent names
    · have hisz : shortIsz parent names = 8 := if_pos h0
      rw [hisz] at hfew hsum
      omega
    · omega

/-- The short form is listed as it was given. -/
theorem parseShortform_eq (hft : sb.hasFtype = true) (hparent : parent < 2 ^ 56)
    (hnames : ∀ e ∈ names, e.Fits) (hfork : forkSize ≤ 2048) {bytes : Bytes}
    (h : shortform parent names forkSize = some bytes) :
    parseShortform sb bytes bytes.length = .ok (parent, names.map DirEnt.raw) := by
  obtain ⟨⟨hlen, hsize⟩, rfl⟩ := shortform_eq_some h
  obtain ⟨hwide, hwides, hcount, hisz⟩ := shortIsz_wide hparent hnames (hsize.trans hfork)
  have hentries := @shortEntries_shortBody sb (shortIsz parent names) hft names (toBe 1 names.length ++
    (toBe 1 (i8count parent names) ++ toBe (shortIsz parent names) parent)) []
    (HDR + entsize 1 + entsize 2) fun e he => ⟨hnames e he, hwides e he⟩
  have h0 : getBe 1 (toBe 1 names.length ++ (toBe 1 (i8count parent names) ++
      (toBe (shortIsz parent names) parent ++ shortBody (shortIsz parent names)
        (HDR + entsize 1 + entsize 2) names))) 0 = names.length :=
    getBe_toBe_append _ (by omega)
  have h1 := @getBe_field 1 (i8count parent names) (toBe 1 names.length)
    (toBe (shortIsz parent names) parent ++ shortBody (shortIsz parent names)
      (HDR + entsize 1 + entsize 2) names) hcount 1 (length_toBe _ _)
  have h2 := @getBe_field (shortIsz parent names) parent (toBe 1 names.length ++
    toBe 1 (i8count parent names)) (shortBody (shortIsz parent names) (HDR + entsize 1 + entsize 2) names)
    hwide 2 (by simp)
  have hge : 4 ≤ shortIsz parent names := shortIsz_ge
  simp only [List.append_assoc, List.append_nil, List.length_append, length_toBe] at h0 h1 h2 hentries ⊢
  have hlong : 2 + shortIsz parent names ≤ (toBe 1 names.length ++ (toBe 1 (i8count parent names) ++
      (toBe (shortIsz parent names) parent ++ shortBody (shortIsz parent names)
        (HDR + entsize 1 + entsize 2) names))).length := by
    simp only [List.length_append, length_toBe]
    omega
  have htotal : (toBe 1 names.length ++ (toBe 1 (i8count parent names) ++
      (toBe (shortIsz parent names) parent ++ shortBody (shortIsz parent names)
        (HDR + entsize 1 + entsize 2) names))).length = 1 + (1 + (shortIsz parent names +
      (shortBody (shortIsz parent names) (HDR + entsize 1 + entsize 2) names).length)) := by
    simp only [List.length_append, length_toBe]
  rw [← htotal]
  rw [show 1 + (1 + shortIsz parent names) = 2 + shortIsz parent names by omega] at hentries
  generalize toBe 1 names.length ++ (toBe 1 (i8count parent names) ++
    (toBe (shortIsz parent names) parent ++ shortBody (shortIsz parent names)
      (HDR + entsize 1 + entsize 2) names)) = buf at *
  unfold parseShortform
  rw [except_throwIf_bind_of_not (by omega), List.take_length]
  simp only [h0, h1, ← hisz]
  unfold inoAt
  rw [except_throwIf_bind_of_not (by omega), h2]
  rw [show (pure parent : Result Nat) = .ok parent from rfl, except_ok_bind, hentries]
  rfl

end

/-! ## Entries in a block -/

/-- An entry is at `p`. -/
structure EntryAt (buf : Bytes) (p : Nat) (e : DirEnt) : Prop where
  ino : be64 buf p = e.ino
  namelen : getBe 1 buf (p + 8) = e.name.length
  name : slice buf (p + 9) e.name.length = e.name
  ftype : getBe 1 buf (p + 9 + e.name.length) = e.ftype

/-- Entries one after another from `p` on. -/
def EntriesAt (buf : Bytes) : Nat → List DirEnt → Prop
  | _, [] => True
  | p, e :: es => EntryAt buf p e ∧ EntriesAt buf (p + entsize e.name.length) es

/-- The entries end at `stop`, or free space takes up what is left. -/
def FreeFrom (buf : Bytes) (stop q : Nat) : Prop :=
  q = stop ∨ q + 8 ≤ stop ∧ be16 buf q = 0xffff ∧ be16 buf (q + 2) = stop - q ∧ (stop - q) % 8 = 0

section
variable {sb : Superblock} {buf buf' : Bytes} {e : DirEnt} {es : List DirEnt} {p stop dirIno : Nat}

theorem entsize_holds (n : Nat) : n + 12 ≤ entsize n ∧ entsize n % 8 = 0 := by
  unfold entsize
  omega

theorem usedBytes_mod (es : List DirEnt) : usedBytes es % 8 = 0 := by
  induction es with
  | nil => rfl
  | cons e es ih =>
    have := (entsize_holds e.name.length).2
    rw [usedBytes_cons]
    omega

/-- An entry's bytes elsewhere. -/
theorem EntryAt.frame (h : EntryAt buf p e)
    (hsame : ∀ o n, p ≤ o → o + n ≤ p + entsize e.name.length → slice buf' o n = slice buf o n) :
    EntryAt buf' p e := by
  have hsize := (entsize_holds e.name.length).1
  have hnum : ∀ o w, p ≤ o → o + w ≤ p + entsize e.name.length → getBe w buf' o = getBe w buf o :=
    fun o w h1 h2 => congrArg beNat (hsame o w h1 h2)
  obtain ⟨h1, h2, h3, h4⟩ := h
  exact ⟨(hnum p 8 (by omega) (by omega)).trans h1, (hnum _ 1 (by omega) (by omega)).trans h2,
    (hsame _ _ (by omega) (by omega)).trans h3, (hnum _ 1 (by omega) (by omega)).trans h4⟩

theorem EntriesAt.frame : ∀ {es : List DirEnt} {p : Nat}, EntriesAt buf p es →
    (∀ o n, p ≤ o → o + n ≤ p + usedBytes es → slice buf' o n = slice buf o n) →
    EntriesAt buf' p es := by
  intro es
  induction es with
  | nil => intro p _ _; trivial
  | cons e es ih =>
    intro p h hsame
    obtain ⟨he, hes⟩ := h
    rw [usedBytes_cons] at hsame
    exact ⟨he.frame fun o n h1 h2 => hsame o n h1 (by omega),
      ih hes fun o n h1 h2 => hsame o n (by omega) (by omega)⟩

/-! ### Writing them -/

/-- What is written for an entry. -/
def entryFields (p : Nat) (e : DirEnt) : List (Nat × Bytes) :=
  [(p, toBe 8 e.ino), (p + 8, toBe 1 e.name.length), (p + 9, e.name),
    (p + 9 + e.name.length, toBe 1 e.ftype), (p + entsize e.name.length - 2, toBe 2 p)]

theorem putEntry_eq (buf : Bytes) (p : Nat) (e : DirEnt) :
    putEntry buf p e = patch buf (entryFields p e) := rfl

theorem fits_entryFields (hle : p + entsize e.name.length ≤ buf.length) :
    Fits buf.length (entryFields p e) := by
  have hsize := (entsize_holds e.name.length).1
  intro f hf
  simp only [entryFields, List.mem_cons, List.not_mem_nil, or_false] at hf
  rcases hf with rfl | rfl | rfl | rfl | rfl <;> simp only [length_toBe] <;> omega

theorem length_putEntry (hle : p + entsize e.name.length ≤ buf.length) :
    (putEntry buf p e).length = buf.length := length_patch (fits_entryFields hle)

theorem slice_putEntry (hle : p + entsize e.name.length ≤ buf.length) {o n : Nat}
    (hclear : o + n ≤ p ∨ p + entsize e.name.length ≤ o) :
    slice (putEntry buf p e) o n = slice buf o n := by
  have hsize := (entsize_holds e.name.length).1
  refine slice_patch_clear (fits_entryFields hle) fun f hf => ?_
  simp only [entryFields, List.mem_cons, List.not_mem_nil, or_false] at hf
  rcases hf with rfl | rfl | rfl | rfl | rfl <;> simp only [length_toBe] <;> omega

theorem entryAt_putEntry (he : e.Fits) (hle : p + entsize e.name.length ≤ buf.length) :
    EntryAt (putEntry buf p e) p e := by
  have hsize := (entsize_holds e.name.length).1
  have hfits := @fits_entryFields buf e p hle
  have hlen := he.name_le
  have hino := he.ino_lt
  rw [putEntry_eq]
  refine ⟨?_, ?_, ?_, ?_⟩
  · refine @getBe_patch_get (entryFields p e) buf 0 p 8 e.ino rfl hfits (by omega) ?_
    simp [Clear, entryFields]
    omega
  · refine @getBe_patch_get (entryFields p e) buf 1 (p + 8) 1 e.name.length rfl hfits (by omega) ?_
    simp [Clear, entryFields]
    omega
  · refine slice_patch [(p, toBe 8 e.ino), (p + 8, toBe 1 e.name.length)] hfits rfl fun q hq => ?_
    simp only [List.mem_cons, List.not_mem_nil, or_false] at hq
    rcases hq with rfl | rfl <;> simp only <;> omega
  · refine @getBe_patch_get (entryFields p e) buf 3 _ 1 e.ftype rfl hfits he.ftype_lt ?_
    simp [Clear, entryFields]
    omega

theorem length_putEntries : ∀ {es : List DirEnt} {buf : Bytes} {p : Nat},
    p + usedBytes es ≤ buf.length → (putEntries buf p es).length = buf.length := by
  intro es
  induction es with
  | nil => intro buf p _; rfl
  | cons e es ih =>
    intro buf p hle
    rw [usedBytes_cons] at hle
    have hput := @length_putEntry buf e p (by omega)
    rw [putEntries, ih (by omega), hput]

theorem slice_putEntries : ∀ {es : List DirEnt} {buf : Bytes} {p o n : Nat},
    p + usedBytes es ≤ buf.length → (o + n ≤ p ∨ p + usedBytes es ≤ o) →
    slice (putEntries buf p es) o n = slice buf o n := by
  intro es
  induction es with
  | nil => intro buf p o n _ _; rfl
  | cons e es ih =>
    intro buf p o n hle hclear
    rw [usedBytes_cons] at hle hclear
    have hput := @length_putEntry buf e p (by omega)
    rw [putEntries, ih (by omega) (by omega), slice_putEntry (by omega) (by omega)]

theorem entriesAt_putEntries : ∀ {es : List DirEnt} {buf : Bytes} {p : Nat},
    (∀ e ∈ es, e.Fits) → p + usedBytes es ≤ buf.length → EntriesAt (putEntries buf p es) p es := by
  intro es
  induction es with
  | nil => intro buf p _ _; trivial
  | cons e es ih =>
    intro buf p hes hle
    rw [usedBytes_cons] at hle
    have hput := @length_putEntry buf e p (by omega)
    have hfirst : EntryAt (putEntry buf p e) p e := entryAt_putEntry (hes e List.mem_cons_self) (by omega)
    have hrest : p + entsize e.name.length + usedBytes es ≤ (putEntry buf p e).length := by omega
    exact ⟨hfirst.frame fun o n h1 h2 => slice_putEntries hrest (Or.inl h2),
      ih (fun x hx => hes x (List.mem_cons_of_mem _ hx)) hrest⟩

/-! ### Listing them -/

theorem entryLen_eq (hft : sb.hasFtype = true) (n : Nat) : entryLen sb n = entsize n := by
  rw [entryLen, ftypeLen, if_pos hft]
  rfl

/-- An inode number below 2^56 does not begin as free space does. -/
theorem EntryAt.tag (h : EntryAt buf p e) (hino : e.ino < 2 ^ 56) (hle : p + 8 ≤ buf.length) :
    be16 buf p ≠ 0xffff := by
  intro htag
  have hsplit : be64 buf p = be16 buf p * 256 ^ 6 + getBe 6 buf (p + 2) := by
    unfold be64 be16 getBe
    rw [show (8 : Nat) = 2 + 6 from rfl, slice, List.take_add, List.drop_drop, beNat_append]
    have hlow : (slice buf (p + 2) 6).length = 6 := length_slice (by omega)
    change beNat (slice buf p 2) * 256 ^ (slice buf (p + 2) 6).length + _ = _
    rw [hlow]
    rfl
  rw [h.ino, htag] at hsplit
  norm_num at hsplit hino
  omega

/-- Entries that are there are listed, up to the free space after them. -/
theorem dataEntries_eq (hft : sb.hasFtype = true) (hstop : stop ≤ buf.length) :
    ∀ {es : List DirEnt} {fuel p : Nat}, (∀ e ∈ es, e.Fits) → EntriesAt buf p es →
      FreeFrom buf stop (p + usedBytes es) → p + usedBytes es ≤ stop → stop < p + 8 * fuel →
      dataEntries sb buf dirIno stop fuel p = .ok (es.map DirEnt.raw) := by
  intro es
  induction es with
  | nil =>
    intro fuel p _ _ hfree hle hfuel
    change FreeFrom buf stop p at hfree
    have hend : ∀ {fuel : Nat}, dataEntries sb buf dirIno stop fuel stop = .ok [] := by
      intro fuel
      cases fuel with
      | zero => rw [dataEntries, if_neg (Nat.lt_irrefl _)]; rfl
      | succ fuel => rw [dataEntries, if_pos (Nat.le_refl _)]; rfl
    rcases hfree with rfl | ⟨h8, htag, hlen, hmod⟩
    · exact hend
    · cases fuel with
      | zero => omega
      | succ fuel =>
        rw [dataEntries, if_neg (by omega), except_throwIf_bind_of_not (by omega), if_pos htag]
        simp only [hlen]
        rw [except_throwIf_bind_of_not (by omega), Nat.add_sub_cancel' (by omega)]
        exact hend
  | cons e es ih =>
    intro fuel p hes hat hfree hle hfuel
    obtain ⟨he, hrest⟩ := hat
    have hfits := hes e List.mem_cons_self
    have hsize := (entsize_holds e.name.length).1
    have hpos := hfits.name_pos
    rw [usedBytes_cons, ← Nat.add_assoc] at hfree hle
    have htag := he.tag hfits.ino_lt (by omega)
    cases fuel with
    | zero => omega
    | succ fuel =>
      have hnext := @ih fuel (p + entsize e.name.length)
        (fun x hx => hes x (List.mem_cons_of_mem _ hx)) hrest hfree hle (by omega)
      rw [dataEntries, if_neg (by omega)]
      simp only
      rw [except_throwIf_bind_of_not (by omega), if_neg htag, except_throwIf_bind_of_not (by omega)]
      simp only [he.namelen, entryLen_eq hft]
      rw [except_throwIf_bind_of_not (by omega), hnext, except_ok_bind, he.name, he.ino,
        ftypeAt_eq hft, he.ftype]
      rfl

end

/-! ## Hashes -/

theorem xor_lt {a b : Nat} (ha : a < 2 ^ 32) (hb : b < 2 ^ 32) : a ^^^ b < 2 ^ 32 :=
  Nat.xor_lt_two_pow ha hb

theorem rotl32_lt (h k : Nat) : rotl32 h k < 2 ^ 32 := Nat.mod_lt _ (by norm_num)

theorem toNat_shiftLeft_lt (a : UInt8) {k : Nat} (hk : k ≤ 21) : a.toNat <<< k < 2 ^ 32 := by
  have ha := a.toNat_lt
  have hpow : 2 ^ k ≤ 2 ^ 21 := Nat.pow_le_pow_right (by norm_num) hk
  rw [Nat.shiftLeft_eq]
  calc a.toNat * 2 ^ k ≤ a.toNat * 2 ^ 21 := Nat.mul_le_mul_left _ hpow
    _ < 2 ^ 32 := by omega

theorem toNat_lt_word (a : UInt8) : a.toNat < 2 ^ 32 := lt_trans a.toNat_lt (by norm_num)

/-- A hash is a 32-bit word. -/
theorem hashFrom_lt {hash : Nat} (h : hash < 2 ^ 32) (name : Bytes) : hashFrom hash name < 2 ^ 32 := by
  induction hash, name using hashFrom.induct with
  | case1 hash a b c d n ih =>
    rw [hashFrom]
    exact ih (xor_lt (xor_lt (xor_lt (xor_lt (toNat_shiftLeft_lt a (by norm_num))
      (toNat_shiftLeft_lt b (by norm_num))) (toNat_shiftLeft_lt c (by norm_num))) (toNat_lt_word d))
      (rotl32_lt _ _))
  | case2 hash a b c =>
    rw [hashFrom]
    exact xor_lt (xor_lt (xor_lt (toNat_shiftLeft_lt a (by norm_num))
      (toNat_shiftLeft_lt b (by norm_num))) (toNat_lt_word c)) (rotl32_lt _ _)
  | case3 hash a b =>
    rw [hashFrom]
    exact xor_lt (xor_lt (toNat_shiftLeft_lt a (by norm_num)) (toNat_lt_word b)) (rotl32_lt _ _)
  | case4 hash a =>
    rw [hashFrom]
    exact xor_lt (toNat_lt_word a) (rotl32_lt _ _)
  | case5 hash => rwa [hashFrom]

theorem hashname_lt (name : Bytes) : hashname name < 2 ^ 32 := hashFrom_lt (by norm_num) name

/-! ## Index entries in a block -/

/-- Both words of an index entry are 32-bit. -/
def EntryFits (e : Nat × Nat) : Prop := e.1 < 2 ^ 32 ∧ e.2 < 2 ^ 32

/-- Entry `i` of those from offset `o` on. -/
def indexAt (data : Bytes) (o i : Nat) : Nat × Nat := (be32 data (o + i * 8), be32 data (o + i * 8 + 4))

/-- The entries from offset `o` on are these. -/
def IndexAt (data : Bytes) (o : Nat) (ents : List (Nat × Nat)) : Prop :=
  ∀ i (hi : i < ents.length), indexAt data o i = ents[i]

section
variable {buf buf' : Bytes} {ents : List (Nat × Nat)} {o : Nat}

theorem slots_index (ents : List (Nat × Nat)) :
    ∀ d ∈ ents.map (fun e => toBe 4 e.1 ++ toBe 4 e.2), d.length = 8 := by
  intro d hd
  obtain ⟨e, -, rfl⟩ := List.mem_map.mp hd
  rw [List.length_append, length_toBe, length_toBe]

theorem length_putIndex (hle : o + ents.length * 8 ≤ buf.length) :
    (putIndex buf o ents).length = buf.length :=
  length_fillSlots _ (slots_index ents) (by rw [List.length_map]; omega)

theorem slice_putIndex (hle : o + ents.length * 8 ≤ buf.length) {o' n : Nat}
    (hclear : o' + n ≤ o ∨ o + ents.length * 8 ≤ o') :
    slice (putIndex buf o ents) o' n = slice buf o' n :=
  slice_fillSlots_disjoint _ (slots_index ents) (by rw [List.length_map]; omega)
    (by rw [List.length_map]; omega)

theorem slice_putIndex_slot (hle : o + ents.length * 8 ≤ buf.length) {i : Nat} (hi : i < ents.length) :
    slice (putIndex buf o ents) (o + i * 8) 8 = toBe 4 ents[i].1 ++ toBe 4 ents[i].2 := by
  unfold putIndex
  rw [slice_fillSlots _ (slots_index ents) (by rw [List.length_map]; omega)
    (by rw [List.length_map]; exact hi), List.getElem_map]

/-- Entries that were put are there. -/
theorem indexAt_putIndex (hents : ∀ e ∈ ents, EntryFits e) (hle : o + ents.length * 8 ≤ buf.length) :
    IndexAt (putIndex buf o ents) o ents := by
  intro i hi
  obtain ⟨h1, h2⟩ := hents _ (List.getElem_mem hi)
  have hslot := slice_putIndex_slot hle hi
  have hword : ∀ k, k + 4 ≤ 8 → be32 (putIndex buf o ents) (o + i * 8 + k) =
      be32 (toBe 4 ents[i].1 ++ toBe 4 ents[i].2) k := by
    intro k hk
    rw [be32, getBe, ← slice_slice hk, hslot, be32, getBe]
  have hfirst : be32 (toBe 4 ents[i].1 ++ toBe 4 ents[i].2) 0 = ents[i].1 := by
    rw [be32, getBe_toBe_append _ (by omega)]
  have hsecond : be32 (toBe 4 ents[i].1 ++ toBe 4 ents[i].2) 4 = ents[i].2 := by
    have hright := @getBe_field 4 ents[i].2 (toBe 4 ents[i].1) [] (by omega) 4 (length_toBe _ _)
    rwa [List.append_nil] at hright
  unfold indexAt
  rw [← Nat.add_zero (o + i * 8), hword 0 (by norm_num), hfirst, Nat.add_zero,
    hword 4 (by norm_num), hsecond]

theorem IndexAt.frame (h : IndexAt buf o ents)
    (hsame : ∀ o' n, o ≤ o' → o' + n ≤ o + ents.length * 8 → slice buf' o' n = slice buf o' n) :
    IndexAt buf' o ents := by
  intro i hi
  rw [← h i hi]
  exact Prod.ext (congrArg beNat (hsame _ 4 (by omega) (by omega)))
    (congrArg beNat (hsame _ 4 (by omega) (by omega)))

end

/-! ## Whole blocks -/

/-- Directory blocks are of these lengths. -/
structure DirBlockSize (dbs : Nat) : Prop where
  ge : 512 ≤ dbs
  le : dbs ≤ 65536
  mod : dbs % 8 = 0

/-- A data or single block as it reads: its names, and the free space after them up to `stop`. -/
structure DataReads (ino dbs magic stop : Nat) (es : List DirEnt) (data : Bytes) : Prop where
  length_eq : data.length = dbs
  magic : be32 data 0 = magic
  owner : be64 data 40 = ino
  entries : EntriesAt data HDR es
  free : FreeFrom data stop (HDR + usedBytes es)

section
variable {sb : Superblock} {buf data : Bytes} {b : DirBlock} {es all : List DirEnt}
  {ino dbs fsbPer db daddr p len stop magic : Nat}

theorem stampHeader_spec (hs : sb.Sound) (hino : ino < 2 ^ 64) (hlen : 48 ≤ buf.length) :
    (stampHeader sb buf ino).length = buf.length ∧ be64 (stampHeader sb buf ino) 40 = ino ∧
      ∀ o n, o + n ≤ 24 ∨ 48 ≤ o → slice (stampHeader sb buf ino) o n = slice buf o n := by
  have huuid := hs.metaUuid_len
  have hsplice : (splice buf 24 sb.metaUuid).length = buf.length := length_splice (by omega)
  unfold stampHeader put64
  refine ⟨(length_putBe (by omega)).trans hsplice,
    getBe_putBe_same (by omega) (hino.trans_eq (by norm_num)), fun o n h => ?_⟩
  rw [slice_putBe_disjoint (by omega) (by omega), slice_splice_disjoint (by omega) (by omega)]

/-- A data or single block, which keeps its checksum and its address in a data block's header. -/
structure InDataHeader (b : DirBlock) : Prop where
  crcOff : b.crcOff = 4
  blknoOff : b.blknoOff = 8

/-- A block with its address and checksum filled in. -/
theorem finishBlock_spec (hb : InDataHeader b) (hlen : 16 ≤ b.data.length) :
    (Volume.finishBlock b daddr).length = b.data.length ∧
      Crc.verify (Volume.finishBlock b daddr) 4 = true ∧
      ∀ o n, o + n ≤ 4 ∨ 16 ≤ o → slice (Volume.finishBlock b daddr) o n = slice b.data o n := by
  have hput : (put64 b.data 8 daddr).length = b.data.length := length_putBe (by omega)
  have hcrc : 4 + 4 ≤ (put64 b.data 8 daddr).length := by omega
  unfold Volume.finishBlock
  rw [hb.crcOff, hb.blknoOff]
  refine ⟨(Crc.length_stamp hcrc).trans hput, Crc.verify_stamp hcrc, fun o n h => ?_⟩
  rw [Crc.slice_stamp_disjoint hcrc (by omega), put64, slice_putBe_disjoint (by omega) (by omega)]

/-- What is written for free space. -/
def freeFields (p len : Nat) : List (Nat × Bytes) :=
  [(p, toBe 2 0xffff), (p + 2, toBe 2 len), (p + len - 2, toBe 2 p), (48, toBe 2 p), (50, toBe 2 len)]

theorem putFree_eq (h : 0 < len) : putFree buf p len = patch buf (freeFields p len) := by
  rw [putFree, if_pos h]
  rfl

theorem fits_freeFields (hp : 52 ≤ p) (h8 : 8 ≤ len) (hle : p + len ≤ buf.length) :
    Fits buf.length (freeFields p len) := by
  intro f hf
  simp only [freeFields, List.mem_cons, List.not_mem_nil, or_false] at hf
  rcases hf with rfl | rfl | rfl | rfl | rfl <;> simp only [length_toBe] <;> omega

/-- Free space that was marked is found, and nothing else has changed but the header's record of
it. -/
theorem putFree_spec (hp : 52 ≤ p) (hle : p + len ≤ buf.length) (hmod : len % 8 = 0)
    (hlt : len < 2 ^ 16) : (putFree buf p len).length = buf.length ∧
      FreeFrom (putFree buf p len) (p + len) p ∧
      ∀ o n, (o + n ≤ 48 ∨ 52 ≤ o ∧ (o + n ≤ p ∨ p + len ≤ o)) →
        slice (putFree buf p len) o n = slice buf o n := by
  rcases Nat.eq_zero_or_pos len with rfl | hpos
  · exact ⟨rfl, Or.inl rfl, fun _ _ _ => rfl⟩
  · have hfits := fits_freeFields hp (by omega) hle
    rw [putFree_eq hpos]
    refine ⟨length_patch hfits, Or.inr ⟨by omega, ?_, ?_, by omega⟩, fun o n hclear => ?_⟩
    · refine @getBe_patch_get (freeFields p len) buf 0 p 2 0xffff rfl hfits (by norm_num) ?_
      simp [Clear, freeFields]
      omega
    · rw [Nat.add_sub_cancel_left]
      refine @getBe_patch_get (freeFields p len) buf 1 (p + 2) 2 len rfl hfits (by omega) ?_
      simp [Clear, freeFields]
      omega
    · refine slice_patch_clear hfits fun f hf => ?_
      simp only [freeFields, List.mem_cons, List.not_mem_nil, or_false] at hf
      rcases hf with rfl | rfl | rfl | rfl | rfl <;> simp only [length_toBe] <;> omega

theorem FreeFrom.frame {q : Nat} (h : FreeFrom buf stop q)
    (hsame : ∀ o, q ≤ o → o + 2 ≤ stop → slice data o 2 = slice buf o 2) : FreeFrom data stop q := by
  rcases h with h | ⟨h1, h2, h3, h4⟩
  · exact Or.inl h
  · exact Or.inr ⟨h1, (congrArg beNat (hsame _ (by omega) (by omega))).trans h2,
      (congrArg beNat (hsame _ (by omega) (by omega))).trans h3, h4⟩

/-- A block whose names and free space end where they are to end is listed, once it has its address
and checksum. -/
theorem DataReads.parse (form : Bool)
    (h : DataReads ino dbs (if form then XDB3 else XDD3) stop es b.data) (hb : InDataHeader b)
    (hv5 : sb.isV5 = true) (hft : sb.hasFtype = true) (hdbs : DirBlockSize dbs)
    (hes : ∀ e ∈ es, e.Fits) (hle : HDR + usedBytes es ≤ stop) (hstop : stop ≤ dbs)
    (hend : namesEnd (Volume.finishBlock b daddr) ino 64 form = .ok stop) :
    parseDataBlock sb (Volume.finishBlock b daddr) ino = .ok (es.map DirEnt.raw) := by
  have hge := hdbs.ge
  have hlen := h.length_eq
  obtain ⟨hfin, hverify, hrest⟩ := @finishBlock_spec b daddr hb (by omega)
  have hform : dataForm sb (Volume.finishBlock b daddr) ino = .ok (64, form) := by
    have hmagic : be32 (Volume.finishBlock b daddr) 0 = if form then XDB3 else XDD3 :=
      (congrArg beNat (hrest 0 4 (Or.inl (by norm_num)))).trans h.magic
    unfold dataForm
    rw [hmagic, hv5]
    cases form <;> simp [XDB3, XDD3, XD2B, XD2D, Dir.XDB3, Dir.XDD3]
  have hcheck : checkDataBlock sb (Volume.finishBlock b daddr) ino = .ok () := by
    have howner := (congrArg beNat (hrest 40 8 (Or.inr (by norm_num)))).trans h.owner
    unfold checkDataBlock
    rw [if_pos hv5, except_throwIf_bind_of_not (by rw [hverify]; decide)]
    exact except_throwIf_of_not (not_not.mpr howner)
  unfold parseDataBlock
  rw [hform, except_ok_bind]
  simp only
  rw [hcheck, except_ok_bind, hend, except_ok_bind]
  refine dataEntries_eq hft (by omega) hes (h.entries.frame fun o n h1 _ =>
    hrest o n (Or.inr ?_)) (h.free.frame fun o h1 _ => hrest o 2 (Or.inr ?_)) hle (by omega)
  · exact le_trans (by decide) h1
  · exact le_trans (by unfold HDR; omega) h1

/-- The entries of a block of zeroes with a magic number. -/
theorem entries_put (hdbs : DirBlockSize dbs) (hes : ∀ e ∈ es, e.Fits)
    (hmagic : magic < 2 ^ 32) (hle : HDR + usedBytes es ≤ dbs) :
    (putEntries (put32 (List.replicate dbs 0) 0 magic) HDR es).length = dbs ∧
      be32 (putEntries (put32 (List.replicate dbs 0) 0 magic) HDR es) 0 = magic ∧
      EntriesAt (putEntries (put32 (List.replicate dbs 0) 0 magic) HDR es) HDR es := by
  have hge := hdbs.ge
  have hlen : (put32 (List.replicate dbs 0) 0 magic).length = dbs := by
    rw [put32, length_putBe (by rw [List.length_replicate]; omega), List.length_replicate]
  refine ⟨(length_putEntries (by rw [hlen]; exact hle)).trans hlen, ?_,
    entriesAt_putEntries hes (by rw [hlen]; exact hle)⟩
  rw [be32, getBe, slice_putEntries (by rw [hlen]; exact hle) (Or.inl (by unfold HDR; omega))]
  exact getBe_putBe_same (by omega) (hmagic.trans_eq (by norm_num))

/-- What a data block that was packed reads as. -/
theorem dataReads_dataBlock (hs : sb.Sound) (hino : ino < 2 ^ 64) (hdbs : DirBlockSize dbs)
    (hes : ∀ e ∈ es, e.Fits) (hle : HDR + usedBytes es ≤ dbs) :
    DataReads ino dbs XDD3 dbs es (dataBlock sb ino dbs fsbPer db es).data := by
  have hge := hdbs.ge
  have hle' := hdbs.le
  have hmod := hdbs.mod
  have hused := usedBytes_mod es
  obtain ⟨hlen, hmagic, hentries⟩ := @entries_put es dbs XDD3 hdbs hes (by decide) hle
  unfold dataBlock
  generalize hb : putEntries (put32 (List.replicate dbs 0) 0 XDD3) HDR es = b at hlen hmagic hentries
  simp only [hb]
  obtain ⟨hlen1, hfree, hrest1⟩ := @putFree_spec b (HDR + usedBytes es) (dbs - (HDR + usedBytes es))
    (by unfold HDR; omega) (by omega) (by unfold HDR; omega) (by unfold HDR; omega)
  rw [Nat.add_sub_cancel' hle] at hfree
  generalize putFree b (HDR + usedBytes es) (dbs - (HDR + usedBytes es)) = b1 at hlen1 hfree hrest1
  obtain ⟨hlen2, howner, hrest2⟩ := @stampHeader_spec sb b1 ino hs hino (by omega)
  refine ⟨by omega, ?_, howner, hentries.frame fun o n h1 h2 => ?_, hfree.frame fun o h1 _ =>
    hrest2 o 2 (Or.inr (le_trans (by unfold HDR; omega) h1))⟩
  · exact (congrArg beNat ((hrest2 0 4 (by norm_num)).trans (hrest1 0 4 (by norm_num)))).trans hmagic
  · unfold HDR at h1 h2
    rw [hrest2 o n (Or.inr (by omega)), hrest1 o n (Or.inr (by unfold HDR; omega))]

/-- A data block is listed as what was packed in it. -/
theorem parse_dataBlock (hs : sb.Sound) (hv5 : sb.isV5 = true) (hft : sb.hasFtype = true)
    (hino : ino < 2 ^ 64) (hdbs : DirBlockSize dbs) (hes : ∀ e ∈ es, e.Fits)
    (hle : HDR + usedBytes es ≤ dbs) :
    parseDataBlock sb (Volume.finishBlock (dataBlock sb ino dbs fsbPer db es) daddr) ino =
      .ok (es.map DirEnt.raw) := by
  have hge := hdbs.ge
  have hreads := @dataReads_dataBlock sb es ino dbs fsbPer db hs hino hdbs hes hle
  have hb : InDataHeader (dataBlock sb ino dbs fsbPer db es) := ⟨rfl, rfl⟩
  refine hreads.parse false hb hv5 hft hdbs hes hle (le_refl dbs) ?_
  obtain ⟨hfin, -, -⟩ := @finishBlock_spec _ daddr hb (by rw [hreads.length_eq]; omega)
  unfold namesEnd
  rw [if_neg Bool.false_ne_true, hfin, hreads.length_eq]

theorem length_indexFrom (at_ : Nat) (es : List DirEnt) : (indexFrom at_ es).length = es.length := by
  induction es generalizing at_ with
  | nil => rfl
  | cons e es ih => rw [indexFrom, List.length_cons, ih, List.length_cons]

/-- What a single block reads as: the names, and at its end their index and its tail. -/
theorem dataReads_blockForm (hs : sb.Sound) (hino : ino < 2 ^ 64) (hdbs : DirBlockSize dbs)
    (hall : ∀ e ∈ all, e.Fits) (hle : HDR + usedBytes all + all.length * 8 + 8 ≤ dbs) :
    DataReads ino dbs XDB3 (dbs - 8 - all.length * 8) all (blockForm sb ino dbs all).data ∧
      be32 (blockForm sb ino dbs all).data (dbs - 8) = all.length ∧
      ((∀ e ∈ indexFrom HDR all, EntryFits e) →
        IndexAt (blockForm sb ino dbs all).data (dbs - 8 - all.length * 8)
          ((indexFrom HDR all).insertionSort indexLe)) := by
  have hge := hdbs.ge
  have hle' := hdbs.le
  have hmod := hdbs.mod
  have hused := usedBytes_mod all
  obtain ⟨hlen, hmagic, hentries⟩ := @entries_put all dbs XDB3 hdbs hall (by decide) (by omega)
  unfold blockForm
  generalize hb : putEntries (put32 (List.replicate dbs 0) 0 XDB3) HDR all = b at hlen hmagic hentries
  simp only [hb]
  obtain ⟨hlen1, hfree, hrest1⟩ := @putFree_spec b (HDR + usedBytes all)
    (dbs - 8 - all.length * 8 - (HDR + usedBytes all))
    (by unfold HDR; omega) (by omega) (by unfold HDR; omega) (by unfold HDR; omega)
  rw [Nat.add_sub_cancel' (by omega)] at hfree
  generalize putFree b (HDR + usedBytes all) (dbs - 8 - all.length * 8 - (HDR + usedBytes all)) = b1
    at hlen1 hfree hrest1
  -- the index and the tail, which come after the names
  have hcount : ((indexFrom HDR all).insertionSort indexLe).length = all.length := by
    rw [List.length_insertionSort, length_indexFrom]
  have hsorted : (∀ e ∈ indexFrom HDR all, EntryFits e) →
      ∀ e ∈ (indexFrom HDR all).insertionSort indexLe, EntryFits e := fun h e he =>
    h e ((List.mem_insertionSort indexLe).mp he)
  generalize (indexFrom HDR all).insertionSort indexLe = leaf at hcount hsorted
  have hroom : dbs - 8 - all.length * 8 + leaf.length * 8 ≤ b1.length := by omega
  have hlen2 := length_putIndex hroom
  have hrest2 := fun o n => @slice_putIndex b1 leaf _ hroom o n
  have hindex := fun h => indexAt_putIndex (hsorted h) hroom
  generalize putIndex b1 (dbs - 8 - all.length * 8) leaf = b2 at hlen2 hrest2 hindex
  have hlen3 : (put32 b2 (dbs - 8) all.length).length = b2.length := length_putBe (by omega)
  have hlen4 : (put32 (put32 b2 (dbs - 8) all.length) (dbs - 4) 0).length = b2.length :=
    (length_putBe (by omega)).trans hlen3
  have hrest4 : ∀ o n, o + n ≤ dbs - 8 →
      slice (put32 (put32 b2 (dbs - 8) all.length) (dbs - 4) 0) o n = slice b2 o n := fun o n h => by
    rw [put32, slice_putBe_disjoint (by omega) (Or.inl (by omega)), put32,
      slice_putBe_disjoint (by omega) (Or.inl (by omega))]
  have htail : be32 (put32 (put32 b2 (dbs - 8) all.length) (dbs - 4) 0) (dbs - 8) = all.length := by
    rw [be32, put32, getBe_putBe_disjoint (by omega) (Or.inl (by omega))]
    exact getBe_putBe_same (by omega) (by omega)
  generalize put32 (put32 b2 (dbs - 8) all.length) (dbs - 4) 0 = b3 at hlen4 hrest4 htail
  obtain ⟨hlen5, howner, hrest5⟩ := @stampHeader_spec sb b3 ino hs hino (by omega)
  have hrest : ∀ o n, o + n ≤ dbs - 8 - all.length * 8 → (o + n ≤ 24 ∨ 48 ≤ o) →
      slice (stampHeader sb b3 ino) o n = slice b1 o n := fun o n h1 h2 => by
    rw [hrest5 o n h2, hrest4 o n (by omega), hrest2 o n (by omega)]
  refine ⟨⟨by omega, ?_, howner, hentries.frame fun o n h1 h2 => ?_, hfree.frame fun o h1 h2 => ?_⟩, ?_,
    fun h => (hindex h).frame fun o n h1 h2 => ?_⟩
  · exact (congrArg beNat ((hrest 0 4 (by unfold HDR at hle; omega) (by norm_num)).trans
      (hrest1 0 4 (by norm_num)))).trans hmagic
  · unfold HDR at h1 h2 hle
    rw [hrest o n (by omega) (Or.inr (by omega)), hrest1 o n (Or.inr (by unfold HDR; omega))]
  · unfold HDR at h1
    exact hrest o 2 h2 (Or.inr (by omega))
  · exact (congrArg beNat (hrest5 (dbs - 8) 4 (Or.inr (by omega)))).trans htail
  · unfold HDR at hle
    rw [hrest5 o n (Or.inr (by omega)), hrest4 o n (by omega)]

/-- A single block is listed up to the index it ends with. -/
theorem parse_blockForm (hs : sb.Sound) (hv5 : sb.isV5 = true) (hft : sb.hasFtype = true)
    (hino : ino < 2 ^ 64) (hdbs : DirBlockSize dbs) (hall : ∀ e ∈ all, e.Fits)
    (hle : HDR + usedBytes all + all.length * 8 + 8 ≤ dbs) :
    parseDataBlock sb (Volume.finishBlock (blockForm sb ino dbs all) daddr) ino =
      .ok (all.map DirEnt.raw) := by
  have hge := hdbs.ge
  obtain ⟨hreads, htail, -⟩ := @dataReads_blockForm sb all ino dbs hs hino hdbs hall hle
  have hb : InDataHeader (blockForm sb ino dbs all) := ⟨rfl, rfl⟩
  refine hreads.parse true hb hv5 hft hdbs hall (by omega) (by omega) ?_
  obtain ⟨hfin, -, hrest⟩ := @finishBlock_spec _ daddr hb (by rw [hreads.length_eq]; omega)
  have htail' : be32 (Volume.finishBlock (blockForm sb ino dbs all) daddr) (dbs - 8) = all.length :=
    (congrArg beNat (hrest (dbs - 8) 4 (Or.inr (by omega)))).trans htail
  rw [hreads.length_eq] at hfin
  generalize Volume.finishBlock (blockForm sb ino dbs all) daddr = out at hfin htail'
  unfold namesEnd
  simp only [if_true, hfin, htail']
  rw [except_throwIf_bind_of_not (by unfold HDR at hle; omega), ← Nat.sub_sub]
  rfl

end

end FioXfs.DirWrite
