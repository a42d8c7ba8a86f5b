import Mathlib.Data.List.Induction
import Mathlib.Data.List.Lex
import Mathlib.Tactic.NormNum
import Mathlib.Tactic.Ring
set_option autoImplicit false

/-!
# Lib: byte strings and the fields in them

A record format with fields at fixed offsets is read by `slice` and written by
`splice`; a big-endian field is a slice read as a number.  Everything the other
modules need about such formats is here once: a field just written reads back,
a field somewhere else is untouched, and a table of equal-sized slots filled in
order gives each slot back.
-/

namespace FioXfs.Lib

/-- A byte string. -/
abbrev Bytes : Type := List UInt8

/-- Bytes in order of their value, so byte strings in dictionary order. -/
instance linearOrderUInt8 : LinearOrder UInt8 where
  le_refl a := UInt8.le_refl a
  le_trans a b c := UInt8.le_trans
  le_antisymm a b := UInt8.le_antisymm
  le_total := UInt8.le_total
  lt_iff_le_not_ge a b := by
    rw [UInt8.lt_iff_toNat_lt, UInt8.le_iff_toNat_le, UInt8.le_iff_toNat_le]
    omega
  toDecidableLE := inferInstance

variable {α : Type}

/-- `n` elements of `b` from offset `o`. -/
def slice (b : List α) (o n : Nat) : List α := (b.drop o).take n

/-- `b` with the elements from offset `o` on overwritten by `d`. -/
def splice (b : List α) (o : Nat) (d : List α) : List α :=
  b.take o ++ d ++ b.drop (o + d.length)

/-! ## Slices and splices -/

theorem length_slice {b : List α} {o n : Nat} (h : o + n ≤ b.length) :
    (slice b o n).length = n := by
  simp only [slice, List.length_take, List.length_drop]
  omega

@[simp] theorem length_splice {b d : List α} {o : Nat} (h : o + d.length ≤ b.length) :
    (splice b o d).length = b.length := by
  simp only [splice, List.length_append, List.length_take, List.length_drop]
  omega

theorem getElem?_slice (b : List α) (o n i : Nat) :
    (slice b o n)[i]? = if i < n then b[o + i]? else none := by
  simp only [slice, List.getElem?_take, List.getElem?_drop]

theorem getElem?_splice {b d : List α} {o : Nat} (h : o ≤ b.length) (i : Nat) :
    (splice b o d)[i]? =
      if i < o then b[i]? else if i < o + d.length then d[i - o]? else b[i]? := by
  have ho : (b.take o).length = o := by simp [h]
  have hod : (b.take o ++ d).length = o + d.length := by simp [h]
  unfold splice
  split_ifs with h1 h2
  · rw [List.getElem?_append_left (by omega), List.getElem?_append_left (by omega),
      List.getElem?_take_of_lt h1]
  · rw [List.getElem?_append_left (by omega), List.getElem?_append_right (by omega), ho]
  · rw [List.getElem?_append_right (by omega), hod, List.getElem?_drop]
    congr 1
    omega

/-- What was just written reads back. -/
theorem slice_splice_same {b d : List α} {o : Nat} (h : o ≤ b.length) :
    slice (splice b o d) o d.length = d := by
  apply List.ext_getElem?
  intro i
  rw [getElem?_slice]
  split_ifs with hi
  · rw [getElem?_splice h, if_neg (by omega), if_pos (by omega)]
    congr 1
    omega
  · rw [List.getElem?_eq_none (by omega)]

/-- A slice that the write does not meet is untouched. -/
theorem slice_splice_disjoint {b d : List α} {o o' n : Nat} (h : o ≤ b.length)
    (hd : o' + n ≤ o ∨ o + d.length ≤ o') : slice (splice b o d) o' n = slice b o' n := by
  apply List.ext_getElem?
  intro i
  rw [getElem?_slice, getElem?_slice]
  split_ifs with hi
  · rw [getElem?_splice h]
    split_ifs with h1 h2
    · rfl
    · omega
    · rfl
  · rfl

theorem slice_slice {b : List α} {o n o' n' : Nat} (h : o' + n' ≤ n) :
    slice (slice b o n) o' n' = slice b (o + o') n' := by
  apply List.ext_getElem?
  intro i
  simp only [getElem?_slice]
  split_ifs with h1 h2
  · rw [Nat.add_assoc]
  · omega
  · rfl

theorem slice_zero_length (b : List α) : slice b 0 b.length = b := by
  simp [slice]

theorem slice_append_left {a b : List α} {o n : Nat} (h : o + n ≤ a.length) :
    slice (a ++ b) o n = slice a o n := by
  apply List.ext_getElem?
  intro i
  rw [getElem?_slice, getElem?_slice]
  split_ifs with hi
  · rw [List.getElem?_append_left (by omega)]
  · rfl

theorem slice_append_right (a b : List α) (o n : Nat) :
    slice (a ++ b) (a.length + o) n = slice b o n := by
  rw [slice, slice, List.drop_append, List.drop_eq_nil_of_le (Nat.le_add_right _ _),
    List.nil_append, Nat.add_sub_cancel_left]

theorem splice_splice_same {b d d' : List α} {o : Nat} (h : o ≤ b.length)
    (hl : d.length = d'.length) : splice (splice b o d) o d' = splice b o d' := by
  have hle : o ≤ (splice b o d).length := by
    simp only [splice, List.length_append, List.length_take, List.length_drop]
    omega
  apply List.ext_getElem?
  intro i
  rw [getElem?_splice hle, getElem?_splice h, getElem?_splice h, hl]
  split_ifs <;> rfl

/-- Writing back what is there changes nothing. -/
theorem splice_slice_self {b : List α} {o n : Nat} (h : o + n ≤ b.length) :
    splice b o (slice b o n) = b := by
  apply List.ext_getElem?
  intro i
  rw [getElem?_splice (by omega), length_slice h, getElem?_slice]
  split_ifs with h1 h2 h3
  · rfl
  · congr 1
    omega
  · omega
  · rfl

/-! ## Big-endian and little-endian numbers -/

/-- A byte string read as a big-endian number. -/
def beNat (b : Bytes) : Nat := b.foldl (fun a x => a * 256 + x.toNat) 0

/-- The low `w` bytes of `v`, big-endian. -/
def toBe : Nat → Nat → Bytes
  | 0, _ => []
  | w + 1, v => toBe w (v / 256) ++ [UInt8.ofNat (v % 256)]

/-- The low `w` bytes of `v`, little-endian. -/
def toLe (w v : Nat) : Bytes := (toBe w v).reverse

@[simp] theorem length_toBe (w v : Nat) : (toBe w v).length = w := by
  induction w generalizing v with
  | zero => rfl
  | succ w ih => simp [toBe, ih]

@[simp] theorem length_toLe (w v : Nat) : (toLe w v).length = w := by
  simp [toLe]

theorem beNat_append_singleton (b : Bytes) (x : UInt8) :
    beNat (b ++ [x]) = beNat b * 256 + x.toNat := by
  simp [beNat]

/-- A number's high part, and its low part. -/
theorem beNat_append (a b : Bytes) : beNat (a ++ b) = beNat a * 256 ^ b.length + beNat b := by
  induction b using List.reverseRecOn with
  | nil => simp [beNat]
  | append_singleton b x ih =>
    rw [← List.append_assoc, beNat_append_singleton, ih, beNat_append_singleton, List.length_append,
      List.length_singleton, pow_succ]
    ring

/-- A number written in `w` bytes reads back, cut to `w` bytes. -/
theorem beNat_toBe_mod (w v : Nat) : beNat (toBe w v) = v % 256 ^ w := by
  induction w generalizing v with
  | zero => simp [toBe, beNat, Nat.mod_one]
  | succ w ih =>
    have hb : (UInt8.ofNat (v % 256)).toNat = v % 256 := by
      simp
    rw [toBe, beNat_append_singleton, ih, hb, pow_succ', Nat.mod_mul]
    ring

theorem beNat_toBe {w v : Nat} (h : v < 256 ^ w) : beNat (toBe w v) = v := by
  rw [beNat_toBe_mod, Nat.mod_eq_of_lt h]

/-- Two fields side by side in a word: the upper one shifted over the lower. -/
theorem shiftLeft_or {a b n : Nat} (h : b < 2 ^ n) : a <<< n ||| b = a * 2 ^ n + b := by
  rw [← Nat.shiftLeft_add_eq_or_of_lt h, Nat.shiftLeft_eq]

theorem beNat_lt (b : Bytes) : beNat b < 256 ^ b.length := by
  induction b using List.reverseRecOn with
  | nil => simp [beNat]
  | append_singleton b x ih =>
    have hx : x.toNat < 256 := x.toNat_lt
    rw [beNat_append_singleton, List.length_append, List.length_singleton, pow_succ]
    omega

/-- As many bytes of the same number are the same bytes. -/
theorem beNat_injOn {a b : Bytes} (hl : a.length = b.length) (h : beNat a = beNat b) : a = b := by
  induction a using List.reverseRecOn generalizing b with
  | nil => exact (List.length_eq_zero_iff.mp hl.symm).symm
  | append_singleton a x ih =>
    rcases List.eq_nil_or_concat' b with rfl | ⟨b, y, rfl⟩
    · simp at hl
    · rw [beNat_append_singleton, beNat_append_singleton] at h
      have hx : x.toNat < 256 := x.toNat_lt
      have hy : y.toNat < 256 := y.toNat_lt
      have hab : a = b := ih (by simpa using hl) (by omega)
      have hxy : x = y := UInt8.toNat_inj.mp (by omega)
      rw [hab, hxy]

/-! ## Fields -/

/-- The big-endian number in the `w` bytes at offset `o`. -/
def getBe (w : Nat) (b : Bytes) (o : Nat) : Nat := beNat (slice b o w)

/-- `b` with `v` stored big-endian in the `w` bytes at offset `o`. -/
def putBe (w : Nat) (b : Bytes) (o v : Nat) : Bytes := splice b o (toBe w v)

@[simp] theorem length_putBe {w : Nat} {b : Bytes} {o v : Nat} (h : o + w ≤ b.length) :
    (putBe w b o v).length = b.length :=
  length_splice (by simpa using h)

theorem getBe_lt (w : Nat) (b : Bytes) (o : Nat) : getBe w b o < 256 ^ w := by
  refine lt_of_lt_of_le (beNat_lt _) (Nat.pow_le_pow_right (by norm_num) ?_)
  simp only [slice, List.length_take]
  exact Nat.min_le_left _ _

theorem slice_putBe_same {w : Nat} {b : Bytes} {o v : Nat} (h : o ≤ b.length) :
    slice (putBe w b o v) o w = toBe w v := by
  have hs := slice_splice_same (d := toBe w v) h
  rwa [length_toBe] at hs

/-- A field just stored reads back. -/
theorem getBe_putBe_same {w : Nat} {b : Bytes} {o v : Nat} (h : o ≤ b.length)
    (hv : v < 256 ^ w) : getBe w (putBe w b o v) o = v := by
  rw [getBe, slice_putBe_same h, beNat_toBe hv]

theorem getBe_toBe {w v : Nat} (hv : v < 256 ^ w) : getBe w (toBe w v) 0 = v := by
  have hz := slice_zero_length (toBe w v)
  rw [length_toBe] at hz
  rw [getBe, hz, beNat_toBe hv]

/-- The first field of a record. -/
theorem getBe_toBe_append {w v : Nat} (b : Bytes) (hv : v < 256 ^ w) :
    getBe w (toBe w v ++ b) 0 = v := by
  rw [getBe, slice_append_left (by simp), ← getBe, getBe_toBe hv]

/-- A field past the first of a record. -/
theorem getBe_append {w : Nat} (a b : Bytes) (o : Nat) :
    getBe w (a ++ b) (a.length + o) = getBe w b o := by
  rw [getBe, slice_append_right, getBe]

/-- A part of bytes that are laid out one part after another. -/
theorem slice_field {α : Type} {d : List α} (pre post : List α) {o : Nat} (ho : pre.length = o) :
    slice (pre ++ (d ++ post)) o d.length = d := by
  subst ho
  have hright := slice_append_right pre (d ++ post) 0 (n := d.length)
  rw [Nat.add_zero] at hright
  rw [hright, slice_append_left (by simp), slice_zero_length]

/-- And a number in such a part. -/
theorem getBe_field {w v : Nat} (pre post : Bytes) (hv : v < 256 ^ w) {o : Nat} (ho : pre.length = o) :
    getBe w (pre ++ (toBe w v ++ post)) o = v := by
  have hs := @slice_field _ (toBe w v) pre post o ho
  rw [length_toBe] at hs
  rw [getBe, hs, beNat_toBe hv]

/-- Storing a field leaves every slice it does not meet alone. -/
theorem slice_putBe_disjoint {w : Nat} {b : Bytes} {o v o' n : Nat} (h : o ≤ b.length)
    (hd : o' + n ≤ o ∨ o + w ≤ o') : slice (putBe w b o v) o' n = slice b o' n :=
  slice_splice_disjoint h (by simpa using hd)

/-- Storing a field leaves every field it does not meet alone. -/
theorem getBe_putBe_disjoint {w w' : Nat} {b : Bytes} {o v o' : Nat} (h : o ≤ b.length)
    (hd : o' + w' ≤ o ∨ o + w ≤ o') : getBe w' (putBe w b o v) o' = getBe w' b o' := by
  rw [getBe, slice_putBe_disjoint h hd, getBe]

theorem getBe_splice_disjoint {w : Nat} {b d : Bytes} {o o' : Nat} (h : o ≤ b.length)
    (hd : o' + w ≤ o ∨ o + d.length ≤ o') : getBe w (splice b o d) o' = getBe w b o' := by
  rw [getBe, slice_splice_disjoint h hd, getBe]

/-! ## Patches -/

/-- `b` with the byte strings written one after another, each at its offset. -/
def patch (b : Bytes) (ps : List (Nat × Bytes)) : Bytes :=
  ps.foldl (fun b p => splice b p.1 p.2) b

/-- Every patch lies inside `n` bytes. -/
def Fits (n : Nat) (ps : List (Nat × Bytes)) : Prop := ∀ p ∈ ps, p.1 + p.2.length ≤ n

/-- No patch meets the `n` bytes at `o`. -/
def Clear (o n : Nat) (ps : List (Nat × Bytes)) : Prop :=
  ∀ p ∈ ps, o + n ≤ p.1 ∨ p.1 + p.2.length ≤ o

theorem length_patch : ∀ {ps : List (Nat × Bytes)} {b : Bytes}, Fits b.length ps →
    (patch b ps).length = b.length := by
  intro ps
  induction ps with
  | nil => intro b _; rfl
  | cons p ps ih =>
    intro b h
    have hl : (splice b p.1 p.2).length = b.length := length_splice (h p List.mem_cons_self)
    change (patch (splice b p.1 p.2) ps).length = b.length
    rw [ih fun q hq => by rw [hl]; exact h q (List.mem_cons_of_mem _ hq), hl]

theorem slice_patch_clear {o n : Nat} : ∀ {ps : List (Nat × Bytes)} {b : Bytes}, Fits b.length ps →
    Clear o n ps → slice (patch b ps) o n = slice b o n := by
  intro ps
  induction ps with
  | nil => intro b _ _; rfl
  | cons p ps ih =>
    intro b h hc
    have hp := h p List.mem_cons_self
    have hl : (splice b p.1 p.2).length = b.length := length_splice hp
    change slice (patch (splice b p.1 p.2) ps) o n = slice b o n
    rw [ih (fun q hq => by rw [hl]; exact h q (List.mem_cons_of_mem _ hq))
      fun q hq => hc q (List.mem_cons_of_mem _ hq),
      slice_splice_disjoint (by omega) (hc p List.mem_cons_self)]

/-- A patch that no later one meets reads back. -/
theorem slice_patch (ps : List (Nat × Bytes)) {b d : Bytes} {qs : List (Nat × Bytes)} {o n : Nat}
    (h : Fits b.length (ps ++ (o, d) :: qs)) (hn : d.length = n) (hc : Clear o n qs) :
    slice (patch b (ps ++ (o, d) :: qs)) o n = d := by
  have hps : Fits b.length ps := fun p hp => h p (List.mem_append_left _ hp)
  have hd := h (o, d) (List.mem_append_right _ List.mem_cons_self)
  have hl := length_patch hps
  simp only at hd
  have hl' : (splice (patch b ps) o d).length = b.length := by
    rw [length_splice (by omega), hl]
  rw [patch, List.foldl_append, List.foldl_cons]
  change slice (patch (splice (patch b ps) o d) qs) o n = d
  rw [slice_patch_clear (fun q hq => by
    rw [hl']
    exact h q (List.mem_append_right _ (List.mem_cons_of_mem _ hq))) hc, ← hn,
    slice_splice_same (by omega)]

/-- A field that no later patch meets reads back. -/
theorem getBe_patch (ps : List (Nat × Bytes)) {b : Bytes} {qs : List (Nat × Bytes)} {o w v : Nat}
    (h : Fits b.length (ps ++ (o, toBe w v) :: qs)) (hv : v < 256 ^ w) (hc : Clear o w qs) :
    getBe w (patch b (ps ++ (o, toBe w v) :: qs)) o = v := by
  rw [getBe, slice_patch ps h (length_toBe w v) hc, beNat_toBe hv]

theorem getBe_patch_get {ps : List (Nat × Bytes)} {b : Bytes} {i o w v : Nat}
    (hi : ps[i]? = some (o, toBe w v)) (h : Fits b.length ps) (hv : v < 256 ^ w)
    (hc : Clear o w (ps.drop (i + 1))) : getBe w (patch b ps) o = v := by
  obtain ⟨hlt, hget⟩ := List.getElem?_eq_some_iff.mp hi
  have hsplit : ps = ps.take i ++ (o, toBe w v) :: ps.drop (i + 1) := by
    rw [← hget, ← List.drop_eq_getElem_cons hlt, List.take_append_drop]
  rw [hsplit] at h ⊢
  exact getBe_patch _ h hv hc

/-- `b` with numbers written in `w` bytes, each at its offset. -/
def putFields (w : Nat) (b : Bytes) (fields : List (Nat × Nat)) : Bytes :=
  patch b (fields.map fun f => (f.1, toBe w f.2))

section
variable {w : Nat} {b : Bytes} {fields : List (Nat × Nat)}

theorem putFields_append (fields' : List (Nat × Nat)) :
    putFields w b (fields ++ fields') = putFields w (putFields w b fields) fields' := by
  unfold putFields patch
  rw [List.map_append, List.foldl_append]

theorem fits_fields (h : ∀ f ∈ fields, f.1 + w ≤ b.length) :
    Fits b.length (fields.map fun f => (f.1, toBe w f.2)) := by
  intro p hp
  obtain ⟨f, hf, rfl⟩ := List.mem_map.mp hp
  simpa using h f hf

theorem length_putFields (h : ∀ f ∈ fields, f.1 + w ≤ b.length) :
    (putFields w b fields).length = b.length := length_patch (fits_fields h)

/-- Fields that lie apart all read back. -/
theorem getBe_putFields (h : ∀ f ∈ fields, f.1 + w ≤ b.length)
    (hap : (fields.map (·.1)).Pairwise fun o o' => o + w ≤ o' ∨ o' + w ≤ o) {o v : Nat}
    (hm : (o, v) ∈ fields) (hv : v < 256 ^ w) : getBe w (putFields w b fields) o = v := by
  obtain ⟨ps, qs, rfl⟩ := List.append_of_mem hm
  have hfits := fits_fields h
  unfold putFields
  rw [List.map_append, List.map_cons] at hfits ⊢
  refine getBe_patch _ hfits hv fun q hq => ?_
  obtain ⟨f, hf, rfl⟩ := List.mem_map.mp hq
  rw [List.map_append, List.map_cons, List.pairwise_append, List.pairwise_cons] at hap
  simpa using hap.2.1.1 f.1 (List.mem_map_of_mem hf)

/-- What no field meets stays. -/
theorem getBe_putFields_other (h : ∀ f ∈ fields, f.1 + w ≤ b.length) {o w' : Nat}
    (hclear : ∀ f ∈ fields, o + w' ≤ f.1 ∨ f.1 + w ≤ o) :
    getBe w' (putFields w b fields) o = getBe w' b o := by
  unfold getBe putFields
  rw [slice_patch_clear (fits_fields h)]
  intro p hp
  obtain ⟨f, hf, rfl⟩ := List.mem_map.mp hp
  simpa using hclear f hf

end

/-! ## Tables of equal slots -/

/-- `b` with the items written one after another from offset `o`, `w` apart. -/
def fillSlots (w : Nat) : Bytes → Nat → List Bytes → Bytes
  | b, _, [] => b
  | b, o, d :: ds => fillSlots w (splice b o d) (o + w) ds

theorem length_fillSlots {w : Nat} :
    ∀ (ds : List Bytes) {b : Bytes} {o : Nat}, (∀ d ∈ ds, d.length = w) →
      o + w * ds.length ≤ b.length → (fillSlots w b o ds).length = b.length := by
  intro ds
  induction ds with
  | nil => intro b o _ _; rfl
  | cons d ds ih =>
    intro b o hw hle
    have hd : d.length = w := hw d List.mem_cons_self
    rw [List.length_cons, Nat.mul_succ] at hle
    have hl : (splice b o d).length = b.length := length_splice (by omega)
    rw [fillSlots, ih (fun x hx => hw x (List.mem_cons_of_mem _ hx)) (by omega), hl]

/-- A slice outside the table is untouched. -/
theorem slice_fillSlots_disjoint {w : Nat} :
    ∀ (ds : List Bytes) {b : Bytes} {o o' n : Nat}, (∀ d ∈ ds, d.length = w) →
      o + w * ds.length ≤ b.length → (o' + n ≤ o ∨ o + w * ds.length ≤ o') →
      slice (fillSlots w b o ds) o' n = slice b o' n := by
  intro ds
  induction ds with
  | nil => intro b o o' n _ _ _; rfl
  | cons d ds ih =>
    intro b o o' n hw hle hd
    have hdl : d.length = w := hw d List.mem_cons_self
    rw [List.length_cons, Nat.mul_succ] at hle hd
    have hl : (splice b o d).length = b.length := length_splice (by omega)
    rw [fillSlots, ih (fun x hx => hw x (List.mem_cons_of_mem _ hx)) (by omega) (by omega),
      slice_splice_disjoint (by omega) (by omega)]

/-- Slot `i` of the table holds item `i`. -/
theorem slice_fillSlots {w : Nat} :
    ∀ (ds : List Bytes) {b : Bytes} {o i : Nat}, (∀ d ∈ ds, d.length = w) →
      o + w * ds.length ≤ b.length → (hi : i < ds.length) →
      slice (fillSlots w b o ds) (o + i * w) w = ds[i] := by
  intro ds
  induction ds with
  | nil => intro b o i _ _ hi; exact absurd hi (Nat.not_lt_zero i)
  | cons d ds ih =>
    intro b o i hw hle hi
    have hd : d.length = w := hw d List.mem_cons_self
    have hw' : ∀ x ∈ ds, x.length = w := fun x hx => hw x (List.mem_cons_of_mem _ hx)
    rw [List.length_cons, Nat.mul_succ] at hle
    have hl : (splice b o d).length = b.length := length_splice (by omega)
    rw [fillSlots]
    cases i with
    | zero =>
      rw [slice_fillSlots_disjoint ds hw' (by omega) (by omega), Nat.zero_mul, Nat.add_zero]
      have hs := slice_splice_same (b := b) (d := d) (o := o) (by omega)
      rwa [hd] at hs
    | succ i =>
      have he : o + (i + 1) * w = o + w + i * w := by ring
      rw [he, ih hw' (by omega) (by simpa using hi)]
      rfl

end FioXfs.Lib
