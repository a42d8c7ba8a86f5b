import FioXfs.Lib.Numeral
set_option autoImplicit false

/-!
# Lib: blocks laid out in fields

A block of zeroes with bytes written at the start of each of its fields, fields that lie apart.
A field reads back as what was written there and the zeroes after it, and text in it up to its
first zero.
-/

namespace FioXfs.Lib

/-- Fields, each with its offset, its width and what is written at its start. -/
abbrev Fields := List (Nat × Nat × Bytes)

/-- A block with every field written. -/
def writeFields (b : Bytes) (fields : Fields) : Bytes := patch b (fields.map fun f => (f.1, f.2.2))

/-- Fields that lie apart inside `n` bytes, none with more than fits. -/
structure LaidOut (n : Nat) (fields : Fields) : Prop where
  apart : fields.Pairwise fun f g => f.1 + f.2.1 ≤ g.1 ∨ g.1 + g.2.1 ≤ f.1
  inside : ∀ f ∈ fields, f.1 + f.2.1 ≤ n
  narrow : ∀ f ∈ fields, f.2.2.length ≤ f.2.1

theorem slice_add {α : Type} (b : List α) (o m n : Nat) :
    slice b o (m + n) = slice b o m ++ slice b (o + m) n := by
  rw [slice, slice, slice, List.take_add, List.drop_drop]

theorem slice_replicate {α : Type} {len o n : Nat} (x : α) (h : o + n ≤ len) :
    slice (List.replicate len x) o n = List.replicate n x := by
  rw [slice, List.drop_replicate, List.take_replicate, Nat.min_eq_left (by omega)]

section
variable {b : Bytes} {fields : Fields}

theorem LaidOut.fits (h : LaidOut b.length fields) :
    Fits b.length (fields.map fun f => (f.1, f.2.2)) := by
  intro p hp
  obtain ⟨f, hf, rfl⟩ := List.mem_map.mp hp
  have hinside := h.inside f hf
  have hnarrow := h.narrow f hf
  dsimp only
  omega

theorem length_writeFields (h : LaidOut b.length fields) : (writeFields b fields).length = b.length :=
  length_patch h.fits

/-- What no field meets stays. -/
theorem slice_writeFields_clear (h : LaidOut b.length fields) {o n : Nat}
    (hclear : ∀ f ∈ fields, o + n ≤ f.1 ∨ f.1 + f.2.1 ≤ o) :
    slice (writeFields b fields) o n = slice b o n := by
  refine slice_patch_clear h.fits fun p hp => ?_
  obtain ⟨f, hf, rfl⟩ := List.mem_map.mp hp
  have hnarrow := h.narrow f hf
  have hc := hclear f hf
  dsimp only
  omega

/-- A field reads back, with what was there before after it. -/
theorem slice_writeFields (h : LaidOut b.length fields) {o w : Nat} {d : Bytes}
    (hm : (o, w, d) ∈ fields) :
    slice (writeFields b fields) o w = d ++ slice b (o + d.length) (w - d.length) := by
  have hwide := h.narrow _ hm
  have hfits := h.fits
  obtain ⟨fs, gs, rfl⟩ := List.append_of_mem hm
  have hapart := h.apart
  rw [List.pairwise_append, List.pairwise_cons] at hapart
  obtain ⟨-, ⟨hafter, -⟩, hbefore⟩ := hapart
  have hw : w = d.length + (w - d.length) := by
    dsimp only at hwide
    omega
  have hnarrow : ∀ f ∈ fs ++ (o, w, d) :: gs, f.2.2.length ≤ f.2.1 := h.narrow
  conv => lhs; rw [hw, slice_add]
  rw [writeFields]
  rw [List.map_append, List.map_cons] at hfits ⊢
  congr 1
  · refine slice_patch _ hfits rfl fun p hp => ?_
    obtain ⟨g, hg, rfl⟩ := List.mem_map.mp hp
    have hgn := hnarrow g (List.mem_append_right _ (List.mem_cons_of_mem _ hg))
    have hga := hafter g hg
    dsimp only at hga ⊢
    omega
  · refine slice_patch_clear hfits fun p hp => ?_
    rcases List.mem_append.mp hp with hp | hp
    · obtain ⟨f, hf, rfl⟩ := List.mem_map.mp hp
      have hfn := hnarrow f (List.mem_append_left _ hf)
      have hfa := hbefore f hf _ List.mem_cons_self
      dsimp only at hfa ⊢
      omega
    · rcases List.mem_cons.mp hp with rfl | hp
      · exact Or.inr (le_refl _)
      · obtain ⟨g, hg, rfl⟩ := List.mem_map.mp hp
        have hgn := hnarrow g (List.mem_append_right _ (List.mem_cons_of_mem _ hg))
        have hga := hafter g hg
        dsimp only at hga ⊢
        omega

end

/-- A longer write over a shorter one leaves nothing of it. -/
theorem splice_splice_over {α : Type} {b d d' : List α} {o : Nat} (h : o ≤ b.length)
    (hl : d.length ≤ d'.length) : splice (splice b o d) o d' = splice b o d' := by
  have hle : o ≤ (splice b o d).length := by
    simp only [splice, List.length_append, List.length_take, List.length_drop]
    omega
  apply List.ext_getElem?
  intro i
  rw [getElem?_splice hle, getElem?_splice h, getElem?_splice h]
  split_ifs with h1 h2 h3
  · rfl
  · rfl
  · omega
  · rfl

/-! ## Text in a field -/

/-- The text in a field, up to its first zero. -/
def textAt (b : Bytes) (o w : Nat) : Bytes := (slice b o w).takeWhile (· ≠ 0)

/-- The number in a field, blank when nothing was written there. -/
def numberAt (base : Nat) (b : Bytes) (o w : Nat) : Option Nat := valueOf base (textAt b o w)

theorem takeWhile_text {d e : Bytes} (hd : (0 : UInt8) ∉ d) (he : e.takeWhile (· ≠ 0) = []) :
    (d ++ e).takeWhile (fun b => decide (b ≠ 0)) = d := by
  have hall : ∀ b ∈ d, decide (b ≠ 0) = true := fun b hb => decide_eq_true fun heq => hd (heq ▸ hb)
  rw [List.takeWhile_append_of_pos hall, he, List.append_nil]

theorem takeWhile_replicate_zero (n : Nat) :
    (List.replicate n (0 : UInt8)).takeWhile (fun b => decide (b ≠ 0)) = [] := by
  cases n with
  | zero => rfl
  | succ n => rw [List.replicate_succ, List.takeWhile_cons_of_neg (by simp)]

section
variable {base : Nat}

theorem zero_notMem_padded (hb : 2 ≤ base) (hb' : base ≤ 10) (width n : Nat) :
    (0 : UInt8) ∉ padded base width n := by
  have hno : ∀ d < base, (0 : UInt8) ≠ digit d := fun d hd h => by
    have := congrArg UInt8.toNat h
    rw [toNat_digit (by omega), UInt8.toNat_zero] at this
    omega
  intro h
  rcases List.mem_append.mp h with h | h
  · exact hno 0 (by omega) (List.eq_of_mem_replicate h)
  · obtain ⟨d, hd, heq⟩ := mem_numeral hb h
    exact hno d hd heq

theorem length_padded (hb : 2 ≤ base) {width n : Nat} (hw : 1 ≤ width) (h : n < base ^ width) :
    (padded base width n).length = width := by
  have hle := (length_numeral_le_iff hb hw).mpr h
  rw [padded, List.length_append, List.length_replicate]
  omega

end

end FioXfs.Lib
