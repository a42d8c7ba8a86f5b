import FioXfs.Alloc
set_option autoImplicit false

/-!
# Merging reverse mappings

`merged_rmap` folds the mappings, in order, into the records the kernel would keep.
As a recursion it extends one record as far as it goes and starts over, unless an end on
the way does not fit in 32 bits; what that leaves is never longer than the list, and one
more mapping makes at most two more records of it.
-/

namespace FioXfs.Alloc

open FioXfs.Lib FioXfs.Btree

namespace Rmap

/-- The record extended by a following one. -/
def extend (r next : Rmap) : Rmap := { r with len := r.len + next.len }

theorem joins_iff {r next : Rmap} : r.joins next = true ↔
    r.owner = next.owner ∧ r.stop = next.start ∧ r.len + next.len ≤ 2 ^ 32 - 1 ∧
      (r.inodeOwned = true → r.flags = next.flags ∧
        (r.isBmbt = false → r.offset % OFF_LIMIT + r.len = next.offset % OFF_LIMIT)) := by
  unfold joins
  split
  · rename_i h
    simp only [Bool.or_eq_true, bne_iff_ne, decide_eq_true_eq] at h
    simp only [Bool.false_eq_true, false_iff]
    rintro ⟨h1, h2, h3, _⟩
    rcases h with (h | h) | h
    · exact h h1
    · exact h h2
    · omega
  · rename_i h
    simp only [Bool.or_eq_true, bne_iff_ne, decide_eq_true_eq, not_or, not_not, not_lt] at h
    obtain ⟨⟨h1, h2⟩, h3 : r.len + next.len ≤ 4294967295⟩ := h
    cases hi : r.inodeOwned with
    | false => simp [h1, h2, h3]
    | true =>
      by_cases hf : r.flags = next.flags
      · cases hb : r.isBmbt <;> simp [h1, h2, h3, hf]
      · simp [h1, h2, hf]

theorem isBmbt_of_flags {r next : Rmap} (h : r.flags = next.flags) : r.isBmbt = next.isBmbt := by
  have hb : ∀ n : Nat, n.testBit 62 = (n / 2 ^ 54).testBit 8 := fun n => by
    rw [Nat.testBit_div_two_pow]
  unfold isBmbt
  rw [hb, hb]
  exact congrArg (·.testBit 8) h

theorem inodeOwned_of_owner {r next : Rmap} (h : r.owner = next.owner) :
    r.inodeOwned = next.inodeOwned := by
  unfold inodeOwned
  rw [h]

/-- The fields of a mapping are words of the record's widths. -/
structure Stored (r : Rmap) : Prop where
  start : r.start < 2 ^ 32
  len : r.len < 2 ^ 32
  owner : r.owner < 2 ^ 64
  offset : r.offset < 2 ^ 64

/-- `y` is the end of `w`: whatever continues `w` continues `y`. -/
structure TailOf (y w : Rmap) : Prop where
  owner : w.owner = y.owner
  stop : w.stop = y.stop
  len : y.len ≤ w.len
  inode : w.inodeOwned = true → w.flags = y.flags ∧
    (w.isBmbt = false → w.offset % OFF_LIMIT + w.len = y.offset % OFF_LIMIT + y.len)

theorem TailOf.joins {y w z : Rmap} (h : TailOf y w) (hz : w.joins z = true) :
    y.joins z = true := by
  rw [joins_iff] at hz ⊢
  obtain ⟨h1, h2, h3, h4⟩ := hz
  have hlen := h.len
  refine ⟨h.owner ▸ h1, h.stop ▸ h2, by omega, fun hi => ?_⟩
  rw [← inodeOwned_of_owner h.owner] at hi
  obtain ⟨hf, ho⟩ := h4 hi
  obtain ⟨hf', ho'⟩ := h.inode hi
  refine ⟨hf' ▸ hf, fun hb => ?_⟩
  rw [← isBmbt_of_flags hf'] at hb
  rw [← ho hb, ho' hb]

theorem TailOf.extend {y w : Rmap} (h : TailOf y w) (z : Rmap) :
    TailOf (y.extend z) (w.extend z) := by
  have hstop := h.stop
  have hlen := h.len
  unfold Rmap.stop at hstop
  refine ⟨h.owner, ?_, ?_, fun hi => ⟨(h.inode hi).1, fun hb => ?_⟩⟩
  · simp only [Rmap.extend, Rmap.stop]
    omega
  · simp only [Rmap.extend]
    omega
  · have := (h.inode hi).2 hb
    simp only [Rmap.extend]
    omega

/-- A record merged onto another is its end. -/
theorem tailOf_of_joins {w y : Rmap} (h : w.joins y = true) : TailOf y (w.extend y) := by
  obtain ⟨h1, h2, h3, h4⟩ := joins_iff.mp h
  refine ⟨h1, ?_, ?_, fun hi => ⟨(h4 hi).1, fun hb => ?_⟩⟩
  · simp only [Rmap.extend, Rmap.stop] at h2 ⊢
    omega
  · simp only [Rmap.extend]
    omega
  · have := (h4 hi).2 hb
    simp only [Rmap.extend]
    omega

end Rmap

/-! ## The fold as a recursion -/

/-- `last`, extended as far as the list allows, and the rest merged. -/
def mergeFrom (last : Rmap) : List Rmap → List Rmap
  | [] => [last]
  | r :: rs => if last.joins r then mergeFrom (last.extend r) rs else last :: mergeFrom r rs

/-- The whole list merged. -/
def mergeList : List Rmap → List Rmap
  | [] => []
  | r :: rs => mergeFrom r rs

/-- The records merged. -/
def merged (rmap : OrdSet Rmap) : List Rmap := mergeList rmap.keys

/-- The ends that merging looks at fit in 32 bits: those of records that are followed by one of
the same owner. -/
def EndsFit (rs : List Rmap) : Prop := rs.IsChain fun a b => a.owner = b.owner → a.stop < 2 ^ 32

instance (rs : List Rmap) : Decidable (EndsFit rs) := inferInstanceAs (Decidable (List.IsChain _ _))

theorem mergesWith_eq (r next : Rmap) : r.mergesWith next =
    if r.owner = next.owner ∧ 2 ^ 32 ≤ r.stop then .error (.panic "attempt to add with overflow")
    else .ok (r.joins next) := by
  unfold Rmap.mergesWith Rmap.end_
  by_cases ho : r.owner = next.owner
  · rw [if_neg (not_not.mpr ho)]
    by_cases hs : 2 ^ 32 ≤ r.stop
    · rw [if_pos ⟨ho, hs⟩, except_throwIf_bind_of hs]
      rfl
    · rw [if_neg fun h => hs h.2, except_throwIf_bind_of_not hs]
      rfl
  · rw [if_pos ho, if_neg fun h => ho h.1]
    have hno : r.joins next = false := by
      unfold Rmap.joins
      rw [if_pos (by simp [ho])]
    rw [hno]
    rfl

theorem mergeStep_eq (out : List Rmap) (last r : Rmap) : mergeStep (out ++ [last]) r =
    if last.owner = r.owner ∧ 2 ^ 32 ≤ last.stop then .error (.panic "attempt to add with overflow")
    else .ok (if last.joins r then out ++ [last.extend r] else out ++ [last] ++ [r]) := by
  unfold mergeStep
  simp only [List.getLast?_append, List.getLast?_singleton, Option.some_or, List.dropLast_concat]
  rw [mergesWith_eq]
  split
  · rfl
  · rw [except_ok_bind]
    cases last.joins r <;> rfl

/-- What has been merged so far ends as the last record `y` of it does. -/
theorem foldlM_mergeStep : ∀ {rs out : List Rmap} {last y : Rmap}, last.owner = y.owner →
    last.stop = y.stop → rs.foldlM mergeStep (out ++ [last]) =
      if EndsFit (y :: rs) then .ok (out ++ mergeFrom last rs)
      else .error (.panic "attempt to add with overflow") := by
  intro rs
  induction rs with
  | nil =>
    intro out last y _ _
    rw [if_pos (show EndsFit [y] from .singleton y)]
    rfl
  | cons r rs ih =>
    intro out last y howner hstop
    rw [List.foldlM_cons, mergeStep_eq, howner, hstop]
    by_cases hover : y.owner = r.owner ∧ 2 ^ 32 ≤ y.stop
    · have hnot : ¬EndsFit (y :: r :: rs) := fun h =>
        absurd ((List.isChain_cons_cons.mp h).1 hover.1) (not_lt.mpr hover.2)
      rw [if_pos hover, if_neg hnot]
      rfl
    · have hchain : EndsFit (y :: r :: rs) ↔ EndsFit (r :: rs) := by
        refine List.isChain_cons_cons.trans (and_iff_right fun ho => ?_)
        exact not_le.mp fun hs => hover ⟨ho, hs⟩
      rw [if_neg hover, except_ok_bind, mergeFrom]
      simp only [hchain]
      split
      · rename_i hjoin
        have hj := Rmap.joins_iff.mp hjoin
        refine ih (y := r) ?_ ?_
        · exact hj.1
        · have hs := hj.2.1
          simp only [Rmap.extend, Rmap.stop] at hs ⊢
          omega
      · rw [@ih (out ++ [last]) r r rfl rfl, List.append_assoc, List.singleton_append]

/-- Merging stops the program at an end that does not fit, and is the recursion otherwise. -/
theorem mergedRmap_eq (rmap : OrdSet Rmap) : mergedRmap rmap =
    if EndsFit rmap.keys then .ok (merged rmap)
    else .error (.panic "attempt to add with overflow") := by
  unfold mergedRmap merged
  cases rmap.keys with
  | nil =>
    rw [if_pos (show EndsFit [] from .nil)]
    rfl
  | cons r rs => exact @foldlM_mergeStep rs [] r r rfl rfl

theorem mergedRmap_eq_ok {rmap : OrdSet Rmap} {rs : List Rmap} :
    mergedRmap rmap = .ok rs ↔ EndsFit rmap.keys ∧ rs = merged rmap := by
  rw [mergedRmap_eq]
  by_cases h : EndsFit rmap.keys
  · rw [if_pos h, Except.ok.injEq, and_iff_right h, eq_comm]
  · rw [if_neg h]
    exact iff_of_false (by simp) fun hk => h hk.1

theorem mergedRmap_eq_error {rmap : OrdSet Rmap} {e : Error} (h : mergedRmap rmap = .error e) :
    ¬EndsFit rmap.keys ∧ e = .panic "attempt to add with overflow" := by
  rw [mergedRmap_eq] at h
  split at h
  · cases h
  · rename_i hfit
    exact ⟨hfit, (Except.error.inj h).symm⟩

theorem endsFit_of_forall {rs : List Rmap} (h : ∀ r ∈ rs, r.stop < 2 ^ 32) : EndsFit rs :=
  List.isChain_iff_getElem.mpr fun _ _ _ => h _ (List.getElem_mem _)

/-- Mappings none of which continues the one before are kept as they are. -/
theorem mergeFrom_of_apart : ∀ {rs : List Rmap} {last : Rmap},
    (last :: rs).IsChain (fun a b => a.joins b = false) → mergeFrom last rs = last :: rs := by
  intro rs
  induction rs with
  | nil => intro last _; rfl
  | cons r rs ih =>
    intro last h
    obtain ⟨h1, h2⟩ := List.isChain_cons_cons.mp h
    rw [mergeFrom, h1, if_neg (by simp), ih h2]

/-! ## How many records are left -/

/-- Starting from the end of a record instead of the whole of it. -/
theorem length_mergeFrom_tailOf : ∀ {rs : List Rmap} {y w : Rmap}, Rmap.TailOf y w →
    (mergeFrom y rs).length ≤ (mergeFrom w rs).length ∧
      (mergeFrom w rs).length ≤ (mergeFrom y rs).length + 1 := by
  intro rs
  induction rs with
  | nil => intro y w _; simp [mergeFrom]
  | cons z rs ih =>
    intro y w h
    simp only [mergeFrom]
    by_cases hw : w.joins z = true
    · rw [if_pos hw, if_pos (h.joins hw)]
      exact ih (h.extend z)
    · rw [if_neg hw]
      by_cases hy : y.joins z = true
      · -- Only the length limit stops `w` where `y` goes on.
        rw [if_pos hy]
        have := ih (Rmap.tailOf_of_joins hy)
        simp only [List.length_cons]
        omega
      · rw [if_neg hy]
        simp

theorem length_mergeFrom_cons (a y : Rmap) (rs : List Rmap) :
    (mergeFrom y rs).length ≤ (mergeFrom a (y :: rs)).length ∧
      (mergeFrom a (y :: rs)).length ≤ (mergeFrom y rs).length + 1 := by
  rw [mergeFrom]
  split
  · rename_i h
    exact length_mergeFrom_tailOf (Rmap.tailOf_of_joins h)
  · simp

/-- One more mapping, wherever it falls. -/
theorem length_mergeFrom_insert : ∀ {l1 l2 : List Rmap} {a x : Rmap},
    (mergeFrom a (l1 ++ x :: l2)).length ≤ (mergeFrom a (l1 ++ l2)).length + 2 ∧
      (mergeFrom a (l1 ++ l2)).length ≤ (mergeFrom a (l1 ++ x :: l2)).length + 1 := by
  intro l1
  induction l1 with
  | nil =>
    intro l2 a x
    have h1 := length_mergeFrom_cons a x l2
    cases l2 with
    | nil =>
      simp only [List.nil_append, mergeFrom] at h1 ⊢
      simp only [List.length_singleton] at h1 ⊢
      omega
    | cons y l2 =>
      have h2 := length_mergeFrom_cons x y l2
      have h3 := length_mergeFrom_cons a y l2
      simp only [List.nil_append]
      omega
  | cons r l1 ih =>
    intro l2 a x
    simp only [List.cons_append, mergeFrom]
    split
    · exact ih
    · simp only [List.length_cons]
      have := @ih l2 r x
      omega

theorem length_merged_insert (rmap : OrdSet Rmap) (r : Rmap) :
    (merged (rmap.insert r ())).length ≤ (merged rmap).length + 2 ∧
      (merged rmap).length ≤ (merged (rmap.insert r ())).length + 1 := by
  unfold merged
  rcases rmap.keys_insert r () with h | ⟨l1, l2, h, h'⟩
  · rw [h]
    exact ⟨Nat.le_add_right _ _, Nat.le_add_right _ _⟩
  · rw [h, h']
    cases l1 with
    | nil =>
      cases l2 with
      | nil => simp [mergeList, mergeFrom]
      | cons y l2 =>
        have := length_mergeFrom_cons r y l2
        simp only [List.nil_append, mergeList]
        omega
    | cons a l1 => exact length_mergeFrom_insert

end FioXfs.Alloc
