import Mathlib.Data.List.Basic
set_option autoImplicit false

/-!
# Lib: steps up to an error

Going through a list item by item, each item a few steps that may end in an error, which ends it
all.  What is done is the steps of the items before the one that fails, and a step done is a step
of an item that everything before it let through.  Who the steps are handed to may refuse one,
and then it is the last that is tried.
-/

namespace FioXfs.Lib

variable {σ β ε α τ : Type}

/-- Steps done, and the error that ended them. -/
@[ext]
structure Steps (ε α : Type) where
  done : List α
  error : Option ε

/-- An item of two lists one after the other is in the first or in the second. -/
theorem append_eq_append_cons {xs ys pre post : List α} {x : α} (h : xs ++ ys = pre ++ x :: post) :
    (∃ rest, xs = pre ++ x :: rest ∧ post = rest ++ ys) ∨
      ∃ rest, pre = xs ++ rest ∧ ys = rest ++ x :: post := by
  rcases List.append_eq_append_iff.mp h with ⟨rest, hpre, hys⟩ | ⟨rest, hxs, hrest⟩
  · exact Or.inr ⟨rest, hpre, hys⟩
  · cases rest with
    | nil =>
      rw [List.append_nil] at hxs
      exact Or.inr ⟨[], by rw [hxs, List.append_nil], hrest.symm⟩
    | cons y rest =>
      obtain ⟨rfl, hpost⟩ := List.cons.inj hrest
      exact Or.inl ⟨rest, hxs, hpost⟩

namespace Steps

/-- No steps. -/
def none : Steps ε α := ⟨[], .none⟩

/-- Steps before others, which are done when the first end well. -/
def andThen (s next : Steps ε α) : Steps ε α :=
  match s.error with
  | some e => ⟨s.done, some e⟩
  | .none => ⟨s.done ++ next.done, next.error⟩

theorem andThen_of_none {s : Steps ε α} (h : s.error = .none) (next : Steps ε α) :
    s.andThen next = ⟨s.done ++ next.done, next.error⟩ := by
  rw [andThen, h]

theorem andThen_of_some {s : Steps ε α} {e : ε} (h : s.error = some e) (next : Steps ε α) :
    s.andThen next = s := by
  rw [andThen, h]
  cases s
  exact congrArg _ h.symm

theorem andThen_error_none {s next : Steps ε α} :
    (s.andThen next).error = .none ↔ s.error = .none ∧ next.error = .none := by
  cases h : s.error with
  | none => rw [andThen_of_none h]; simp
  | some e => rw [andThen_of_some h, h]; simp

theorem andThen_assoc (s next last : Steps ε α) :
    (s.andThen next).andThen last = s.andThen (next.andThen last) := by
  cases h : s.error with
  | some e => rw [andThen_of_some h, andThen_of_some h, andThen_of_some h]
  | none =>
    rw [andThen_of_none h]
    cases hn : next.error with
    | some e =>
      rw [andThen_of_some hn, andThen_of_none h, andThen, hn]
    | none =>
      rw [andThen_of_none hn, andThen_of_none h, andThen_of_none rfl, List.append_assoc]

theorem mem_done_andThen {s next : Steps ε α} {x : α} (hx : x ∈ (s.andThen next).done) :
    x ∈ s.done ∨ x ∈ next.done := by
  unfold andThen at hx
  split at hx
  · exact Or.inl hx
  · exact List.mem_append.mp hx

/-! ## Steps that may be refused -/

/-- Steps tried by one who takes each or refuses it, from a state on. -/
def tried (take : τ → α → Option τ) (refused : ε) : τ → List α → Option ε → Steps ε α
  | _, [], error => ⟨[], error⟩
  | t, x :: xs, error =>
      match take t x with
      | .none => ⟨[x], some refused⟩
      | some t => andThen ⟨[x], .none⟩ (tried take refused t xs error)

/-- Steps handed over one after another, up to the first that is refused. -/
def handed (take : τ → α → Option τ) (refused : ε) (t : τ) (s : Steps ε α) : Steps ε α :=
  tried take refused t s.done s.error

section
variable {take : τ → α → Option τ} {refused : ε} {t : τ}

theorem foldlM_take_cons {x : α} {xs : List α} {t' : τ} : (x :: xs).foldlM take t = some t' ↔
    ∃ t1, take t x = some t1 ∧ xs.foldlM take t1 = some t' := by
  rw [List.foldlM_cons]
  exact Option.bind_eq_some_iff

theorem foldlM_take_append {xs ys : List α} {t' : τ} : (xs ++ ys).foldlM take t = some t' ↔
    ∃ t1, xs.foldlM take t = some t1 ∧ ys.foldlM take t1 = some t' := by
  rw [List.foldlM_append]
  exact Option.bind_eq_some_iff

/-- A step is tried exactly when all before it are taken. -/
theorem done_tried_iff {xs : List α} {error : Option ε} {pre : List α} {x : α} :
    (∃ post, (tried take refused t xs error).done = pre ++ x :: post) ↔
      (∃ post, xs = pre ++ x :: post) ∧ ∃ t', pre.foldlM take t = some t' := by
  induction xs generalizing t pre with
  | nil => simp [tried]
  | cons y ys ih =>
    have hnext : ∀ {t1 : τ}, take t y = some t1 → (tried take refused t (y :: ys) error).done =
        y :: (tried take refused t1 ys error).done := fun h => by
      rw [tried, h]
      rfl
    cases pre with
    | nil =>
      refine ⟨fun ⟨post, h⟩ => ⟨⟨ys, ?_⟩, t, rfl⟩, fun ⟨⟨post, h⟩, _⟩ => ?_⟩
      · cases hy : take t y with
        | none =>
          rw [tried, hy] at h
          rw [(List.cons.inj h).1]
          rfl
        | some t1 =>
          rw [hnext hy] at h
          rw [(List.cons.inj h).1]
          rfl
      · obtain ⟨rfl, -⟩ := List.cons.inj h
        cases hy : take t y with
        | none => exact ⟨[], by rw [tried, hy]; rfl⟩
        | some t1 => exact ⟨_, hnext hy⟩
    | cons p pre =>
      cases hy : take t y with
      | none =>
        refine ⟨fun ⟨post, h⟩ => ?_, fun ⟨⟨post, h⟩, t', ht⟩ => ?_⟩
        · rw [tried, hy] at h
          simp at h
        · obtain ⟨rfl, -⟩ := List.cons.inj h
          obtain ⟨t1, ht1, -⟩ := foldlM_take_cons.mp ht
          rw [hy] at ht1
          cases ht1
      | some t1 =>
        have hih := @ih t1 pre
        rw [hnext hy]
        constructor
        · rintro ⟨post, h⟩
          obtain ⟨rfl, hrest⟩ := List.cons.inj h
          obtain ⟨⟨post', hys⟩, t', ht⟩ := hih.mp ⟨post, hrest⟩
          exact ⟨⟨post', by rw [hys]; rfl⟩, t', foldlM_take_cons.mpr ⟨t1, hy, ht⟩⟩
        · rintro ⟨⟨post, h⟩, t', ht⟩
          obtain ⟨rfl, hrest⟩ := List.cons.inj h
          obtain ⟨t2, ht2, ht⟩ := foldlM_take_cons.mp ht
          obtain rfl := Option.some.inj (hy.symm.trans ht2)
          obtain ⟨post', hdone⟩ := hih.mpr ⟨⟨post, hrest⟩, t', ht⟩
          exact ⟨post', by rw [hdone]; rfl⟩

/-- A step is tried exactly when it is among those handed over and all before it are taken. -/
theorem done_handed_iff {s : Steps ε α} {pre : List α} {x : α} :
    (∃ post, (s.handed take refused t).done = pre ++ x :: post) ↔
      (∃ post, s.done = pre ++ x :: post) ∧ ∃ t', pre.foldlM take t = some t' :=
  done_tried_iff

end

/-! ## Item by item -/

section
variable (one : σ → β → σ × Steps ε α)

/-- Go through a list from a state. -/
def run : σ → List β → Steps ε α
  | _, [] => none
  | s, b :: bs => (one s b).2.andThen (run (one s b).1 bs)

/-- The state after a list, when nothing fails. -/
def after : σ → List β → σ
  | s, [] => s
  | s, b :: bs => after (one s b).1 bs

variable {one} {s : σ}

theorem run_cons_of_none {b : β} (h : (one s b).2.error = .none) (bs : List β) :
    run one s (b :: bs) =
      ⟨(one s b).2.done ++ (run one (one s b).1 bs).done, (run one (one s b).1 bs).error⟩ :=
  andThen_of_none h _

/-- A list whose first part ends well. -/
theorem run_append {as bs : List β} (h : (run one s as).error = .none) :
    run one s (as ++ bs) =
      ⟨(run one s as).done ++ (run one (after one s as) bs).done,
        (run one (after one s as) bs).error⟩ := by
  induction as generalizing s with
  | nil => rfl
  | cons a as ih =>
    obtain ⟨ha, has⟩ := andThen_error_none.mp h
    rw [List.cons_append, run_cons_of_none ha, ih has, run_cons_of_none ha, List.append_assoc]
    rfl

theorem run_concat (as : List β) (b : β) :
    run one s (as ++ [b]) = (run one s as).andThen (one (after one s as) b).2 := by
  induction as generalizing s with
  | nil =>
    change (one s b).2.andThen none = andThen none (one s b).2
    cases h : (one s b).2.error with
    | some e => rw [andThen_of_some h, andThen_of_none rfl]; rfl
    | none =>
      rw [andThen_of_none h, andThen_of_none rfl]
      simp only [none, List.append_nil, List.nil_append, ← h]
  | cons a as ih =>
    change (one s a).2.andThen (run one (one s a).1 (as ++ [b])) = _
    rw [ih, ← andThen_assoc]
    rfl

/-- A step done is a step of an item that is come to. -/
theorem exists_of_done {bs : List β} {xs ys : List α} {x : α}
    (h : (run one s bs).done = xs ++ x :: ys) : ∃ as b cs pre post, bs = as ++ b :: cs ∧
      (run one s as).error = .none ∧ (one (after one s as) b).2.done = pre ++ x :: post ∧
      xs = (run one s as).done ++ pre := by
  induction bs generalizing s xs with
  | nil => simp [run, none] at h
  | cons b bs ih =>
    cases hb : (one s b).2.error with
    | some e =>
      rw [run, andThen_of_some hb] at h
      exact ⟨[], b, bs, xs, ys, rfl, rfl, h, rfl⟩
    | none =>
      rw [run_cons_of_none hb] at h
      rcases append_eq_append_cons h with ⟨rest, hdone, -⟩ | ⟨rest, hxs, hrest⟩
      · exact ⟨[], b, bs, xs, rest, rfl, rfl, hdone, rfl⟩
      · obtain ⟨as, c, cs, pre, post, rfl, has, hc, hpre⟩ := ih hrest
        refine ⟨b :: as, c, cs, pre, post, rfl, ?_, hc, ?_⟩
        · exact andThen_error_none.mpr ⟨hb, has⟩
        · rw [run_cons_of_none hb, hxs, hpre, List.append_assoc]

/-- The steps of an item that is come to are done. -/
theorem done_of_reached {as cs : List β} {b : β} (h : (run one s as).error = .none) :
    ∃ ys, (run one s (as ++ b :: cs)).done =
      (run one s as).done ++ ((one (after one s as) b).2.done ++ ys) := by
  rw [run_append h]
  cases hb : (one (after one s as) b).2.error with
  | some e => exact ⟨[], by rw [run, andThen_of_some hb, List.append_nil]⟩
  | none => exact ⟨_, by rw [run_cons_of_none hb]⟩

/-- What the items keep, the state after them has. -/
theorem after_invariant {inv : List β → σ → List α → Prop} (h0 : inv [] s [])
    (hstep : ∀ as b t xs, inv as t xs → (one t b).2.error = .none →
      inv (as ++ [b]) (one t b).1 (xs ++ (one t b).2.done)) {as : List β}
    (h : (run one s as).error = .none) : inv as (after one s as) (run one s as).done := by
  have hfrom : ∀ (bs as : List β) (t : σ) (xs : List α), inv as t xs →
      (run one t bs).error = .none → inv (as ++ bs) (after one t bs) (xs ++ (run one t bs).done) := by
    intro bs
    induction bs with
    | nil =>
      intro as t xs hinv _
      rw [List.append_nil]
      exact (List.append_nil xs).symm ▸ hinv
    | cons b bs ih =>
      intro as t xs hinv herr
      obtain ⟨hb, hbs⟩ := andThen_error_none.mp herr
      have := ih (as ++ [b]) (one t b).1 _ (hstep as b t xs hinv hb) hbs
      rw [List.append_assoc, List.append_assoc, List.singleton_append] at this
      rw [run_cons_of_none hb]
      exact this
  exact hfrom as [] s [] h0 h

end

end Steps

end FioXfs.Lib
