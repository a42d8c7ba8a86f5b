import FioXfs.Lib.Act
import FioXfs.Lib.Levels
set_option autoImplicit false

/-!
# Lib: walking a tree with a stack

A reader follows a tree from its root with a stack of the blocks still to read, each
with the level it must stand at.  The recursive traversal (`collect`) says what the
walk finds, whatever it checks of each block on the way.
-/

namespace FioXfs.Lib

variable {ε A R : Type}

/-- A walk over a stack of blocks, its top first: children go on before the rest, so
that the leftmost is read first.  `check` sees a block and those read before it, and
`out` is the failure of a walk that used up its fuel. -/
def walkStack (check : A → List A → Except ε Unit) (read : A → Nat → Except ε (Node A R))
    (out : A → ε) : Nat → List (A × Nat) → List R → List A → Except ε (List R × List A)
  | _, [], recs, blocks => return (recs, blocks)
  | 0, (a, _) :: _, _, _ => throw (out a)
  | fuel + 1, (a, want) :: stack, recs, blocks => do
      check a blocks
      match ← read a want with
      | .leaf rs => walkStack check read out fuel stack (recs ++ rs) (blocks ++ [a])
      | .node cs =>
          walkStack check read out fuel (cs.map (·, want - 1) ++ stack) recs (blocks ++ [a])

/-- The nodes that read without an error. -/
def nodeOf (read : A → Nat → Except ε (Node A R)) (a : A) (level : Nat) : Option (Node A R) :=
  (read a level).toOption

/-- What the blocks of a stack traverse to, one after another. -/
abbrev collectStack (read : A → Nat → Except ε (Node A R)) (stack : List (A × Nat)) :
    Option (List R × List A) :=
  collectList (fun p => collect (nodeOf read) p.2 p.1) stack

theorem nodeOf_eq_some {read : A → Nat → Except ε (Node A R)} {a : A} {level : Nat}
    {n : Node A R} : nodeOf read a level = some n ↔ read a level = .ok n := by
  unfold nodeOf
  cases read a level <;> simp [Except.toOption]

theorem collectList_map {B C : Type} {f : C → Option (List R × List A)} {g : B → C} :
    ∀ {bs : List B}, collectList f (bs.map g) = collectList (fun b => f (g b)) bs := by
  intro bs
  induction bs with
  | nil => rfl
  | cons b bs ih => rw [List.map_cons, collectList, collectList, ih]

/-- A walk over blocks that traverse, each passing its check, finds what they traverse
to, and reads their blocks in that order. -/
theorem walkStack_eq_ok {check : A → List A → Except ε Unit}
    {read : A → Nat → Except ε (Node A R)} {out : A → ε} :
    ∀ {fuel : Nat} {stack : List (A × Nat)} {recs rs : List R} {blocks bs : List A},
      collectStack read stack = some (rs, bs) → bs.length ≤ fuel →
      (∀ pre a post, bs = pre ++ a :: post → check a (blocks ++ pre) = .ok ()) →
      walkStack check read out fuel stack recs blocks = .ok (recs ++ rs, blocks ++ bs) := by
  intro fuel
  induction fuel with
  | zero =>
    intro stack recs rs blocks bs h hfuel _
    obtain rfl : bs = [] := List.length_eq_zero_iff.mp (by omega)
    cases stack with
    | nil =>
      obtain ⟨rfl, -⟩ := Prod.mk.inj (Option.some.inj h)
      simp [walkStack, pure, Except.pure]
    | cons p stack =>
      obtain ⟨r, b, _, _, hp, _, _, hb⟩ := collectList_cons.mp h
      have hmem := mem_of_collect hp
      rw [(List.append_eq_nil_iff.mp hb.symm).1] at hmem
      exact absurd hmem List.not_mem_nil
  | succ fuel ih =>
    intro stack recs rs blocks bs h hfuel hcheck
    cases stack with
    | nil =>
      obtain ⟨rfl, rfl⟩ := Prod.mk.inj (Option.some.inj h)
      simp [walkStack, pure, Except.pure]
    | cons p stack =>
      obtain ⟨a, want⟩ := p
      obtain ⟨r, b, rs', bs', hp, hstack, rfl, rfl⟩ := collectList_cons.mp h
      simp only at hp
      -- The block on top: its check, its contents, and what is left to walk.
      have hnext : ∀ pre x post, b ++ bs' = pre ++ x :: post →
          check x (blocks ++ pre) = .ok () := hcheck
      cases want with
      | zero =>
        rw [collect] at hp
        split at hp
        · rename_i rs0 hread
          obtain ⟨rfl, rfl⟩ := Prod.mk.inj (Option.some.inj hp)
          have hc := hnext [] a bs' rfl
          rw [List.append_nil] at hc
          rw [walkStack, hc, except_ok_bind, nodeOf_eq_some.mp hread, except_ok_bind]
          simp only
          rw [ih hstack (by simpa using hfuel) fun pre x post he => ?_]
          · simp
          · rw [List.append_assoc]
            exact hnext ([a] ++ pre) x post (by simp [he])
        · simp at hp
      | succ level =>
        rw [collect] at hp
        split at hp
        · rename_i cs hread
          obtain ⟨q, hcs, hq⟩ := Option.map_eq_some_iff.mp hp
          obtain ⟨rfl, rfl⟩ := Prod.mk.inj hq
          have hc := hnext [] a (q.2 ++ bs') rfl
          rw [List.append_nil] at hc
          rw [walkStack, hc, except_ok_bind, nodeOf_eq_some.mp hread, except_ok_bind]
          simp only [Nat.add_sub_cancel]
          have hnew : collectStack read (cs.map (·, level) ++ stack) =
              some (q.1 ++ rs', q.2 ++ bs') := by
            refine collectList_append.mpr ⟨q.1, q.2, rs', bs', ?_, hstack, rfl, rfl⟩
            rw [collectList_map]
            exact hcs
          rw [ih hnew (by simpa using hfuel) fun pre x post he => ?_]
          · simp
          · rw [List.append_assoc]
            exact hnext ([a] ++ pre) x post (by simp [he])
        · simp at hp

/-! ## The blocks a walk has read -/

section
variable {check : A → List A → Except ε Unit} {read read' : A → Nat → Except ε (Node A R)}
  {out : A → ε}

/-- The blocks already read come first. -/
theorem isPrefix_of_walkStack {fuel : Nat} : ∀ {stack : List (A × Nat)} {recs rs : List R}
    {blocks bs : List A}, walkStack check read out fuel stack recs blocks = .ok (rs, bs) →
      blocks <+: bs := by
  induction fuel with
  | zero =>
    intro stack recs rs blocks bs h
    cases stack with
    | nil => exact (Prod.mk.inj (Except.ok.inj h)).2 ▸ List.prefix_refl _
    | cons p stack => cases h
  | succ fuel ih =>
    intro stack recs rs blocks bs h
    cases stack with
    | nil => exact (Prod.mk.inj (Except.ok.inj h)).2 ▸ List.prefix_refl _
    | cons p stack =>
      obtain ⟨a, want⟩ := p
      rw [walkStack] at h
      obtain ⟨_, -, h⟩ := except_bind_eq_ok.mp h
      obtain ⟨n, -, h⟩ := except_bind_eq_ok.mp h
      cases n with
      | leaf rs0 => exact (List.prefix_append _ _).trans (ih h)
      | node cs => exact (List.prefix_append _ _).trans (ih h)

/-- A walk goes the same way where the blocks it reads are the same. -/
theorem walkStack_congr {fuel : Nat} : ∀ {stack : List (A × Nat)} {recs rs : List R}
    {blocks bs : List A}, walkStack check read out fuel stack recs blocks = .ok (rs, bs) →
      (∀ a ∈ bs, ∀ l, read' a l = read a l) →
      walkStack check read' out fuel stack recs blocks = .ok (rs, bs) := by
  induction fuel with
  | zero =>
    intro stack recs rs blocks bs h _
    cases stack with
    | nil => exact h
    | cons p stack => cases h
  | succ fuel ih =>
    intro stack recs rs blocks bs h hsame
    cases stack with
    | nil => exact h
    | cons p stack =>
      obtain ⟨a, want⟩ := p
      rw [walkStack] at h ⊢
      obtain ⟨_, hcheck, h⟩ := except_bind_eq_ok.mp h
      obtain ⟨n, hread, h⟩ := except_bind_eq_ok.mp h
      have hmem : a ∈ bs := by
        have hpre : blocks ++ [a] <+: bs := by
          cases n with
          | leaf rs0 => exact isPrefix_of_walkStack h
          | node cs => exact isPrefix_of_walkStack h
        exact hpre.subset (List.mem_append_right _ List.mem_cons_self)
      rw [hcheck, except_ok_bind, hsame a hmem, hread, except_ok_bind]
      cases n with
      | leaf rs0 => exact ih h hsame
      | node cs => exact ih h hsame

end

end FioXfs.Lib
