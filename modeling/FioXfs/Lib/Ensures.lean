import FioXfs.Lib.Search
set_option autoImplicit false

/-!
# Lib: what a computation that may fail ensures

A computation ensures a condition when it does not fail in one of the ways ruled out and a value
it returns meets the condition.  One rule for each way of putting computations together, and one
for changing what comes after a computation under the condition it ensures.
-/

namespace FioXfs.Lib

variable {ε α β : Type} {bad : ε → Prop}

/-- `x` does not fail as `bad` has it, and what it returns meets `Q`. -/
def Ensures (bad : ε → Prop) (x : Except ε α) (Q : α → Prop) : Prop :=
  (∀ e, x = .error e → ¬bad e) ∧ ∀ a, x = .ok a → Q a

theorem ensures_ok {a : α} {Q : α → Prop} (h : Q a) : Ensures bad (.ok a) Q := by
  refine ⟨fun e he => ?_, fun b hb => ?_⟩
  · cases he
  · rwa [← Except.ok.inj hb]

theorem ensures_pure {a : α} {Q : α → Prop} (h : Q a) :
    Ensures bad (pure a : Except ε α) Q := ensures_ok h

theorem ensures_error {e : ε} {Q : α → Prop} (h : ¬bad e) :
    Ensures bad (.error e : Except ε α) Q := by
  refine ⟨fun e' he => ?_, fun a ha => ?_⟩
  · rwa [← Except.error.inj he]
  · cases ha

theorem Ensures.mono {x : Except ε α} {Q R : α → Prop} (h : Ensures bad x Q)
    (hQR : ∀ a, Q a → R a) : Ensures bad x R :=
  ⟨h.1, fun a ha => hQR a (h.2 a ha)⟩

theorem Ensures.bind {x : Except ε α} {f : α → Except ε β} {Q : α → Prop} {R : β → Prop}
    (h : Ensures bad x Q) (hf : ∀ a, Q a → Ensures bad (f a) R) : Ensures bad (x >>= f) R := by
  cases x with
  | error e => exact ensures_error (h.1 e rfl)
  | ok a => exact hf a (h.2 a rfl)

theorem ensures_throwIf {c : Prop} [Decidable c] {e : ε} (h : ¬bad e) :
    Ensures bad (throwIf c e : Except ε Unit) fun _ => ¬c := by
  unfold throwIf
  split
  · exact ensures_error h
  · rename_i hc
    exact ensures_ok hc

theorem ensures_ite {c : Prop} [Decidable c] {x y : Except ε α} {Q : α → Prop}
    (hx : c → Ensures bad x Q) (hy : ¬c → Ensures bad y Q) :
    Ensures bad (if c then x else y) Q := by
  split
  · rename_i hc
    exact hx hc
  · rename_i hc
    exact hy hc

/-- What follows a computation may be changed where the computation ensures it is the same. -/
theorem Ensures.bind_congr {x : Except ε α} {f g : α → Except ε β} {Q : α → Prop}
    (h : Ensures bad x Q) (hfg : ∀ a, Q a → f a = g a) : (x >>= f) = (x >>= g) := by
  cases x with
  | error e => rfl
  | ok a => exact hfg a (h.2 a rfl)

/-! ## Lists -/

theorem mapM_congr {l : List α} {f g : α → Except ε β} (h : ∀ a ∈ l, f a = g a) :
    l.mapM f = l.mapM g := by
  induction l with
  | nil => rfl
  | cons a l ih =>
    rw [List.mapM_cons, List.mapM_cons, h a List.mem_cons_self,
      ih fun a' ha => h a' (List.mem_cons_of_mem _ ha)]

theorem ensures_mapM {l : List α} {f : α → Except ε β} {Q : β → Prop}
    (h : ∀ a ∈ l, Ensures bad (f a) Q) : Ensures bad (l.mapM f) fun bs => ∀ b ∈ bs, Q b := by
  induction l with
  | nil => exact ensures_pure fun b hb => absurd hb List.not_mem_nil
  | cons a l ih =>
    rw [List.mapM_cons]
    refine (h a List.mem_cons_self).bind fun b hb => ?_
    refine (ih fun a' ha => h a' (List.mem_cons_of_mem _ ha)).bind fun bs hbs => ensures_pure ?_
    intro c hc
    rcases List.mem_cons.mp hc with rfl | hc
    · exact hb
    · exact hbs c hc

/-- What each of `n` steps ensures of the count of those done. -/
theorem ensures_foldlM_range {f : β → Nat → Except ε β} {I : Nat → β → Prop} {n : Nat} {b : β}
    (h : ∀ k < n, ∀ b, I k b → Ensures bad (f b k) (I (k + 1))) (h0 : I 0 b) :
    Ensures bad ((List.range n).foldlM f b) (I n) := by
  induction n with
  | zero => exact ensures_pure h0
  | succ n ih =>
    rw [List.range_succ, List.foldlM_append]
    refine (ih fun k hk => h k (by omega)).bind fun b' hb' => ?_
    rw [List.foldlM_cons]
    exact (h n (by omega) b' hb').bind fun c hc => ensures_pure hc

/-! ## Binary search -/

variable {p : Nat → Except ε Bool}

/-- A binary search ends past where it starts, and not past where it stops. -/
theorem ensures_bisect (hp : ∀ i, Ensures bad (p i) fun _ => True) :
    ∀ {fuel first stop : Nat}, first ≤ stop →
      Ensures bad (bisect p fuel first stop) fun r => first ≤ r ∧ r ≤ stop := by
  intro fuel
  induction fuel with
  | zero =>
    intro first stop hle
    exact ensures_pure ⟨hle, le_refl _⟩
  | succ fuel ih =>
    intro first stop hle
    rw [bisect]
    refine ensures_ite (fun hmid => ?_) fun _ => ensures_pure ⟨hle, le_refl _⟩
    refine (hp _).bind fun b _ => ensures_ite (fun _ => ?_) fun _ => ?_
    · exact (ih (by omega)).mono fun r hr => by omega
    · exact (ih (by omega)).mono fun r hr => by omega

end FioXfs.Lib
