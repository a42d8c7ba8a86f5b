import Mathlib.Logic.Basic
import Mathlib.Logic.Relation
set_option autoImplicit false

/-!
# Lib: failing state transformers

A method that takes its object by mutable reference and may fail leaves the
object changed as far as it got.  `EStateM` is that: both outcomes carry a state.
The lemmas take a sequence of steps apart at its binds, so that a proof about a
method never unfolds the monad, and carry an invariant along runs of a relation.
-/

namespace FioXfs.Lib

variable {ε σ α β : Type}

/-- Run a computation that only fails inside one that also has a state. -/
def liftE (x : Except ε α) : EStateM ε σ α := fun s =>
  match x with
  | .ok a => .ok a s
  | .error e => .error e s

/-- Stop with `e` when `c` holds. -/
def throwIf {m : Type → Type} [Monad m] [MonadExceptOf ε m] (c : Prop) [Decidable c] (e : ε) :
    m Unit :=
  if c then throw e else pure ()

/-- The state an outcome leaves. -/
def outState : EStateM.Result ε σ α → σ
  | .ok _ s => s
  | .error _ s => s

theorem bind_eq_ok {x : EStateM ε σ α} {f : α → EStateM ε σ β} {s t : σ} {b : β} :
    (x >>= f) s = .ok b t ↔ ∃ a u, x s = .ok a u ∧ f a u = .ok b t := by
  change EStateM.bind x f s = .ok b t ↔ _
  unfold EStateM.bind
  cases x s with
  | ok a u =>
    constructor
    · exact fun h => ⟨a, u, rfl, h⟩
    · rintro ⟨_, _, ⟨⟩, h⟩
      exact h
  | error e u => simp

theorem bind_eq_error {x : EStateM ε σ α} {f : α → EStateM ε σ β} {s t : σ} {e : ε} :
    (x >>= f) s = .error e t ↔
      x s = .error e t ∨ ∃ a u, x s = .ok a u ∧ f a u = .error e t := by
  change EStateM.bind x f s = .error e t ↔ _
  unfold EStateM.bind
  cases x s with
  | ok a u =>
    constructor
    · exact fun h => Or.inr ⟨a, u, rfl, h⟩
    · rintro (h | ⟨_, _, ⟨⟩, h⟩)
      · exact absurd h (by simp)
      · exact h
  | error e' u => simp

theorem bind_of_ok {x : EStateM ε σ α} {f : α → EStateM ε σ β} {s u : σ} {a : α}
    (h : x s = .ok a u) : (x >>= f) s = f a u := by
  change EStateM.bind x f s = _
  simp [EStateM.bind, h]

theorem bind_of_error {x : EStateM ε σ α} {f : α → EStateM ε σ β} {s u : σ} {e : ε}
    (h : x s = .error e u) : (x >>= f) s = .error e u := by
  change EStateM.bind x f s = _
  simp [EStateM.bind, h]

@[simp] theorem pure_apply (a : α) (s : σ) : (pure a : EStateM ε σ α) s = .ok a s := rfl

@[simp] theorem get_apply (s : σ) : (get : EStateM ε σ σ) s = .ok s s := rfl

@[simp] theorem set_apply (s t : σ) : (set t : EStateM ε σ PUnit) s = .ok ⟨⟩ t := rfl

@[simp] theorem modify_apply (f : σ → σ) (s : σ) :
    (modify f : EStateM ε σ PUnit) s = .ok ⟨⟩ (f s) := rfl

@[simp] theorem throw_apply (e : ε) (s : σ) : (throw e : EStateM ε σ α) s = .error e s := rfl

@[simp] theorem get_bind_apply (f : σ → EStateM ε σ β) (s : σ) :
    ((get : EStateM ε σ σ) >>= f) s = f s s := rfl

@[simp] theorem pure_bind_apply (a : α) (f : α → EStateM ε σ β) (s : σ) :
    ((pure a : EStateM ε σ α) >>= f) s = f a s := rfl

@[simp] theorem set_bind_apply (t : σ) (f : PUnit → EStateM ε σ β) (s : σ) :
    ((set t : EStateM ε σ PUnit) >>= f) s = f ⟨⟩ t := rfl

@[simp] theorem throw_bind_apply (e : ε) (f : α → EStateM ε σ β) (s : σ) :
    ((throw e : EStateM ε σ α) >>= f) s = .error e s := rfl

theorem liftE_eq_ok {x : Except ε α} {s t : σ} {a : α} :
    (liftE x : EStateM ε σ α) s = .ok a t ↔ x = .ok a ∧ s = t := by
  cases x <;> simp [liftE]

theorem liftE_eq_error {x : Except ε α} {s t : σ} {e : ε} :
    (liftE x : EStateM ε σ α) s = .error e t ↔ x = .error e ∧ s = t := by
  cases x <;> simp [liftE]

/-! ## Parts of a state, and recovering -/

/-- Run a method of a part of the state. -/
def zoom {τ : Type} (get : σ → τ) (set : τ → σ → σ) (x : EStateM ε τ α) : EStateM ε σ α := fun s =>
  match x (get s) with
  | .ok a t => .ok a (set t s)
  | .error e t => .error e (set t s)

/-- Run `handle` on a failure, in the state the failure left. -/
def recover (x : EStateM ε σ α) (handle : ε → EStateM ε σ α) : EStateM ε σ α := fun s =>
  match x s with
  | .ok a t => .ok a t
  | .error e t => handle e t

section
variable {τ : Type} {get : σ → τ} {set : τ → σ → σ}

theorem zoom_eq_ok {x : EStateM ε τ α} {s s' : σ} {a : α} :
    zoom get set x s = .ok a s' ↔ ∃ t, x (get s) = .ok a t ∧ s' = set t s := by
  unfold zoom
  cases x (get s) with
  | ok b t =>
    constructor
    · intro h
      obtain ⟨rfl, rfl⟩ := EStateM.Result.ok.inj h
      exact ⟨t, rfl, rfl⟩
    · rintro ⟨_, h, rfl⟩
      obtain ⟨rfl, rfl⟩ := EStateM.Result.ok.inj h
      rfl
  | error e t => simp

theorem zoom_eq_error {x : EStateM ε τ α} {s s' : σ} {e : ε} :
    zoom get set x s = .error e s' ↔ ∃ t, x (get s) = .error e t ∧ s' = set t s := by
  unfold zoom
  cases x (get s) with
  | ok b t => simp
  | error e' t =>
    constructor
    · intro h
      obtain ⟨rfl, rfl⟩ := EStateM.Result.error.inj h
      exact ⟨t, rfl, rfl⟩
    · rintro ⟨_, h, rfl⟩
      obtain ⟨rfl, rfl⟩ := EStateM.Result.error.inj h
      rfl

end

theorem recover_eq_ok {x : EStateM ε σ α} {handle : ε → EStateM ε σ α} {s t : σ} {a : α} :
    recover x handle s = .ok a t ↔
      x s = .ok a t ∨ ∃ e u, x s = .error e u ∧ handle e u = .ok a t := by
  unfold recover
  cases x s with
  | ok b u => simp
  | error e u => simp [and_assoc]

/-- Whether an outcome is a value. -/
def isOk : EStateM.Result ε σ α → Bool
  | .ok _ _ => true
  | .error _ _ => false

theorem exists_of_isOk {r : EStateM.Result ε σ α} (h : isOk r = true) : ∃ a s, r = .ok a s := by
  cases r with
  | ok a s => exact ⟨a, s, rfl⟩
  | error e s => simp [isOk] at h

/-- Whether an outcome is a value that `p` holds of. -/
def okWith (p : α → Bool) : EStateM.Result ε σ α → Bool
  | .ok a _ => p a
  | .error _ _ => false

theorem exists_of_okWith {p : α → Bool} {r : EStateM.Result ε σ α} (h : okWith p r = true) :
    ∃ a s, r = .ok a s ∧ p a = true := by
  cases r with
  | ok a s => exact ⟨a, s, rfl, h⟩
  | error e s => cases h

/-- Whether an outcome is a value and a state that `p` holds of. -/
def okAnd (p : α → σ → Bool) : EStateM.Result ε σ α → Bool
  | .ok a s => p a s
  | .error _ _ => false

theorem exists_of_okAnd {p : α → σ → Bool} {r : EStateM.Result ε σ α} (h : okAnd p r = true) :
    ∃ a s, r = .ok a s ∧ p a s = true := by
  cases r with
  | ok a s => exact ⟨a, s, rfl, h⟩
  | error e s => cases h

/-- Whether an outcome is an error that `p` holds of. -/
def errorWith (p : ε → Bool) : EStateM.Result ε σ α → Bool
  | .ok _ _ => false
  | .error e _ => p e

theorem exists_of_errorWith {p : ε → Bool} {r : EStateM.Result ε σ α} (h : errorWith p r = true) :
    ∃ e s, r = .error e s ∧ p e = true := by
  cases r with
  | ok a s => cases h
  | error e s => exact ⟨e, s, rfl, h⟩

/-! ## Computations without a state -/

instance decidableEqExcept [DecidableEq ε] [DecidableEq α] : DecidableEq (Except ε α)
  | .ok a, .ok b => decidable_of_iff (a = b) (by simp)
  | .error a, .error b => decidable_of_iff (a = b) (by simp)
  | .ok _, .error _ => .isFalse (by simp)
  | .error _, .ok _ => .isFalse (by simp)

theorem except_bind_eq_ok {x : Except ε α} {f : α → Except ε β} {b : β} :
    (x >>= f) = .ok b ↔ ∃ a, x = .ok a ∧ f a = .ok b := by
  cases x with
  | ok a =>
    constructor
    · exact fun h => ⟨a, rfl, h⟩
    · rintro ⟨_, ⟨⟩, h⟩
      exact h
  | error e =>
    constructor
    · exact fun h => by cases h
    · rintro ⟨_, h, _⟩
      cases h

theorem except_bind_eq_error {x : Except ε α} {f : α → Except ε β} {e : ε} :
    (x >>= f) = .error e ↔ x = .error e ∨ ∃ a, x = .ok a ∧ f a = .error e := by
  cases x with
  | ok a =>
    constructor
    · exact fun h => Or.inr ⟨a, rfl, h⟩
    · rintro (h | ⟨_, ⟨⟩, h⟩)
      · cases h
      · exact h
  | error e' =>
    constructor
    · intro h
      cases h
      exact Or.inl rfl
    · rintro (h | ⟨_, h, _⟩)
      · cases h
        rfl
      · cases h

/-- A check that throws passes exactly when its condition is false. -/
theorem except_throwIf_eq_ok {c : Prop} [Decidable c] {e : ε} {u : Unit} :
    (throwIf c e : Except ε Unit) = .ok u ↔ ¬c := by
  unfold throwIf
  split
  · rename_i hc
    exact ⟨fun h => (by cases h), fun h => absurd hc h⟩
  · rename_i hc
    exact ⟨fun _ => hc, fun _ => rfl⟩

theorem except_throwIf_eq_error {c : Prop} [Decidable c] {e e' : ε} :
    (throwIf c e : Except ε Unit) = .error e' ↔ c ∧ e = e' := by
  unfold throwIf
  split
  · rename_i hc
    exact ⟨fun h => ⟨hc, by cases h; rfl⟩, fun h => by rw [h.2]; rfl⟩
  · rename_i hc
    exact ⟨fun h => (by cases h), fun h => absurd h.1 hc⟩

@[simp] theorem except_ok_bind (a : α) (f : α → Except ε β) : (Except.ok a >>= f) = f a := rfl

theorem except_throwIf_bind_of_not {c : Prop} [Decidable c] {e : ε} {f : Unit → Except ε β}
    (h : ¬c) : ((throwIf c e : Except ε Unit) >>= f) = f () := by
  rw [throwIf, if_neg h]
  rfl

theorem except_throwIf_bind_of {c : Prop} [Decidable c] {e : ε} {f : Unit → Except ε β}
    (h : c) : ((throwIf c e : Except ε Unit) >>= f) = .error e := by
  rw [throwIf, if_pos h]
  rfl

theorem except_throwIf_of_not {c : Prop} [Decidable c] {e : ε} (h : ¬c) :
    (throwIf c e : Except ε Unit) = .ok () := if_neg h

theorem act_throwIf_eq_ok {c : Prop} [Decidable c] {e : ε} {s t : σ} {u : Unit} :
    (throwIf c e : EStateM ε σ Unit) s = .ok u t ↔ ¬c ∧ s = t := by
  unfold throwIf
  split
  · rename_i hc
    simp [hc]
  · rename_i hc
    simp [hc]

theorem act_throwIf_bind_eq_ok {c : Prop} [Decidable c] {e : ε} {f : Unit → EStateM ε σ β}
    {s t : σ} {b : β} :
    ((throwIf c e : EStateM ε σ Unit) >>= f) s = .ok b t ↔ ¬c ∧ f () s = .ok b t := by
  rw [bind_eq_ok]
  constructor
  · rintro ⟨_, u, h, hf⟩
    obtain ⟨hc, rfl⟩ := act_throwIf_eq_ok.mp h
    exact ⟨hc, hf⟩
  · rintro ⟨hc, hf⟩
    exact ⟨(), s, act_throwIf_eq_ok.mpr ⟨hc, rfl⟩, hf⟩

theorem act_throwIf_bind_of_not {c : Prop} [Decidable c] {e : ε} {f : Unit → EStateM ε σ β}
    {s : σ} (h : ¬c) : ((throwIf c e : EStateM ε σ Unit) >>= f) s = f () s :=
  bind_of_ok (act_throwIf_eq_ok.mpr ⟨h, rfl⟩)

theorem act_throwIf_bind_of {c : Prop} [Decidable c] {e : ε} {f : Unit → EStateM ε σ β}
    {s : σ} (h : c) : ((throwIf c e : EStateM ε σ Unit) >>= f) s = .error e s :=
  bind_of_error (by unfold throwIf; rw [if_pos h]; rfl)

theorem act_throwIf_eq_error {c : Prop} [Decidable c] {e e' : ε} {s t : σ} :
    (throwIf c e : EStateM ε σ Unit) s = .error e' t ↔ c ∧ e = e' ∧ s = t := by
  unfold throwIf
  split
  · rename_i hc
    simp [hc]
  · rename_i hc
    simp [hc]

/-! ## Invariants of runs -/

/-- What one step preserves, a run preserves. -/
theorem run_invariant {step : σ → σ → Prop} {inv : σ → Prop}
    (hstep : ∀ s t, inv s → step s t → inv t) {s t : σ} (hs : inv s)
    (hrun : Relation.ReflTransGen step s t) : inv t := by
  induction hrun with
  | refl => exact hs
  | tail _ hst ih => exact hstep _ _ ih hst

/-- What one step relates, a run relates, when the relation composes. -/
theorem run_relates {step : σ → σ → Prop} {rel : σ → σ → Prop} {inv : σ → Prop}
    (hrefl : ∀ s, rel s s) (htrans : ∀ s t u, rel s t → rel t u → rel s u)
    (hstep : ∀ s t, inv s → step s t → inv t ∧ rel s t) {s t : σ} (hs : inv s)
    (hrun : Relation.ReflTransGen step s t) : inv t ∧ rel s t := by
  induction hrun with
  | refl => exact ⟨hs, hrefl _⟩
  | tail _ hst ih =>
    obtain ⟨hi, hr⟩ := ih
    obtain ⟨hi', hr'⟩ := hstep _ _ hi hst
    exact ⟨hi', htrans _ _ _ hr hr'⟩

end FioXfs.Lib
