import FioXfs.Lib.Act
set_option autoImplicit false

/-!
# Lib: what a method leaves, whatever comes of it

A method that fails leaves its object changed, so a rule about it has two posts: one of the
value and the state when it returns, one of the error and the state when it does not.  One rule
for each way of putting methods together; and the same again for what stays as it is.
-/

namespace FioXfs.Lib

variable {ε σ α β : Type}

/-- `x` run on `s` returns as `Q` has it, or fails as `E` has it. -/
def Leaves (x : EStateM ε σ α) (s : σ) (E : ε → σ → Prop) (Q : α → σ → Prop) : Prop :=
  match x s with
  | .ok a t => Q a t
  | .error e t => E e t

section
variable {x : EStateM ε σ α} {f : α → EStateM ε σ β} {s : σ} {E E' : ε → σ → Prop}
  {Q Q' : α → σ → Prop} {R : β → σ → Prop}

theorem leaves_iff : Leaves x s E Q ↔
    (∀ a t, x s = .ok a t → Q a t) ∧ ∀ e t, x s = .error e t → E e t := by
  unfold Leaves
  cases x s with
  | ok a t =>
    constructor
    · refine fun h => ⟨fun b u hb => ?_, fun e u he => ?_⟩
      · obtain ⟨rfl, rfl⟩ := EStateM.Result.ok.inj hb
        exact h
      · cases he
    · exact fun h => h.1 a t rfl
  | error e t =>
    constructor
    · refine fun h => ⟨fun b u hb => ?_, fun e' u he => ?_⟩
      · cases hb
      · obtain ⟨rfl, rfl⟩ := EStateM.Result.error.inj he
        exact h
    · exact fun h => h.2 e t rfl

theorem Leaves.ok (h : Leaves x s E Q) {a : α} {t : σ} (hx : x s = .ok a t) : Q a t :=
  (leaves_iff.mp h).1 a t hx

theorem Leaves.error (h : Leaves x s E Q) {e : ε} {t : σ} (hx : x s = .error e t) : E e t :=
  (leaves_iff.mp h).2 e t hx

theorem Leaves.mono (h : Leaves x s E Q) (hE : ∀ e t, E e t → E' e t)
    (hQ : ∀ a t, Q a t → Q' a t) : Leaves x s E' Q' :=
  leaves_iff.mpr ⟨fun a t hx => hQ a t (h.ok hx), fun e t hx => hE e t (h.error hx)⟩

/-- With what is known of a run that returns. -/
theorem Leaves.with_ok (h : Leaves x s E Q) (hok : ∀ a t, x s = .ok a t → Q' a t) :
    Leaves x s E fun a t => Q a t ∧ Q' a t :=
  leaves_iff.mpr ⟨fun a t hx => ⟨h.ok hx, hok a t hx⟩, fun _ _ hx => h.error hx⟩

/-- What an outcome of known shape leaves. -/
theorem leaves_of_ok {a : α} {t : σ} (hx : x s = .ok a t) (h : Q a t) : Leaves x s E Q := by
  unfold Leaves
  rw [hx]
  exact h

theorem leaves_of_error {e : ε} {t : σ} (hx : x s = .error e t) (h : E e t) : Leaves x s E Q := by
  unfold Leaves
  rw [hx]
  exact h

theorem leaves_pure {a : α} (h : Q a s) : Leaves (pure a) s E Q := h

theorem leaves_throw {e : ε} (h : E e s) : Leaves (throw e) s E Q := h

theorem leaves_modify {f : σ → σ} {Q : PUnit → σ → Prop} (h : Q ⟨⟩ (f s)) :
    Leaves (modify f) s E Q := h

theorem leaves_get_bind {f : σ → EStateM ε σ β} (h : Leaves (f s) s E R) :
    Leaves (get >>= f) s E R := h

/-- One method after another. -/
theorem Leaves.bind (h : Leaves x s E Q) (hf : ∀ a t, Q a t → Leaves (f a) t E R) :
    Leaves (x >>= f) s E R := by
  cases hx : x s with
  | ok a t =>
    have hrest := hf a t (h.ok hx)
    unfold Leaves at hrest ⊢
    rwa [bind_of_ok hx]
  | error e t => exact leaves_of_error (bind_of_error hx) (h.error hx)

theorem leaves_liftE {x : Except ε α} (hE : ∀ e, x = .error e → E e s)
    (hQ : ∀ a, x = .ok a → Q a s) : Leaves (liftE x) s E Q := by
  cases x with
  | ok a => exact hQ a rfl
  | error e => exact hE e rfl

theorem leaves_throwIf {c : Prop} [Decidable c] {e : ε} {Q : Unit → σ → Prop} (hE : c → E e s)
    (hQ : ¬c → Q () s) : Leaves (throwIf c e) s E Q := by
  unfold throwIf
  split
  · rename_i hc
    exact leaves_throw (hE hc)
  · rename_i hc
    exact leaves_pure (hQ hc)

/-- A failure is taken up where it left off. -/
theorem leaves_recover {handle : ε → EStateM ε σ α}
    (h : Leaves x s (fun e t => Leaves (handle e) t E Q) Q) : Leaves (recover x handle) s E Q := by
  cases hx : x s with
  | ok a t =>
    have hQ := h.ok hx
    exact leaves_of_ok (recover_eq_ok.mpr (Or.inl hx)) hQ
  | error e t =>
    have hrest := h.error hx
    unfold Leaves recover at *
    rw [hx]
    exact hrest

/-- A method of a part of the state. -/
theorem leaves_zoom {τ : Type} {get : σ → τ} {set : τ → σ → σ} {x : EStateM ε τ α}
    (h : Leaves x (get s) (fun e t => E e (set t s)) fun a t => Q a (set t s)) :
    Leaves (zoom get set x) s E Q := by
  cases hx : x (get s) with
  | ok a t => exact leaves_of_ok (zoom_eq_ok.mpr ⟨t, hx, rfl⟩) (h.ok hx)
  | error e t => exact leaves_of_error (zoom_eq_error.mpr ⟨t, hx, rfl⟩) (h.error hx)

end

/-! ## What stays as it is -/

/-- Whatever comes of `x`, the state after it stands in `R` to the one before. -/
def Steady (R : σ → σ → Prop) (x : EStateM ε σ α) : Prop := ∀ s, Leaves x s (fun _ t => R s t) fun _ t => R s t

section
variable {R : σ → σ → Prop} {x : EStateM ε σ α} {f : α → EStateM ε σ β} {s t : σ}

theorem Steady.ok {a : α} (h : Steady R x) (hx : x s = .ok a t) : R s t := (h s).ok hx

theorem Steady.error {e : ε} (h : Steady R x) (hx : x s = .error e t) : R s t := (h s).error hx

theorem steady_modify {f : σ → σ} (hf : ∀ s, R s (f s)) : Steady R (modify f : EStateM ε σ PUnit) :=
  fun s => leaves_modify (hf s)

theorem steady_zoom {τ : Type} {get : σ → τ} {set : τ → σ → σ} {x : EStateM ε τ α}
    (h : ∀ s t, R s (set t s)) : Steady R (zoom get set x) := fun s =>
  leaves_zoom (leaves_iff.mpr ⟨fun _ t _ => h s t, fun _ t _ => h s t⟩)

theorem Steady.bind [IsTrans σ R] (h : Steady R x) (hf : ∀ a, Steady R (f a)) : Steady R (x >>= f) :=
  fun s => (h s).bind fun a t ht => (hf a t).mono (fun _ _ hu => IsTrans.trans _ _ _ ht hu) fun _ _ hu => IsTrans.trans _ _ _ ht hu

/-- A failure is taken up by a method that leaves as much. -/
theorem Steady.recover [IsTrans σ R] {handle : ε → EStateM ε σ α} (h : Steady R x)
    (hh : ∀ e, Steady R (handle e)) : Steady R (recover x handle) := fun s =>
  leaves_recover ((h s).mono (fun e t ht => (hh e t).mono (fun _ _ hu => IsTrans.trans _ _ _ ht hu)
    fun _ _ hu => IsTrans.trans _ _ _ ht hu) fun _ _ => id)

theorem steady_pure [Std.Refl R] (a : α) : Steady R (pure a : EStateM ε σ α) := fun s =>
  leaves_pure (Std.Refl.refl s)

theorem steady_throw [Std.Refl R] (e : ε) : Steady R (throw e : EStateM ε σ α) := fun s =>
  leaves_throw (Std.Refl.refl s)

theorem steady_liftE [Std.Refl R] (x : Except ε α) : Steady R (liftE x : EStateM ε σ α) := fun s =>
  leaves_liftE (fun _ _ => Std.Refl.refl s) fun _ _ => Std.Refl.refl s

theorem steady_throwIf [Std.Refl R] (c : Prop) [Decidable c] (e : ε) :
    Steady R (throwIf c e : EStateM ε σ Unit) := fun s =>
  leaves_throwIf (fun _ => Std.Refl.refl s) fun _ => Std.Refl.refl s

theorem steady_get_bind {f : σ → EStateM ε σ β} (hf : ∀ s, Steady R (f s)) : Steady R (get >>= f) :=
  fun s => leaves_get_bind (hf s s)

theorem steady_liftE_bind [Std.Refl R] [IsTrans σ R] {x : Except ε α} (hf : ∀ a, Steady R (f a)) :
    Steady R ((liftE x : EStateM ε σ α) >>= f) := (steady_liftE x).bind hf

theorem steady_throwIf_bind [Std.Refl R] [IsTrans σ R] {c : Prop} [Decidable c] {e : ε}
    {f : Unit → EStateM ε σ β} (hf : ∀ a, Steady R (f a)) :
    Steady R ((throwIf c e : EStateM ε σ Unit) >>= f) := (steady_throwIf c e).bind hf

end

end FioXfs.Lib
