import Mathlib.Data.Finset.Card
set_option autoImplicit false

/-!
# Lib: going through a graph, recursively and with a stack

Visiting an item gives something to hand over; where that has a key, the items under it come
next, before what comes after the item.  A key met again ends it all, so that it ends on every
graph with finitely many keys.  The recursive traversal is a relation; the machine with a stack of
the items still to come does the same.
-/

namespace FioXfs.Lib

/-- Items, what visiting one hands over, and the items under one with a key. -/
structure Graph (τ α κ ε : Type) where
  visit : τ → Except ε α
  key : α → Option κ
  children : τ → Except ε (List τ)
  again : κ → ε

/-- What was handed over, and how it ended, if it did. -/
structure Run (ε α : Type) where
  out : List α
  ended : Option (Except ε Unit)

/-- More in front. -/
def Run.after {ε α : Type} (xs : List α) (r : Run ε α) : Run ε α := ⟨xs ++ r.out, r.ended⟩

namespace Graph

variable {τ α κ ε : Type} {G : Graph τ α κ ε}

/-- The recursive traversal of items, with the keys seen before: what it hands over, and the
error that ended it or the keys seen after. -/
inductive Preorder (G : Graph τ α κ ε) : List τ → List κ → List α → Except ε (List κ) → Prop where
  | nil (seen : List κ) : Preorder G [] seen [] (.ok seen)
  | unread {t : τ} {ts : List τ} {seen : List κ} {e : ε} : G.visit t = .error e →
      Preorder G (t :: ts) seen [] (.error e)
  | plain {t : τ} {ts : List τ} {seen : List κ} {a : α} {out : List α} {r : Except ε (List κ)} :
      G.visit t = .ok a → G.key a = none → Preorder G ts seen out r →
      Preorder G (t :: ts) seen (a :: out) r
  | again {t : τ} {ts : List τ} {seen : List κ} {a : α} {k : κ} : G.visit t = .ok a →
      G.key a = some k → k ∈ seen → Preorder G (t :: ts) seen [a] (.error (G.again k))
  | unlisted {t : τ} {ts : List τ} {seen : List κ} {a : α} {k : κ} {e : ε} : G.visit t = .ok a →
      G.key a = some k → k ∉ seen → G.children t = .error e →
      Preorder G (t :: ts) seen [a] (.error e)
  | inside {t : τ} {ts cs : List τ} {seen : List κ} {a : α} {k : κ} {out : List α} {e : ε} :
      G.visit t = .ok a → G.key a = some k → k ∉ seen → G.children t = .ok cs →
      Preorder G cs (k :: seen) out (.error e) → Preorder G (t :: ts) seen (a :: out) (.error e)
  | past {t : τ} {ts cs : List τ} {seen seen' : List κ} {a : α} {k : κ} {out out' : List α}
      {r : Except ε (List κ)} :
      G.visit t = .ok a → G.key a = some k → k ∉ seen → G.children t = .ok cs →
      Preorder G cs (k :: seen) out (.ok seen') → Preorder G ts seen' out' r →
      Preorder G (t :: ts) seen (a :: (out ++ out')) r

/-- The machine: a stack of the items still to come of each item it is inside, at most `fuel`
steps. -/
def run [DecidableEq κ] (G : Graph τ α κ ε) : Nat → List (List τ) → List κ → Run ε α
  | 0, _, _ => ⟨[], none⟩
  | _ + 1, [], _ => ⟨[], some (.ok ())⟩
  | fuel + 1, [] :: stack, seen => run G fuel stack seen
  | fuel + 1, (t :: ts) :: stack, seen =>
      match G.visit t with
      | .error e => ⟨[], some (.error e)⟩
      | .ok a =>
          match G.key a with
          | none => (run G fuel (ts :: stack) seen).after [a]
          | some k =>
              if k ∈ seen then ⟨[a], some (.error (G.again k))⟩
              else
                match G.children t with
                | .error e => ⟨[a], some (.error e)⟩
                | .ok cs => (run G fuel (cs :: ts :: stack) (k :: seen)).after [a]

/-! ## The machine does the recursive traversal -/

theorem Run.after_after {xs ys : List α} {r : Run ε α} :
    (r.after ys).after xs = r.after (xs ++ ys) := by
  simp [Run.after]

section
variable [DecidableEq κ]

/-- With its own steps done, the machine is where the traversal of the items on top ends. -/
theorem run_of_preorder {ts : List τ} {seen : List κ} {out : List α} {r : Except ε (List κ)}
    (h : Preorder G ts seen out r) : ∀ stack, ∃ n, ∀ fuel, G.run (fuel + n) (ts :: stack) seen =
      match r with
      | .ok seen' => (G.run fuel stack seen').after out
      | .error e => ⟨out, some (.error e)⟩ := by
  induction h with
  | nil seen => exact fun stack => ⟨1, fun fuel => rfl⟩
  | unread hv =>
    refine fun stack => ⟨1, fun fuel => ?_⟩
    rw [run, hv]
  | @plain t ts seen a out r hv hk _ ih =>
    intro stack
    obtain ⟨n, hn⟩ := ih stack
    refine ⟨n + 1, fun fuel => ?_⟩
    rw [← Nat.add_assoc, run, hv]
    dsimp only
    rw [hk]
    dsimp only
    rw [hn]
    cases r with
    | ok seen' => exact Run.after_after
    | error e => rfl
  | again hv hk hseen =>
    refine fun stack => ⟨1, fun fuel => ?_⟩
    rw [run, hv]
    dsimp only
    rw [hk]
    exact if_pos hseen
  | unlisted hv hk hseen hc =>
    refine fun stack => ⟨1, fun fuel => ?_⟩
    rw [run, hv]
    dsimp only
    rw [hk]
    dsimp only
    rw [if_neg hseen, hc]
  | @inside t ts cs seen a k out e hv hk hseen hc _ ih =>
    intro stack
    obtain ⟨n, hn⟩ := ih (ts :: stack)
    refine ⟨n + 1, fun fuel => ?_⟩
    rw [← Nat.add_assoc, run, hv]
    dsimp only
    rw [hk]
    dsimp only
    rw [if_neg hseen, hc]
    dsimp only
    rw [hn]
    rfl
  | @past t ts cs seen seen' a k out out' r hv hk hseen hc _ _ ih ih' =>
    intro stack
    obtain ⟨n, hn⟩ := ih (ts :: stack)
    obtain ⟨n', hn'⟩ := ih' stack
    refine ⟨n' + n + 1, fun fuel => ?_⟩
    rw [← Nat.add_assoc, ← Nat.add_assoc, run, hv]
    dsimp only
    rw [hk]
    dsimp only
    rw [if_neg hseen, hc]
    dsimp only
    rw [hn]
    dsimp only
    rw [hn', Run.after_after]
    cases r with
    | ok seen'' => exact Run.after_after
    | error e => rfl

/-- From the items of one stack level the machine ends as the traversal does. -/
theorem run_single {ts : List τ} {seen : List κ} {out : List α} {r : Except ε (List κ)}
    (h : Preorder G ts seen out r) :
    ∃ n, ∀ fuel, n ≤ fuel → G.run fuel [ts] seen = ⟨out, some (r.map fun _ => ())⟩ := by
  obtain ⟨n, hn⟩ := run_of_preorder h []
  refine ⟨n + 1, fun fuel hfuel => ?_⟩
  have hrun := hn (fuel - (n + 1) + 1)
  rw [show fuel - (n + 1) + 1 + n = fuel by omega] at hrun
  rw [hrun]
  cases r with
  | ok seen' =>
    change Run.after out (G.run _ [] seen') = _
    rw [run, Run.after, List.append_nil]
    rfl
  | error e => rfl

/-- The traversal is a function of the items and of the keys seen before. -/
theorem Preorder.unique {ts : List τ} {seen : List κ} {out out' : List α}
    {r r' : Except ε (List κ)} (h : Preorder G ts seen out r) (h' : Preorder G ts seen out' r') :
    out' = out ∧ (r'.map fun _ => ()) = r.map fun _ => () := by
  obtain ⟨n, hn⟩ := run_single h
  obtain ⟨n', hn'⟩ := run_single h'
  have heq := (hn' (max n n') (le_max_right _ _)).symm.trans (hn (max n n') (le_max_left _ _))
  obtain ⟨hout, hended⟩ := Run.mk.inj heq
  exact ⟨hout, Option.some.inj hended⟩

end

/-! ## What is handed over -/

/-- The keys of what was handed over, the last first, before those seen earlier. -/
def keysOf (G : Graph τ α κ ε) (out : List α) (seen : List κ) : List κ :=
  (out.filterMap G.key).reverse ++ seen

theorem keysOf_none {a : α} (h : G.key a = none) (out : List α) (seen : List κ) :
    G.keysOf (a :: out) seen = G.keysOf out seen := by
  rw [keysOf, List.filterMap_cons_none h, keysOf]

theorem keysOf_some {a : α} {k : κ} (h : G.key a = some k) (out : List α) (seen : List κ) :
    G.keysOf (a :: out) seen = G.keysOf out (k :: seen) := by
  rw [keysOf, List.filterMap_cons_some h, List.reverse_cons, List.append_assoc, keysOf]
  rfl

theorem keysOf_append (out out' : List α) (seen : List κ) :
    G.keysOf (out ++ out') seen = G.keysOf out' (G.keysOf out seen) := by
  rw [keysOf, List.filterMap_append, List.reverse_append, List.append_assoc, keysOf, keysOf]

/-- The traversal met the key of its last item before. -/
def MetAgain (G : Graph τ α κ ε) (seen : List κ) (out : List α) (e : ε) : Prop :=
  ∃ init a k, out = init ++ [a] ∧ G.key a = some k ∧ k ∈ G.keysOf init seen ∧ e = G.again k ∧
    (G.keysOf init seen).Nodup

/-- Some item could not be visited, or the items under it not listed. -/
def Failed (G : Graph τ α κ ε) (e : ε) : Prop :=
  ∃ t, G.visit t = .error e ∨ G.children t = .error e

/-- How a traversal ends, in terms of the keys of what it handed over. -/
def EndsAs (G : Graph τ α κ ε) (seen : List κ) (out : List α) : Except ε (List κ) → Prop
  | .ok seen' => seen' = G.keysOf out seen ∧ (G.keysOf out seen).Nodup
  | .error e => G.MetAgain seen out e ∨ (G.Failed e ∧ (G.keysOf out seen).Nodup)

theorem EndsAs.cons_none {seen : List κ} {out : List α} {a : α} (hk : G.key a = none) :
    ∀ {r : Except ε (List κ)}, G.EndsAs seen out r → G.EndsAs seen (a :: out) r
  | .ok seen', h => by
      rw [EndsAs, keysOf_none hk]
      exact h
  | .error e, h => by
      rcases h with ⟨init, b, k, rfl, hb, hmem, he, hnodup⟩ | ⟨hf, hnodup⟩
      · refine Or.inl ⟨a :: init, b, k, rfl, hb, ?_, he, ?_⟩ <;> rwa [keysOf_none hk]
      · refine Or.inr ⟨hf, ?_⟩
        rwa [keysOf_none hk]

theorem EndsAs.append {seen seen' : List κ} {out out' : List α} (hs : seen' = G.keysOf out seen) :
    ∀ {r : Except ε (List κ)}, G.EndsAs seen' out' r → G.EndsAs seen (out ++ out') r
  | .ok seen'', h => by
      rw [EndsAs, keysOf_append, ← hs]
      exact h
  | .error e, h => by
      rcases h with ⟨init, b, k, rfl, hb, hmem, he, hnodup⟩ | ⟨hf, hnodup⟩
      · refine Or.inl ⟨out ++ init, b, k, (List.append_assoc _ _ _).symm, hb, ?_, he, ?_⟩ <;>
          rwa [keysOf_append, ← hs]
      · refine Or.inr ⟨hf, ?_⟩
        rwa [keysOf_append, ← hs]

theorem EndsAs.cons_some {seen : List κ} {out : List α} {a : α} {k : κ} (hk : G.key a = some k)
    {r : Except ε (List κ)} (h : G.EndsAs (k :: seen) out r) : G.EndsAs seen (a :: out) r :=
  show G.EndsAs seen ([a] ++ out) r from EndsAs.append (keysOf_some hk [] seen).symm h

/-- A traversal ends where a key is met again, where something fails, or past the last item; all
keys handed over before are different. -/
theorem Preorder.endsAs {ts : List τ} {seen : List κ} {out : List α} {r : Except ε (List κ)}
    (h : Preorder G ts seen out r) (hseen : seen.Nodup) : G.EndsAs seen out r := by
  induction h with
  | nil seen => exact ⟨rfl, hseen⟩
  | unread hv => exact Or.inr ⟨⟨_, Or.inl hv⟩, hseen⟩
  | plain hv hk _ ih => exact (ih hseen).cons_none hk
  | again hv hk hmem => exact Or.inl ⟨[], _, _, rfl, hk, hmem, rfl, hseen⟩
  | unlisted hv hk hnot hc =>
    refine Or.inr ⟨⟨_, Or.inr hc⟩, ?_⟩
    rw [keysOf_some hk]
    exact List.nodup_cons.mpr ⟨hnot, hseen⟩
  | inside hv hk hnot hc _ ih => exact (ih (List.nodup_cons.mpr ⟨hnot, hseen⟩)).cons_some hk
  | past hv hk hnot hc _ _ ih ih' =>
    obtain ⟨hs, hnodup⟩ := ih (List.nodup_cons.mpr ⟨hnot, hseen⟩)
    rw [← hs] at hnodup
    exact EndsAs.append (by rw [keysOf_some hk, hs]) (ih' hnodup)

/-- What holds of the items and goes on to the items under one holds where each value handed over
came from. -/
theorem Preorder.forall_out {P : τ → Prop} {ts : List τ} {seen : List κ} {out : List α}
    {r : Except ε (List κ)} (h : Preorder G ts seen out r) (hts : ∀ t ∈ ts, P t)
    (hstep : ∀ t a k cs, P t → G.visit t = .ok a → G.key a = some k → G.children t = .ok cs →
      ∀ c ∈ cs, P c) : ∀ a ∈ out, ∃ t, P t ∧ G.visit t = .ok a := by
  induction h with
  | nil => exact fun a ha => absurd ha List.not_mem_nil
  | unread => exact fun a ha => absurd ha List.not_mem_nil
  | plain hv _ _ ih =>
    obtain ⟨ht, hts⟩ := List.forall_mem_cons.mp hts
    exact List.forall_mem_cons.mpr ⟨⟨_, ht, hv⟩, ih hts⟩
  | again hv | unlisted hv =>
    obtain ⟨ht, -⟩ := List.forall_mem_cons.mp hts
    exact List.forall_mem_cons.mpr ⟨⟨_, ht, hv⟩, fun a ha => absurd ha List.not_mem_nil⟩
  | inside hv hk _ hc _ ih =>
    obtain ⟨ht, -⟩ := List.forall_mem_cons.mp hts
    exact List.forall_mem_cons.mpr ⟨⟨_, ht, hv⟩, ih (hstep _ _ _ _ ht hv hk hc)⟩
  | past hv hk _ hc _ _ ih ih' =>
    obtain ⟨ht, hts⟩ := List.forall_mem_cons.mp hts
    refine List.forall_mem_cons.mpr ⟨⟨_, ht, hv⟩, fun a ha => ?_⟩
    rcases List.mem_append.mp ha with ha | ha
    · exact ih (hstep _ _ _ _ ht hv hk hc) a ha
    · exact ih' hts a ha

/-- Graphs that agree on the items that come up have the same traversals. -/
theorem Preorder.congr {G' : Graph τ α κ ε} {P : τ → Prop} {ts : List τ} {seen : List κ}
    {out : List α} {r : Except ε (List κ)} (h : Preorder G ts seen out r) (hts : ∀ t ∈ ts, P t)
    (hvisit : G'.visit = G.visit) (hkey : G'.key = G.key) (hagain : G'.again = G.again)
    (hchildren : ∀ t a k, P t → G.visit t = .ok a → G.key a = some k →
      G'.children t = G.children t)
    (hstep : ∀ t a k cs, P t → G.visit t = .ok a → G.key a = some k → G.children t = .ok cs →
      ∀ c ∈ cs, P c) : Preorder G' ts seen out r := by
  induction h with
  | nil seen => exact .nil seen
  | unread hv => exact .unread (by rw [hvisit]; exact hv)
  | plain hv hk _ ih =>
    exact .plain (by rw [hvisit]; exact hv) (by rw [hkey]; exact hk)
      (ih (List.forall_mem_cons.mp hts).2)
  | again hv hk hmem =>
    rw [← hagain]
    exact .again (by rw [hvisit]; exact hv) (by rw [hkey]; exact hk) hmem
  | unlisted hv hk hnot hc =>
    obtain ⟨ht, -⟩ := List.forall_mem_cons.mp hts
    exact .unlisted (by rw [hvisit]; exact hv) (by rw [hkey]; exact hk) hnot
      ((hchildren _ _ _ ht hv hk).trans hc)
  | inside hv hk hnot hc _ ih =>
    obtain ⟨ht, -⟩ := List.forall_mem_cons.mp hts
    exact .inside (by rw [hvisit]; exact hv) (by rw [hkey]; exact hk) hnot
      ((hchildren _ _ _ ht hv hk).trans hc) (ih (hstep _ _ _ _ ht hv hk hc))
  | past hv hk hnot hc _ _ ih ih' =>
    obtain ⟨ht, hts⟩ := List.forall_mem_cons.mp hts
    exact .past (by rw [hvisit]; exact hv) (by rw [hkey]; exact hk) hnot
      ((hchildren _ _ _ ht hv hk).trans hc) (ih (hstep _ _ _ _ ht hv hk hc)) (ih' hts)

/-! ## It ends -/

/-- Keys seen once each, and all of them of a finite set. -/
structure SeenOf (K : Finset κ) (seen : List κ) : Prop where
  nodup : seen.Nodup
  mem : ∀ k ∈ seen, k ∈ K

theorem SeenOf.cons {K : Finset κ} {seen : List κ} {k : κ} (h : SeenOf K seen) (hk : k ∈ K)
    (hnot : k ∉ seen) : SeenOf K (k :: seen) :=
  ⟨List.nodup_cons.mpr ⟨hnot, h.nodup⟩, List.forall_mem_cons.mpr ⟨hk, h.mem⟩⟩

theorem SeenOf.length_le [DecidableEq κ] {K : Finset κ} {seen : List κ} (h : SeenOf K seen) :
    seen.length ≤ K.card := by
  rw [← List.toFinset_card_of_nodup h.nodup]
  exact Finset.card_le_card fun k hk => h.mem k (List.mem_toFinset.mp hk)

/-- A graph with finitely many keys has a traversal of any items, cycles or not: each item with
keys under it takes one from the keys not seen. -/
theorem exists_preorder [DecidableEq κ] {K : Finset κ}
    (hK : ∀ t a k, G.visit t = .ok a → G.key a = some k → k ∈ K) :
    ∀ (n : Nat) (ts : List τ) (seen : List κ), SeenOf K seen → K.card - seen.length ≤ n →
      ∃ out r, Preorder G ts seen out r ∧
        ∀ seen', r = .ok seen' → SeenOf K seen' ∧ seen.length ≤ seen'.length := by
  intro n
  induction n using Nat.strong_induction_on with
  | _ n ihn =>
    intro ts
    induction ts with
    | nil =>
      intro seen hs _
      refine ⟨[], .ok seen, .nil seen, fun seen' h => ?_⟩
      obtain rfl := Except.ok.inj h
      exact ⟨hs, le_refl _⟩
    | cons t ts ih =>
      intro seen hs hn
      cases hv : G.visit t with
      | error e => exact ⟨[], .error e, .unread hv, fun seen' h => by cases h⟩
      | ok a =>
        cases hk : G.key a with
        | none =>
          obtain ⟨out, r, hr, hseen⟩ := ih seen hs hn
          exact ⟨a :: out, r, .plain hv hk hr, hseen⟩
        | some k =>
          by_cases hmem : k ∈ seen
          · exact ⟨[a], _, .again hv hk hmem, fun seen' h => by cases h⟩
          cases hc : G.children t with
          | error e => exact ⟨[a], .error e, .unlisted hv hk hmem hc, fun seen' h => by cases h⟩
          | ok cs =>
            have hcons := hs.cons (hK t a k hv hk) hmem
            have hle := hcons.length_le
            rw [List.length_cons] at hle
            obtain ⟨out, r, hr, hseen⟩ := ihn (n - 1) (by omega) cs (k :: seen) hcons
              (by rw [List.length_cons]; omega)
            cases r with
            | error e =>
              exact ⟨a :: out, .error e, .inside hv hk hmem hc hr, fun seen' h => by cases h⟩
            | ok seen' =>
              obtain ⟨hs', hlen⟩ := hseen seen' rfl
              rw [List.length_cons] at hlen
              obtain ⟨out', r', hr', hseen'⟩ := ih seen' hs' (by omega)
              refine ⟨a :: (out ++ out'), r', .past hv hk hmem hc hr hr', fun seen'' h => ?_⟩
              obtain ⟨hs'', hlen'⟩ := hseen' seen'' h
              exact ⟨hs'', by omega⟩

end Graph

end FioXfs.Lib
