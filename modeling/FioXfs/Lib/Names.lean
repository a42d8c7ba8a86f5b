import Mathlib.Logic.Relation
import FioXfs.Lib.Act
set_option autoImplicit false

/-!
# Lib: following names through links

A path is followed name by name from a node, and a node may be a link, which stands for names
to follow first.  This can be said twice: by recursion, where a link's names are followed to
their end before the names after it, and by a work list, where they are put in front of what is
left.  The work list knows that a name is the last one by having nothing left; the two agree,
and with a limit on the links both always end.
-/

namespace FioXfs.Lib

/-- What names lead to and links stand for. -/
structure Names (N L C ε : Type) where
  /-- The node a name leads to. -/
  step : N → C → Except ε N
  /-- The link a node is, when it is one. -/
  link : N → Except ε (Option L)
  /-- Where a link's names start, when not where the link is, and the names. -/
  target : L → Except ε (Option N × List C)
  /-- The error for one link too many. -/
  tooMany : ε
  /-- Most links followed. -/
  most : Nat

namespace Names

variable {N L C ε : Type}

/-! ## By recursion -/

/-- Following names from a node, `used` links having been followed before: where it leads and the
links followed by then.  The last name is followed through a link only when `follow` is set; the
names of a link are followed to their very end. -/
inductive Leads (E : Names N L C ε) : Bool → Nat → N → List C → Except ε (N × Nat) → Prop where
  | nil (follow : Bool) (used : Nat) (cur : N) : Leads E follow used cur [] (.ok (cur, used))
  | lost {follow : Bool} {used : Nat} {cur : N} {c : C} {cs : List C} {e : ε} :
      E.step cur c = .error e → Leads E follow used cur (c :: cs) (.error e)
  | last {used : Nat} {cur child : N} {c : C} :
      E.step cur c = .ok child → Leads E false used cur [c] (.ok (child, used))
  | unread {follow : Bool} {used : Nat} {cur child : N} {c : C} {cs : List C} {e : ε} :
      E.step cur c = .ok child → (cs = [] → follow = true) → E.link child = .error e →
      Leads E follow used cur (c :: cs) (.error e)
  | plain {follow : Bool} {used : Nat} {cur child : N} {c : C} {cs : List C}
      {r : Except ε (N × Nat)} :
      E.step cur c = .ok child → (cs = [] → follow = true) → E.link child = .ok none →
      Leads E follow used child cs r → Leads E follow used cur (c :: cs) r
  | tooMany {follow : Bool} {used : Nat} {cur child : N} {c : C} {cs : List C} {l : L} :
      E.step cur c = .ok child → (cs = [] → follow = true) → E.link child = .ok (some l) →
      E.most ≤ used → Leads E follow used cur (c :: cs) (.error E.tooMany)
  | broken {follow : Bool} {used : Nat} {cur child : N} {c : C} {cs : List C} {l : L} {e : ε} :
      E.step cur c = .ok child → (cs = [] → follow = true) → E.link child = .ok (some l) →
      used < E.most → E.target l = .error e → Leads E follow used cur (c :: cs) (.error e)
  | inner {follow : Bool} {used : Nat} {cur child : N} {c : C} {cs : List C} {l : L} {e : ε}
      {base : Option N} {names : List C} :
      E.step cur c = .ok child → (cs = [] → follow = true) → E.link child = .ok (some l) →
      used < E.most → E.target l = .ok (base, names) →
      Leads E true (used + 1) (base.getD cur) names (.error e) →
      Leads E follow used cur (c :: cs) (.error e)
  | through {follow : Bool} {used used' : Nat} {cur child next : N} {c : C} {cs : List C} {l : L}
      {base : Option N} {names : List C} {r : Except ε (N × Nat)} :
      E.step cur c = .ok child → (cs = [] → follow = true) → E.link child = .ok (some l) →
      used < E.most → E.target l = .ok (base, names) →
      Leads E true (used + 1) (base.getD cur) names (.ok (next, used')) →
      Leads E follow used' next cs r → Leads E follow used cur (c :: cs) r

/-! ## By a work list -/

/-- The state between turns: the node reached, the names left and the links followed. -/
structure Work (N C : Type) where
  cur : N
  left : List C
  used : Nat

/-- Put a link's names in front of what is left. -/
def enter (E : Names N L C ε) (cur : N) (cs : List C) (used : Nat) (l : L) :
    Except ε (N ⊕ Work N C) := do
  throwIf (E.most < used + 1) E.tooMany
  let (base, names) ← E.target l
  return .inr ⟨base.getD cur, names ++ cs, used + 1⟩

/-- One turn: the end, or the next state. -/
def turn (E : Names N L C ε) (follow : Bool) (w : Work N C) :
    Except ε (N ⊕ Work N C) :=
  match w.left with
  | [] => .ok (.inl w.cur)
  | c :: cs => do
      let child ← E.step w.cur c
      if cs.isEmpty && !follow then return .inl child
      match ← E.link child with
      | none => return .inr ⟨child, cs, w.used⟩
      | some l => E.enter w.cur cs w.used l

section
variable {E : Names N L C ε} {follow : Bool}

/-- Turn after turn from a state ends with an outcome. -/
inductive Ends (E : Names N L C ε) (follow : Bool) : Work N C → Except ε N → Prop where
  | done {w : Work N C} {n : N} : turn E follow w = .ok (.inl n) → Ends E follow w (.ok n)
  | fail {w : Work N C} {e : ε} : turn E follow w = .error e → Ends E follow w (.error e)
  | next {w w' : Work N C} {out : Except ε N} :
      turn E follow w = .ok (.inr w') → Ends E follow w' out → Ends E follow w out

/-- One state comes after another in a run. -/
def Next (E : Names N L C ε) (follow : Bool) (w w' : Work N C) : Prop :=
  turn E follow w = .ok (.inr w')

theorem Ends.unique {w : Work N C} {out out' : Except ε N} (h : Ends E follow w out)
    (h' : Ends E follow w out') : out = out' := by
  induction h with
  | done hd =>
    cases h' with
    | done hd' => rw [hd] at hd'; cases hd'; rfl
    | fail hf => rw [hd] at hf; cases hf
    | next hn _ => rw [hd] at hn; cases hn
  | fail hf =>
    cases h' with
    | done hd => rw [hf] at hd; cases hd
    | fail hf' => rw [hf] at hf'; cases hf'; rfl
    | next hn _ => rw [hf] at hn; cases hn
  | next hn _ ih =>
    cases h' with
    | done hd => rw [hn] at hd; cases hd
    | fail hf => rw [hn] at hf; cases hf
    | next hn' h' =>
      rw [hn] at hn'
      cases hn'
      exact ih h'

/-! ## One turn at a name -/

variable {cur child : N} {c : C} {cs : List C} {used : Nat} {e : ε}

theorem turn_lost (hs : E.step cur c = .error e) : turn E follow ⟨cur, c :: cs, used⟩ = .error e := by
  simp only [turn, hs]
  rfl

theorem turn_last (hs : E.step cur c = .ok child) :
    turn E false ⟨cur, [c], used⟩ = .ok (.inl child) := by
  simp only [turn, hs]
  rfl

/-- At a name that is to be followed, a turn looks at what it leads to. -/
theorem turn_followed (hs : E.step cur c = .ok child) (hmore : cs = [] → follow = true) :
    turn E follow ⟨cur, c :: cs, used⟩ = (do
      match ← E.link child with
      | none => return .inr ⟨child, cs, used⟩
      | some l => E.enter cur cs used l) := by
  have hnot : (cs.isEmpty && !follow) = false := by
    cases cs with
    | nil => simp [hmore rfl]
    | cons _ _ => rfl
  simp only [turn, hs, except_ok_bind, hnot]
  rfl

theorem turn_unread (hs : E.step cur c = .ok child) (hmore : cs = [] → follow = true)
    (hl : E.link child = .error e) : turn E follow ⟨cur, c :: cs, used⟩ = .error e := by
  rw [turn_followed hs hmore, hl]
  rfl

theorem turn_plain (hs : E.step cur c = .ok child) (hmore : cs = [] → follow = true)
    (hl : E.link child = .ok none) :
    turn E follow ⟨cur, c :: cs, used⟩ = .ok (.inr ⟨child, cs, used⟩) := by
  rw [turn_followed hs hmore, hl]
  rfl

section
variable {l : L}

theorem turn_link (hs : E.step cur c = .ok child) (hmore : cs = [] → follow = true)
    (hl : E.link child = .ok (some l)) :
    turn E follow ⟨cur, c :: cs, used⟩ = E.enter cur cs used l := by
  rw [turn_followed hs hmore, hl]
  rfl

theorem enter_tooMany (hused : E.most ≤ used) : E.enter cur cs used l = .error E.tooMany := by
  unfold enter
  rw [except_throwIf_bind_of (by omega)]

theorem enter_broken (hused : used < E.most) (ht : E.target l = .error e) :
    E.enter cur cs used l = .error e := by
  unfold enter
  rw [except_throwIf_bind_of_not (by omega), ht]
  rfl

theorem enter_through {base : Option N} {names : List C} (hused : used < E.most)
    (ht : E.target l = .ok (base, names)) :
    E.enter cur cs used l = .ok (.inr ⟨base.getD cur, names ++ cs, used + 1⟩) := by
  unfold enter
  rw [except_throwIf_bind_of_not (by omega), ht]
  rfl

end

/-! ## The two agree -/

/-- What following names by recursion says of a work list that has `rest` after them. -/
def Carries (E : Names N L C ε) (follow : Bool) (rest : List C) (w : Work N C) :
    Except ε (N × Nat) → Prop
  | .ok (n, used') => ∀ out, Ends E follow ⟨n, rest, used'⟩ out → Ends E follow w out
  | .error e => Ends E follow w (.error e)

theorem Carries.next {w w' : Work N C} {rest : List C} {r : Except ε (N × Nat)}
    (h : turn E follow w = .ok (.inr w')) (hc : Carries E follow rest w' r) :
    Carries E follow rest w r := by
  cases r with
  | ok p => exact fun out hout => Ends.next h (hc out hout)
  | error e => exact Ends.next h hc

theorem Carries.trans {w : Work N C} {rest rest' : List C} {n : N} {used' : Nat}
    {r : Except ε (N × Nat)} (h : Carries E follow rest w (.ok (n, used')))
    (hc : Carries E follow rest' ⟨n, rest, used'⟩ r) : Carries E follow rest' w r := by
  cases r with
  | ok p => exact fun out hout => h out (hc out hout)
  | error e => exact h _ hc

/-- Names in front of others are followed on the work list as by recursion: to their very end
when others come after them. -/
theorem carries_of_leads {f : Bool} {r : Except ε (N × Nat)} (h : Leads E f used cur cs r) :
    ∀ rest, (rest = [] ∧ f = follow ∨ f = true ∧ (rest = [] → follow = true)) →
      Carries E follow rest ⟨cur, cs ++ rest, used⟩ r := by
  have hmore : ∀ {f : Bool} {cs rest : List C},
      (rest = [] ∧ f = follow ∨ f = true ∧ (rest = [] → follow = true)) → (cs = [] → f = true) →
      cs ++ rest = [] → follow = true := by
    rintro f cs rest (⟨-, rfl⟩ | ⟨-, hr⟩) hf hnil
    · exact hf (List.append_eq_nil_iff.mp hnil).1
    · exact hr (List.append_eq_nil_iff.mp hnil).2
  induction h with
  | nil => exact fun rest _ out hout => hout
  | lost hs => exact fun rest _ => .fail (turn_lost hs)
  | last hs =>
    rintro rest (⟨rfl, rfl⟩ | ⟨hf, -⟩) out hout
    · have hend := hout.unique (.done rfl)
      rw [hend]
      exact .done (turn_last hs)
    · cases hf
  | unread hs hf hl => exact fun rest hr => .fail (turn_unread hs (hmore hr hf) hl)
  | plain hs hf hl _ ih => exact fun rest hr => (ih rest hr).next (turn_plain hs (hmore hr hf) hl)
  | tooMany hs hf hl hu => exact fun rest hr => .fail ((turn_link hs (hmore hr hf) hl).trans (enter_tooMany hu))
  | broken hs hf hl hu ht =>
    exact fun rest hr => .fail ((turn_link hs (hmore hr hf) hl).trans (enter_broken hu ht))
  | inner hs hf hl hu ht _ ih =>
    intro rest hr
    have hrest := hmore hr hf
    exact .next ((turn_link hs hrest hl).trans (enter_through hu ht)) (ih _ (.inr ⟨rfl, hrest⟩))
  | through hs hf hl hu ht _ _ ih1 ih2 =>
    intro rest hr
    have hrest := hmore hr hf
    exact ((ih1 _ (.inr ⟨rfl, hrest⟩)).trans (ih2 rest hr)).next
      ((turn_link hs hrest hl).trans (enter_through hu ht))

/-! ## Both always end -/

/-- Following names leads somewhere or fails, whatever the nodes and the links are: a link takes
one of those still allowed, and any other node one of the names. -/
theorem exists_leads (E : Names N L C ε) (used : Nat) (cs : List C) (follow : Bool) (cur : N) :
    ∃ r, Leads E follow used cur cs r ∧ ∀ p, r = .ok p → used ≤ p.2 := by
  induction hroom : E.most - used using Nat.strongRecOn generalizing used cs follow cur with
  | ind room ih =>
    induction cs generalizing follow cur with
    | nil =>
      exact ⟨_, .nil follow used cur, fun p hp => by cases hp; exact Nat.le_refl _⟩
    | cons c cs ihc =>
      cases hs : E.step cur c with
      | error e => exact ⟨_, .lost hs, fun p hp => by cases hp⟩
      | ok child =>
        by_cases hf : cs = [] → follow = true
        · cases hl : E.link child with
          | error e => exact ⟨_, .unread hs hf hl, fun p hp => by cases hp⟩
          | ok o =>
            cases o with
            | none =>
              obtain ⟨r, hr, hle⟩ := ihc follow child
              exact ⟨r, .plain hs hf hl hr, hle⟩
            | some l =>
              by_cases hused : used < E.most
              · cases ht : E.target l with
                | error e => exact ⟨_, .broken hs hf hl hused ht, fun p hp => by cases hp⟩
                | ok t =>
                  obtain ⟨base, names⟩ := t
                  obtain ⟨r, hr, hle⟩ := ih (E.most - (used + 1)) (by omega) (used + 1) names true
                    (base.getD cur) rfl
                  cases r with
                  | error e => exact ⟨_, .inner hs hf hl hused ht hr, fun p hp => by cases hp⟩
                  | ok p =>
                    -- The names after the link are followed with fewer links left than before it.
                    have hlt := hle p rfl
                    obtain ⟨r, hr', hle'⟩ := ih (E.most - p.2) (by omega) p.2 cs follow p.1 rfl
                    refine ⟨r, .through hs hf hl hused ht hr hr', fun q hq => ?_⟩
                    have := hle' q hq
                    omega
              · exact ⟨_, .tooMany hs hf hl (by omega), fun p hp => by cases hp⟩
        · obtain ⟨rfl, hfalse⟩ := Classical.not_imp.mp hf
          obtain rfl : follow = false := by simpa using hfalse
          exact ⟨_, .last hs, fun p hp => by cases hp; exact Nat.le_refl _⟩

/-- What the work list comes to, from what following by recursion does. -/
theorem ends_of_leads {r : Except ε (N × Nat)} (h : Leads E follow used cur cs r) :
    Ends E follow ⟨cur, cs, used⟩ (r.map Prod.fst) := by
  have hc := carries_of_leads h [] (.inl ⟨rfl, rfl⟩)
  rw [List.append_nil] at hc
  cases r with
  | ok p => exact hc _ (.done rfl)
  | error e => exact hc

theorem exists_ends (E : Names N L C ε) (follow : Bool) (w : Work N C) :
    ∃ out, Ends E follow w out := by
  obtain ⟨r, hr, -⟩ := exists_leads E w.used w.left follow w.cur
  exact ⟨_, ends_of_leads hr⟩

/-- No turn follows more links than are allowed. -/
theorem used_le_of_next {w w' : Work N C} (h : Next E follow w w') (hw : w.used ≤ E.most) :
    w'.used ≤ E.most := by
  unfold Next turn at h
  split at h
  · cases h
  · obtain ⟨child, -, h⟩ := except_bind_eq_ok.mp h
    split at h
    · cases h
    obtain ⟨o, -, h⟩ := except_bind_eq_ok.mp h
    cases o with
    | none =>
      cases h
      exact hw
    | some l =>
      obtain ⟨_, hroom, h⟩ := except_bind_eq_ok.mp h
      obtain ⟨⟨base, names⟩, -, h⟩ := except_bind_eq_ok.mp h
      cases h
      exact Nat.le_of_not_lt (except_throwIf_eq_ok.mp hroom)

theorem used_le_of_run {w w' : Work N C} (h : Relation.ReflTransGen (Next E follow) w w')
    (hw : w.used ≤ E.most) : w'.used ≤ E.most :=
  @run_invariant _ _ (fun w => w.used ≤ E.most) (fun _ _ hs hst => used_le_of_next hst hs) _ _ hw h

end

end Names

end FioXfs.Lib
