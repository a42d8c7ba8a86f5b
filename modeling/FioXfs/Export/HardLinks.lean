import FioXfs.Export
set_option autoImplicit false

/-!
# Where hard links point

Both exporters note the first path of an inode with several links before they look at what it is.
A later name becomes a link to that path, which is there unless the inode's kind is one that is
left out.
-/

namespace FioXfs.Volume

open FioXfs.Lib

/-- Whether an inode's names are linked together. -/
def Multi (st : Stat) : Prop := st.isDir = false ∧ 1 < st.links

instance (st : Stat) : Decidable (Multi st) := inferInstanceAs (Decidable (_ ∧ _))

/-- The first name of an inode with several links. -/
def firstOf (before : List WalkEntry) (ino : Nat) : Option WalkEntry :=
  before.find? fun a => decide (Multi a.stat ∧ a.stat.inode = ino)

/-- A name of an inode with several links that has a name before it. -/
def SecondName (before : List WalkEntry) (e : WalkEntry) : Prop :=
  Multi e.stat ∧ ∃ a, firstOf before e.stat.inode = some a

theorem firstOf_concat_of_some {before : List WalkEntry} {e a : WalkEntry} {ino : Nat}
    (h : firstOf before ino = some a) : firstOf (before ++ [e]) ino = some a := by
  unfold firstOf at h ⊢
  rw [List.find?_append, h]
  rfl

theorem firstOf_concat_of_none {before : List WalkEntry} {e : WalkEntry} {ino : Nat}
    (h : firstOf before ino = none) : firstOf (before ++ [e]) ino =
      if Multi e.stat ∧ e.stat.inode = ino then some e else none := by
  unfold firstOf at h ⊢
  rw [List.find?_append, h, Option.none_or, List.find?_singleton]
  by_cases hm : Multi e.stat ∧ e.stat.inode = ino
  · rw [if_pos hm, if_pos (decide_eq_true hm)]
  · rw [if_neg hm, if_neg (by simpa using hm)]

/-! ## The first names -/

/-- The table of first names after some names, each path made by `path` from its name. -/
def FirstNames (path : WalkEntry → Bytes) (before : List WalkEntry) (seen : List (Nat × Bytes)) :
    Prop :=
  ∀ ino, seen.lookup ino = (firstOf before ino).map path

section
variable {path : WalkEntry → Bytes} {before : List WalkEntry} {seen : List (Nat × Bytes)}
  {e : WalkEntry}

theorem firstSeen_eq_some {st : Stat} {p : Bytes} :
    firstSeen seen st = some p ↔ Multi st ∧ seen.lookup st.inode = some p := by
  rw [firstSeen]
  by_cases h : st.isDir = false ∧ 1 < st.links
  · rw [if_pos h]
    exact (and_iff_right h).symm
  · rw [if_neg h]
    exact iff_of_false (by simp) fun hp => h hp.1

theorem FirstNames.nil : FirstNames path [] [] := fun _ => rfl

/-- The names that become links are the second ones. -/
theorem FirstNames.firstSeen_iff (h : FirstNames path before seen) {p : Bytes} :
    firstSeen seen e.stat = some p ↔
      Multi e.stat ∧ ∃ a, firstOf before e.stat.inode = some a ∧ path a = p := by
  rw [firstSeen_eq_some, h, Option.map_eq_some_iff]

theorem FirstNames.firstSeen_none_iff (h : FirstNames path before seen) :
    firstSeen seen e.stat = none ↔ ¬SecondName before e := by
  constructor
  · rintro hnone ⟨hm, a, ha⟩
    rw [h.firstSeen_iff.mpr ⟨hm, a, ha, rfl⟩] at hnone
    cases hnone
  · intro hnot
    cases hp : firstSeen seen e.stat with
    | none => rfl
    | some p =>
      obtain ⟨hm, a, ha, -⟩ := h.firstSeen_iff.mp hp
      exact absurd ⟨hm, a, ha⟩ hnot

/-- A second name changes nothing. -/
theorem FirstNames.second (h : FirstNames path before seen) {p : Bytes}
    (hp : firstSeen seen e.stat = some p) : FirstNames path (before ++ [e]) seen := fun ino => by
  obtain ⟨-, a, ha, -⟩ := h.firstSeen_iff.mp hp
  rw [h]
  cases hf : firstOf before ino with
  | some b => rw [firstOf_concat_of_some hf]
  | none =>
    rw [firstOf_concat_of_none hf, if_neg]
    rintro ⟨-, rfl⟩
    rw [hf] at ha
    cases ha

/-- A name is noted when its inode has several links. -/
theorem FirstNames.first (h : FirstNames path before seen) (hp : firstSeen seen e.stat = none) :
    FirstNames path (before ++ [e]) (nowSeen seen e.stat (path e)) := fun ino => by
  have hsecond := h.firstSeen_none_iff.mp hp
  have hold : seen.lookup ino = (firstOf before ino).map path := h ino
  by_cases hm : Multi e.stat
  · rw [nowSeen, if_pos (show e.stat.isDir = false ∧ 1 < e.stat.links from hm)]
    by_cases hino : ino = e.stat.inode
    · subst hino
      have hnone : firstOf before e.stat.inode = none := by
        by_contra hsome
        exact hsecond ⟨hm, Option.ne_none_iff_exists'.mp hsome⟩
      rw [List.lookup_cons_self, firstOf_concat_of_none hnone, if_pos ⟨hm, rfl⟩]
      rfl
    · rw [List.lookup_cons, beq_eq_false_iff_ne.mpr hino]
      dsimp only
      rw [hold]
      cases hf : firstOf before ino with
      | some b => rw [firstOf_concat_of_some hf]
      | none => rw [firstOf_concat_of_none hf, if_neg fun heq => hino heq.2.symm]
  · rw [nowSeen, if_neg (show ¬(e.stat.isDir = false ∧ 1 < e.stat.links) from hm), hold]
    cases hf : firstOf before ino with
    | some b => rw [firstOf_concat_of_some hf]
    | none => rw [firstOf_concat_of_none hf, if_neg fun heq => hm heq.1]

end

/-! ## Exporters -/

/-- An exporter that goes through names with a table of first names: how it takes one name, which
of its steps link an inode to a first path and which make an inode at a path, and which types it
leaves out. -/
structure Exporter (v : Volume) (σ α : Type) where
  one : σ → WalkEntry → σ × Steps α
  table : σ → List (Nat × Bytes)
  path : WalkEntry → Bytes
  leftOut : Nat → Prop
  /-- Whether a link to a first name can be written. -/
  canLink : WalkEntry → Prop
  /-- The step that links a second name to the first path. -/
  link : Bytes → WalkEntry → α
  /-- The steps for a name of its own, all of which it needs reads. -/
  own : WalkEntry → List α → Prop
  links : Nat → Bytes → α → Prop
  makes : Nat → Bytes → α → Prop
  /-- A link is all that is done for a second name. -/
  second_iff : ∀ {s e p xs}, firstSeen (table s) e.stat = some p →
    ((one s e).2 = ⟨xs, none⟩ ↔ (∃ i, v.inode e.stat.inode = .ok i) ∧ canLink e ∧ xs = [link p e])
  own_iff : ∀ {s e xs}, firstSeen (table s) e.stat = none →
    ((one s e).2 = ⟨xs, none⟩ ↔ own e xs)
  links_link : ∀ {e p}, links e.stat.inode p (link p e)
  /-- Nothing else is a link. -/
  of_links : ∀ {s e x ino p}, x ∈ (one s e).2.done → links ino p x → ino = e.stat.inode ∧
    firstSeen (table s) e.stat = some p ∧ canLink e ∧ (one s e).2.done = [x]
  table_second : ∀ {s e p}, firstSeen (table s) e.stat = some p → (one s e).2.error = none →
    table (one s e).1 = table s
  table_first : ∀ {s e}, firstSeen (table s) e.stat = none → (one s e).2.error = none →
    table (one s e).1 = nowSeen (table s) e.stat (path e)
  /-- An inode is made for a name of its own, of a type that is not left out. -/
  of_makes : ∀ {s e x ino p}, x ∈ (one s e).2.done → makes ino p x → ino = e.stat.inode ∧
    ¬leftOut e.stat.ftype
  makes_first : ∀ {s e}, firstSeen (table s) e.stat = none → (one s e).2.error = none →
    e.stat.isDir = false → ¬leftOut e.stat.ftype →
      ∃ x ∈ (one s e).2.done, makes e.stat.inode (path e) x

namespace Exporter

variable {v : Volume} {σ α τ : Type} (X : Exporter v σ α)

/-- Exporting gets past some names: of each one all that it needs reads, and who the steps are
handed to takes them, from state `t0` on.  A second name is linked to the path of the first. -/
inductive Past (take : τ → α → Option τ) (t0 : τ) : List WalkEntry → τ → Prop where
  | nil : Past take t0 [] t0
  | second {before : List WalkEntry} {e a : WalkEntry} {i : Inode} {t t' : τ} :
      Past take t0 before t → Multi e.stat → firstOf before e.stat.inode = some a →
      v.inode e.stat.inode = .ok i → X.canLink e → take t (X.link (X.path a) e) = some t' →
      Past take t0 (before ++ [e]) t'
  | own {before : List WalkEntry} {e : WalkEntry} {xs : List α} {t t' : τ} :
      Past take t0 before t → ¬SecondName before e → X.own e xs → xs.foldlM take t = some t' →
      Past take t0 (before ++ [e]) t'

/-- Every link is to a path at which an earlier step has made the same inode. -/
def LinksLead (done : List α) : Prop :=
  ∀ before x after ino p, done = before ++ x :: after → X.links ino p x →
    ∃ y ∈ before, X.makes ino p y

/-- No second name of a type that is left out is come to, of those that can be linked. -/
def NoneLeftOut (take : τ → α → Option τ) (t0 : τ) (es : List WalkEntry) : Prop :=
  ∀ before e after t, es = before ++ e :: after → X.Past take t0 before t →
    SecondName before e → X.canLink e → ¬X.leftOut e.stat.ftype

/-- The first names, and what is made for them. -/
structure FirstMade (before : List WalkEntry) (s : σ) (done : List α) : Prop where
  first : FirstNames X.path before (X.table s)
  /-- A first name's inode is made unless its type is left out. -/
  made : ∀ ino p, (X.table s).lookup ino = some p →
    (∃ a ∈ before, a.stat.inode = ino ∧ X.leftOut a.stat.ftype) ∨ ∃ x ∈ done, X.makes ino p x
  /-- What is made is of a type that is not left out. -/
  own : ∀ ino p, ∀ x ∈ done, X.makes ino p x →
    ∃ a ∈ before, a.stat.inode = ino ∧ ¬X.leftOut a.stat.ftype

variable {X} {s : σ} {e : WalkEntry} {before : List WalkEntry} {done : List α}
  {take : τ → α → Option τ} {t0 t : τ}

theorem FirstMade.step (h : X.FirstMade before s done) (herr : (X.one s e).2.error = none) :
    X.FirstMade (before ++ [e]) (X.one s e).1 (done ++ (X.one s e).2.done) := by
  have hkept : ∀ ino p, (X.table s).lookup ino = some p →
      (∃ a ∈ before ++ [e], a.stat.inode = ino ∧ X.leftOut a.stat.ftype) ∨
        ∃ x ∈ done ++ (X.one s e).2.done, X.makes ino p x := fun ino p hp =>
    (h.made ino p hp).imp (fun ⟨a, ha, hrest⟩ => ⟨a, List.mem_append_left _ ha, hrest⟩)
      fun ⟨x, hx, hrest⟩ => ⟨x, List.mem_append_left _ hx, hrest⟩
  have hown : ∀ ino p, ∀ x ∈ done ++ (X.one s e).2.done, X.makes ino p x →
      ∃ a ∈ before ++ [e], a.stat.inode = ino ∧ ¬X.leftOut a.stat.ftype := by
    intro ino p x hx hm
    rcases List.mem_append.mp hx with hx | hx
    · obtain ⟨a, ha, hrest⟩ := h.own ino p x hx hm
      exact ⟨a, List.mem_append_left _ ha, hrest⟩
    · obtain ⟨hino, hleft⟩ := X.of_makes hx hm
      exact ⟨e, List.mem_append_right _ List.mem_cons_self, hino.symm, hleft⟩
  cases hf : firstSeen (X.table s) e.stat with
  | some p =>
    have htable := X.table_second hf herr
    exact ⟨htable ▸ h.first.second hf, htable ▸ hkept, hown⟩
  | none =>
    have htable := X.table_first hf herr
    refine ⟨htable ▸ h.first.first hf, fun ino q hq => ?_, hown⟩
    rw [htable, nowSeen] at hq
    split_ifs at hq with hm
    · by_cases hino : ino = e.stat.inode
      · subst hino
        rw [List.lookup_cons_self] at hq
        obtain rfl := Option.some.inj hq
        by_cases hleft : X.leftOut e.stat.ftype
        · exact Or.inl ⟨e, List.mem_append_right _ List.mem_cons_self, rfl, hleft⟩
        · obtain ⟨x, hx, hmakes⟩ := X.makes_first hf herr hm.1 hleft
          exact Or.inr ⟨x, List.mem_append_right _ hx, hmakes⟩
      · rw [List.lookup_cons, beq_eq_false_iff_ne.mpr hino] at hq
        exact hkept ino q hq
    · exact hkept ino q hq

/-- The first names that are come to are made or left out. -/
theorem first_made (h0 : X.table s = []) (herr : (Steps.run X.one s before).error = none) :
    X.FirstMade before (Steps.after X.one s before) (Steps.run X.one s before).done := by
  refine Steps.after_invariant ⟨h0 ▸ .nil, fun ino p hp => ?_, fun _ _ _ hx => absurd hx List.not_mem_nil⟩
    (fun _ _ _ _ h => h.step) herr
  rw [h0] at hp
  simp at hp

/-- The steps for a name that is come to, when they end well. -/
theorem one_iff (h : FirstNames X.path before (X.table s)) {xs : List α} :
    (X.one s e).2 = ⟨xs, none⟩ ↔
      (∃ a i, Multi e.stat ∧ firstOf before e.stat.inode = some a ∧ v.inode e.stat.inode = .ok i ∧
        X.canLink e ∧ xs = [X.link (X.path a) e]) ∨ ¬SecondName before e ∧ X.own e xs := by
  cases hp : firstSeen (X.table s) e.stat with
  | some p =>
    obtain ⟨hm, a, ha, rfl⟩ := h.firstSeen_iff.mp hp
    rw [X.second_iff hp]
    constructor
    · rintro ⟨⟨i, hi⟩, hcan, rfl⟩
      exact Or.inl ⟨a, i, hm, ha, hi, hcan, rfl⟩
    · rintro (⟨b, i, -, hb, hi, hcan, rfl⟩ | ⟨hnot, -⟩)
      · obtain rfl := Option.some.inj (ha.symm.trans hb)
        exact ⟨⟨i, hi⟩, hcan, rfl⟩
      · exact absurd ⟨hm, a, ha⟩ hnot
  | none =>
    have hnot := h.firstSeen_none_iff.mp hp
    rw [X.own_iff hp]
    constructor
    · exact fun hown => Or.inr ⟨hnot, hown⟩
    · rintro (⟨a, i, hm, ha, -⟩ | ⟨-, hown⟩)
      · exact absurd ⟨hm, a, ha⟩ hnot
      · exact hown

theorem past_nil_iff : X.Past take t0 [] t ↔ t = t0 := by
  constructor
  · intro h
    generalize hl : ([] : List WalkEntry) = l at h
    cases h with
    | nil => rfl
    | _ => simp at hl
  · rintro rfl
    exact .nil

/-- One name more is got past when its steps end well and are taken. -/
theorem past_concat_iff : X.Past take t0 (before ++ [e]) t ↔ ∃ t1 xs, X.Past take t0 before t1 ∧
    ((∃ a i, Multi e.stat ∧ firstOf before e.stat.inode = some a ∧ v.inode e.stat.inode = .ok i ∧
      X.canLink e ∧ xs = [X.link (X.path a) e]) ∨ ¬SecondName before e ∧ X.own e xs) ∧
    xs.foldlM take t1 = some t := by
  constructor
  · intro h
    generalize hl : before ++ [e] = l at h
    cases h with
    | nil => simp at hl
    | @second before' e' a i t1 _ hpast hm ha hi hcan htake =>
      obtain ⟨rfl, heq⟩ := List.append_inj' hl rfl
      obtain rfl : e = e' := by simpa using heq
      refine ⟨t1, _, hpast, Or.inl ⟨a, i, hm, ha, hi, hcan, rfl⟩, ?_⟩
      exact Steps.foldlM_take_cons.mpr ⟨t, htake, rfl⟩
    | @own before' e' xs t1 _ hpast hnot hown htake =>
      obtain ⟨rfl, heq⟩ := List.append_inj' hl rfl
      obtain rfl : e = e' := by simpa using heq
      exact ⟨t1, xs, hpast, Or.inr ⟨hnot, hown⟩, htake⟩
  · rintro ⟨t1, xs, hpast, ⟨a, i, hm, ha, hi, hcan, rfl⟩ | ⟨hnot, hown⟩, htake⟩
    · obtain ⟨t2, h2, hnil⟩ := Steps.foldlM_take_cons.mp htake
      cases hnil
      exact .second hpast hm ha hi hcan h2
    · exact .own hpast hnot hown htake

/-- The exporter gets past names exactly when they all end well and their steps are taken. -/
theorem past_iff (h0 : X.table s = []) : X.Past take t0 before t ↔
    (Steps.run X.one s before).error = none ∧
      (Steps.run X.one s before).done.foldlM take t0 = some t := by
  induction before using List.reverseRecOn generalizing t with
  | nil =>
    rw [past_nil_iff]
    refine ⟨fun h => ⟨rfl, congrArg some h.symm⟩, fun h => (Option.some.inj h.2).symm⟩
  | append_singleton before e ih =>
    rw [past_concat_iff, Steps.run_concat]
    constructor
    · rintro ⟨t1, xs, hpast, hone, htake⟩
      obtain ⟨herr, hdone⟩ := ih.mp hpast
      have hone := (one_iff (first_made h0 herr).first).mpr hone
      rw [Steps.andThen_of_none herr, hone]
      exact ⟨rfl, Steps.foldlM_take_append.mpr ⟨t1, hdone, htake⟩⟩
    · rintro ⟨herr, hdone⟩
      obtain ⟨herr, hlast⟩ := Steps.andThen_error_none.mp herr
      rw [Steps.andThen_of_none herr] at hdone
      obtain ⟨t1, hfirst, htake⟩ := Steps.foldlM_take_append.mp hdone
      refine ⟨t1, _, ih.mpr ⟨herr, hfirst⟩, (one_iff (first_made h0 herr).first).mp ?_, htake⟩
      exact congrArg (Steps.mk _) hlast

/-- Where the links lead among the steps that are tried. -/
theorem linksLead_handed_iff {steps : Steps α} {refused : Error} :
    X.LinksLead (steps.handed take refused t0).done ↔
      ∀ before x after ino p t, steps.done = before ++ x :: after →
        before.foldlM take t0 = some t → X.links ino p x → ∃ y ∈ before, X.makes ino p y := by
  constructor
  · intro h before x after ino p t hdone ht hl
    obtain ⟨post, hpost⟩ := Steps.done_handed_iff.mpr ⟨⟨after, hdone⟩, t, ht⟩
    exact h before x post ino p hpost hl
  · intro h before x after ino p hdone hl
    obtain ⟨⟨post, hpost⟩, t, ht⟩ := Steps.done_handed_iff.mp ⟨after, hdone⟩
    exact h before x post ino p t hpost ht hl

/-- Every link leads to what has been made exactly when no second name is come to of a type that
is left out. -/
theorem links_lead_iff (h0 : X.table s = []) {es : List WalkEntry} {refused : Error}
    (hread : ∀ e ∈ es, ∃ i, v.inode e.stat.inode = .ok i)
    (hsame : ∀ a ∈ es, ∀ b ∈ es, a.stat.inode = b.stat.inode → a.stat = b.stat) :
    X.LinksLead ((Steps.run X.one s es).handed take refused t0).done ↔ X.NoneLeftOut take t0 es := by
  rw [linksLead_handed_iff]
  constructor
  · rintro hlead before e after t rfl hpast hsecond hcan
    obtain ⟨herr, htaken⟩ := (past_iff h0).mp hpast
    have hinv := first_made h0 herr
    have hmem : e ∈ before ++ e :: after := List.mem_append_right _ List.mem_cons_self
    obtain ⟨hm, b, hb⟩ := hsecond
    have hp := hinv.first.firstSeen_iff.mpr ⟨hm, b, hb, rfl⟩
    obtain ⟨i, hi⟩ := hread e hmem
    have hone := (X.second_iff hp).mpr ⟨⟨i, hi⟩, hcan, rfl⟩
    obtain ⟨ys, hdone⟩ := @Steps.done_of_reached _ _ _ _ X.one s before after e herr
    rw [hone] at hdone
    obtain ⟨y, hy, hmakes⟩ := hlead _ _ ys _ _ t hdone htaken X.links_link
    obtain ⟨a, ha, hino, hleft⟩ := hinv.own _ _ y hy hmakes
    rwa [hsame a (List.mem_append_left _ ha) e hmem hino] at hleft
  · rintro hcond before x after ino p t hdone htaken hlink
    obtain ⟨as, b, cs, pre, post, rfl, herr, hb, rfl⟩ := Steps.exists_of_done hdone
    have hinv := first_made h0 herr
    obtain ⟨rfl, hp, hcan, hone⟩ := X.of_links (hb ▸ List.mem_append_right pre List.mem_cons_self) hlink
    obtain ⟨hm, a, ha, -⟩ := hinv.first.firstSeen_iff.mp hp
    obtain ⟨t1, ht1, -⟩ := Steps.foldlM_take_append.mp htaken
    have hpast : X.Past take t0 as t1 := (past_iff h0).mpr ⟨herr, ht1⟩
    rcases hinv.made _ p (firstSeen_eq_some.mp hp).2 with ⟨a', ha', hino, hleft⟩ | ⟨y, hy, hmakes⟩
    · refine absurd ?_ (hcond as b cs t1 rfl hpast ⟨hm, a, ha⟩ hcan)
      rwa [← hsame a' (List.mem_append_left _ ha') b (List.mem_append_right _ List.mem_cons_self) hino]
    · exact ⟨y, List.mem_append_left _ hy, hmakes⟩

end Exporter

/-! ## Links in an archive -/

/-- The header of a name that is linked to the first. -/
def linkHeader (e : WalkEntry) (first : Bytes) : Tar.Header :=
  { packHeader e with kind := .hardLink, link := first }

/-- A header the writer can write gives its entry. -/
theorem done_of_hand {ino : Nat} {h : Tar.Header} {pieces : Steps Bytes}
    (herr : (hand ino h pieces).error = none) :
    (hand ino h pieces).done = [(ino, ⟨h, pieces.done⟩)] := by
  unfold hand at herr ⊢
  split at herr
  · cases herr
  · rfl

theorem mem_hand {ino : Nat} {h : Tar.Header} {pieces : Steps Bytes} {x : Nat × Tar.Entry}
    (hm : x ∈ (hand ino h pieces).done) : (hand ino h pieces).done = [x] ∧ x.1 = ino ∧
      x.2.header = h ∧ (hand ino h pieces).error = pieces.error := by
  unfold hand at hm ⊢
  split at hm
  · cases hm
  · cases List.mem_singleton.mp hm
    exact ⟨rfl, rfl, rfl, rfl⟩

section
variable {v : Volume} {seen : List (Nat × Bytes)} {e : WalkEntry}

/-- An entry of its own is handed over, or nothing is. -/
theorem packOwn_cases (v : Volume) (i : Inode) (e : WalkEntry) {h : Tar.Header}
    (hk : h.kind ≠ .hardLink) : (∃ err, v.packOwn i e h = ⟨[], some err⟩) ∨
      ∃ h' pieces, v.packOwn i e h = hand e.stat.inode h' pieces ∧ h'.kind ≠ .hardLink ∧
        (e.stat.isDir = false → h'.path = h.path) := by
  have hdir : e.stat.ftype = Mode.IFDIR → e.stat.isDir = true := fun hd => by
    rw [Stat.isDir, hd]
    rfl
  unfold packOwn
  dsimp only
  split_ifs with h1 h2 h3 h4 h5 h6
  · refine Or.inr ⟨_, _, rfl, by simp, fun hnot => ?_⟩
    rw [hdir h1] at hnot
    cases hnot
  · split
    · exact Or.inl ⟨_, rfl⟩
    · exact Or.inr ⟨_, _, rfl, by simp, fun _ => rfl⟩
  · exact Or.inr ⟨_, _, rfl, by simp, fun _ => rfl⟩
  · exact Or.inr ⟨_, _, rfl, by simp, fun _ => rfl⟩
  · exact Or.inr ⟨_, _, rfl, by simp, fun _ => rfl⟩
  · exact Or.inr ⟨_, _, rfl, hk, fun _ => rfl⟩
  · exact Or.inl ⟨_, rfl⟩

/-- What packing one name does: nothing but fail, a link to the first name, nothing for a socket,
or an entry of its own. -/
theorem packOne_cases (v : Volume) (seen : List (Nat × Bytes)) (e : WalkEntry) :
    (∃ s err, v.packOne seen e = (s, ⟨[], some err⟩)) ∨
    (∃ p, firstSeen seen e.stat = some p ∧
      v.packOne seen e = (seen, hand e.stat.inode (linkHeader e p) ⟨[], none⟩)) ∨
    (firstSeen seen e.stat = none ∧ e.stat.ftype = Mode.IFSOCK ∧
      v.packOne seen e = (nowSeen seen e.stat e.rawPath, ⟨[], none⟩)) ∨
    (firstSeen seen e.stat = none ∧ e.stat.ftype ≠ Mode.IFSOCK ∧ ∃ h pieces,
      v.packOne seen e = (nowSeen seen e.stat e.rawPath, hand e.stat.inode h pieces) ∧
        h.kind ≠ .hardLink ∧ (e.stat.isDir = false → h.path = e.rawPath)) := by
  unfold packOne
  cases v.inode e.stat.inode with
  | error err => exact Or.inl ⟨_, _, rfl⟩
  | ok i =>
    cases hf : firstSeen seen e.stat with
    | some p => exact Or.inr (Or.inl ⟨p, rfl, rfl⟩)
    | none =>
      by_cases hs : e.stat.ftype = Mode.IFSOCK
      · exact Or.inr (Or.inr (Or.inl ⟨rfl, hs, if_pos hs⟩))
      · dsimp only
        rw [if_neg hs]
        cases v.packXattrs i e.stat with
        | error err => exact Or.inl ⟨_, _, rfl⟩
        | ok xattrs =>
          have hk : ({ packHeader e with xattrs := xattrs } : Tar.Header).kind ≠ .hardLink := by
            simp [packHeader]
          rcases packOwn_cases v i e hk with ⟨err, h⟩ | ⟨h', pieces, h, hkind, hpath⟩
          · exact Or.inl ⟨_, _, congrArg _ h⟩
          · exact Or.inr (Or.inr (Or.inr ⟨rfl, hs, h', pieces, congrArg _ h, hkind, hpath⟩))

/-- A second name of an inode that reads is linked. -/
theorem packOne_of_firstSeen {i : Inode} {p : Bytes} (hi : v.inode e.stat.inode = .ok i)
    (hp : firstSeen seen e.stat = some p) :
    v.packOne seen e = (seen, hand e.stat.inode (linkHeader e p) ⟨[], none⟩) := by
  rw [packOne, hi]
  dsimp only
  rw [hp]
  rfl

/-- Whether a header can say the time: one before the epoch has less than a second of
nanoseconds. -/
def Timed (st : Stat) : Prop := ∃ time, Tar.paxTime st.mtime = .ok time

/-- A link is written when its time can be. -/
theorem hand_link_iff (p : Bytes) :
    (hand e.stat.inode (linkHeader e p) ⟨[], none⟩).error = none ↔ Timed e.stat := by
  have hxattrs : (linkHeader e p).xattrs = [] := rfl
  have hmtime : (linkHeader e p).mtime = e.stat.mtime := rfl
  have hmeta : (∃ records, Tar.metadataRecords (linkHeader e p) = .ok records) ↔ Timed e.stat := by
    rw [Tar.metadataRecords, hmtime]
    constructor
    · rintro ⟨_, h⟩
      obtain ⟨time, htime, -⟩ := except_bind_eq_ok.mp h
      exact ⟨time, htime⟩
    · rintro ⟨time, htime⟩
      exact ⟨_, except_bind_eq_ok.mpr ⟨time, htime, rfl⟩⟩
  have hrecords : ∀ fits, (∃ records, Tar.extendedRecords (linkHeader e p) fits = .ok records) ↔
      Timed e.stat := by
    intro fits
    rw [Tar.extendedRecords, hxattrs, hmtime, ← hmeta]
    by_cases hneed : fits = false ∨ e.stat.mtime.nsecs ≠ 0
    · rw [if_pos hneed]
      constructor
      · rintro ⟨_, h⟩
        obtain ⟨records, hr, -⟩ := except_bind_eq_ok.mp h
        exact ⟨records, hr⟩
      · rintro ⟨records, hr⟩
        exact ⟨_, except_bind_eq_ok.mpr ⟨records, hr, rfl⟩⟩
    · rw [if_neg hneed]
      refine iff_of_true ⟨_, rfl⟩ (hmeta.mpr ?_)
      rw [not_or, not_not] at hneed
      exact ⟨_, if_pos hneed.2⟩
  rw [← hrecords (Tar.ustar (linkHeader e p).path (linkHeader e p).kind.flag (linkHeader e p)
    (linkHeader e p).contents).2, hand]
  cases Tar.extendedRecords (linkHeader e p) _ with
  | error err => simp
  | ok records => simp

/-- The entries for a name of its own when all it needs reads: none for a socket. -/
def PackedOwn (v : Volume) (e : WalkEntry) (xs : List (Nat × Tar.Entry)) : Prop :=
  ∃ i, v.inode e.stat.inode = .ok i ∧ (e.stat.ftype = Mode.IFSOCK ∧ xs = [] ∨
    e.stat.ftype ≠ Mode.IFSOCK ∧ ∃ xattrs, v.packXattrs i e.stat = .ok xattrs ∧
      v.packOwn i e { packHeader e with xattrs := xattrs } = ⟨xs, none⟩)

theorem packOne_own_iff {xs : List (Nat × Tar.Entry)} (hp : firstSeen seen e.stat = none) :
    (v.packOne seen e).2 = ⟨xs, none⟩ ↔ PackedOwn v e xs := by
  unfold packOne PackedOwn
  cases hi : v.inode e.stat.inode with
  | error err => simp
  | ok i =>
    rw [hp]
    simp only [Except.ok.injEq, exists_eq_left']
    by_cases hs : e.stat.ftype = Mode.IFSOCK
    · simp [hs, eq_comm]
    · rw [if_neg hs]
      cases hx : v.packXattrs i e.stat with
      | error err => simp [hs]
      | ok xattrs => simp [hs]

/-- `pack_into` leaves out sockets. -/
def packing (v : Volume) : Exporter v (List (Nat × Bytes)) (Nat × Tar.Entry) where
  one := v.packOne
  table seen := seen
  path := (·.rawPath)
  leftOut ftype := ftype = Mode.IFSOCK
  canLink e := Timed e.stat
  link p e := (e.stat.inode, ⟨linkHeader e p, []⟩)
  own e xs := PackedOwn v e xs
  links ino p x := x.1 = ino ∧ x.2.header.kind = .hardLink ∧ x.2.header.link = p
  makes ino p x := x.1 = ino ∧ x.2.header.kind ≠ .hardLink ∧ x.2.header.path = p
  second_iff {s e p xs} hp := by
    constructor
    · intro h
      cases hi : v.inode e.stat.inode with
      | error err =>
        rw [packOne, hi] at h
        cases h
      | ok i =>
        rw [packOne_of_firstSeen hi hp] at h
        have hcan := (hand_link_iff p).mp (congrArg Steps.error h)
        refine ⟨⟨i, rfl⟩, hcan, ?_⟩
        exact (congrArg Steps.done h).symm.trans (done_of_hand ((hand_link_iff p).mpr hcan))
    · rintro ⟨⟨i, hi⟩, hcan, rfl⟩
      have herr := (hand_link_iff p).mpr hcan
      rw [packOne_of_firstSeen hi hp]
      exact Steps.ext (done_of_hand herr) herr
  own_iff hp := packOne_own_iff hp
  links_link := ⟨rfl, rfl, rfl⟩
  of_links {s e x ino p} hx hl := by
    obtain ⟨hino, hkind, hlink⟩ := hl
    rcases packOne_cases v s e with ⟨t, err, heq⟩ | ⟨q, hq, heq⟩ | ⟨-, -, heq⟩ |
      ⟨-, -, h, pieces, heq, hk, -⟩
    · rw [heq] at hx
      cases hx
    · rw [heq] at hx ⊢
      obtain ⟨hone, hxino, hheader, herr⟩ := mem_hand hx
      rw [hheader] at hlink
      exact ⟨hino.symm.trans hxino, hlink ▸ hq, (hand_link_iff q).mp herr, hone⟩
    · rw [heq] at hx
      cases hx
    · rw [heq] at hx
      obtain ⟨-, -, hheader, -⟩ := mem_hand hx
      rw [hheader] at hkind
      exact absurd hkind hk
  table_second {s e p} hp herr := by
    rcases packOne_cases v s e with ⟨t, err, heq⟩ | ⟨q, hq, heq⟩ | ⟨hnone, -⟩ | ⟨hnone, -⟩
    · rw [heq] at herr
      cases herr
    · rw [heq]
    · exact absurd (hp.symm.trans hnone) (by simp)
    · exact absurd (hp.symm.trans hnone) (by simp)
  table_first {s e} hp herr := by
    rcases packOne_cases v s e with ⟨t, err, heq⟩ | ⟨q, hq, -⟩ | ⟨-, -, heq⟩ | ⟨-, -, h, pieces, heq, -⟩
    · rw [heq] at herr
      cases herr
    · exact absurd (hp.symm.trans hq) (by simp)
    · rw [heq]
    · rw [heq]
  of_makes {s e x ino p} hx hm := by
    obtain ⟨hino, hkind, -⟩ := hm
    rcases packOne_cases v s e with ⟨t, err, heq⟩ | ⟨q, hq, heq⟩ | ⟨-, -, heq⟩ | ⟨-, hs, h, pieces, heq, -⟩
    · rw [heq] at hx
      cases hx
    · rw [heq] at hx
      obtain ⟨-, -, hheader, -⟩ := mem_hand hx
      rw [hheader] at hkind
      exact absurd rfl hkind
    · rw [heq] at hx
      cases hx
    · rw [heq] at hx
      obtain ⟨-, hxino, -⟩ := mem_hand hx
      exact ⟨hino.symm.trans hxino, hs⟩
  makes_first {s e} hp herr hdir hleft := by
    rcases packOne_cases v s e with ⟨t, err, heq⟩ | ⟨q, hq, -⟩ | ⟨-, hs, -⟩ |
      ⟨-, -, h, pieces, heq, hk, hpath⟩
    · rw [heq] at herr
      cases herr
    · exact absurd (hp.symm.trans hq) (by simp)
    · exact absurd hs hleft
    · rw [heq] at herr ⊢
      refine ⟨(e.stat.inode, ⟨h, pieces.done⟩), ?_, rfl, hk, hpath hdir⟩
      rw [done_of_hand herr]
      exact List.mem_cons_self

end

/-! ## Links on the local filesystem -/

section
variable {v : Volume} {owner : Bool} {dest : Bytes} {s : ExtractState} {e : WalkEntry}

/-- What extracting a name of its own asks of the host, and for which types it makes an inode at the
name's path. -/
theorem mem_extractOwn {i : Inode} {st : Stat} {path : Bytes} {op : HostOp}
    (h : op ∈ (v.extractOwn owner i st path).done) :
    (∀ first p, op ≠ .hardLink first p) ∧
      (∀ p, op = .createFile p → st.ftype = Mode.IFREG) ∧
      ∀ t p, op = .symlink t p → st.ftype = Mode.IFLNK := by
  have howner : ∀ op ∈ setOwner owner st path, op = .lchown path st.uid st.gid := fun op hop => by
    unfold setOwner at hop
    split_ifs at hop
    · exact List.mem_singleton.mp hop
    · cases hop
  unfold extractOwn at h
  split_ifs at h with hd hl hr
  · rcases List.mem_append.mp h with h | h
    · simp only [List.mem_cons, List.not_mem_nil, or_false] at h
      rcases h with rfl | rfl <;> simp [setMode]
    · simp [howner op h]
  · split at h
    · cases h
    · rcases List.mem_append.mp h with h | h
      · simp [List.mem_singleton.mp h, hl]
      · simp [howner op h]
  · rcases Steps.mem_done_andThen h with h | h
    · simp [List.mem_singleton.mp h, hr]
    rcases Steps.mem_done_andThen h with h | h
    · obtain ⟨piece, -, rfl⟩ := List.mem_map.mp h
      simp
    · simp only [List.mem_append, List.mem_singleton] at h
      rcases h with (rfl | h) | rfl
      · simp
      · simp [howner op h]
      · simp [setMode]
  · cases h

/-- A file or a symbolic link is made at the name's path. -/
theorem makes_of_extractOwn {i : Inode} {st : Stat} {path : Bytes}
    (herr : (v.extractOwn owner i st path).error = none) :
    (st.ftype = Mode.IFREG → .createFile path ∈ (v.extractOwn owner i st path).done) ∧
      (st.ftype = Mode.IFLNK → ∃ t, .symlink t path ∈ (v.extractOwn owner i st path).done) := by
  have hne : Mode.IFREG ≠ Mode.IFDIR ∧ Mode.IFREG ≠ Mode.IFLNK ∧ Mode.IFLNK ≠ Mode.IFDIR := by decide
  constructor
  · intro hr
    rw [extractOwn, hr, if_neg hne.1, if_neg hne.2.1, if_pos rfl, Steps.andThen_of_none rfl]
    exact List.mem_cons_self
  · intro hl
    rw [extractOwn, hl, if_neg hne.2.2, if_pos rfl] at herr ⊢
    cases ht : v.symlinkTarget i with
    | error err =>
      rw [ht] at herr
      cases herr
    | ok target => exact ⟨target, List.mem_cons_self⟩

/-- What extracting one name does: nothing but fail, a link to the first path, or what a name of its
own asks for. -/
theorem extractOne_cases (v : Volume) (owner : Bool) (dest : Bytes) (s : ExtractState)
    (e : WalkEntry) : (∃ t err, v.extractOne owner dest s e = (t, ⟨[], some err⟩)) ∨
    (∃ p, firstSeen s.seen e.stat = some p ∧ v.extractOne owner dest s e =
      (s, ⟨[(e.stat.inode, .hardLink p (joinTo dest e.rawPath))], none⟩)) ∨
    (firstSeen s.seen e.stat = none ∧ ∃ i, v.inode e.stat.inode = .ok i ∧
      (∃ xattrs, v.packXattrs i e.stat = .ok xattrs) ∧ v.extractOne owner dest s e =
        (⟨nowSeen s.seen e.stat (joinTo dest e.rawPath), s.dirs ++
            if e.stat.ftype = Mode.IFDIR then
              [⟨e.stat.inode, joinTo dest e.rawPath, e.stat.mode, e.stat.mtime⟩] else []⟩,
          stepsFor e.stat.inode (v.extractOwn owner i e.stat (joinTo dest e.rawPath)))) := by
  unfold extractOne
  dsimp only
  cases v.inode e.stat.inode with
  | error err => exact Or.inl ⟨_, _, rfl⟩
  | ok i =>
    cases hf : firstSeen s.seen e.stat with
    | some p => exact Or.inr (Or.inl ⟨p, rfl, rfl⟩)
    | none =>
      dsimp only
      cases hx : v.packXattrs i e.stat with
      | error err => exact Or.inl ⟨_, _, rfl⟩
      | ok xattrs => exact Or.inr (Or.inr ⟨rfl, i, rfl, ⟨xattrs, hx⟩, rfl⟩)

theorem extractOne_of_firstSeen {i : Inode} {p : Bytes} (hi : v.inode e.stat.inode = .ok i)
    (hp : firstSeen s.seen e.stat = some p) : v.extractOne owner dest s e =
      (s, ⟨[(e.stat.inode, .hardLink p (joinTo dest e.rawPath))], none⟩) := by
  rw [extractOne]
  dsimp only
  rw [hi]
  dsimp only
  rw [hp]

/-- A step of `stepsFor`. -/
theorem mem_stepsFor {ino n : Nat} {steps : Steps HostOp} {op : HostOp}
    (h : (n, op) ∈ (stepsFor ino steps).done) : n = ino ∧ op ∈ steps.done := by
  obtain ⟨op', hop, heq⟩ := List.mem_map.mp h
  cases heq
  exact ⟨rfl, hop⟩

/-- What is asked for a name of its own when all it needs reads. -/
def ExtractedOwn (v : Volume) (owner : Bool) (dest : Bytes) (e : WalkEntry)
    (xs : List (Nat × HostOp)) : Prop :=
  ∃ i, v.inode e.stat.inode = .ok i ∧ (∃ xattrs, v.packXattrs i e.stat = .ok xattrs) ∧
    stepsFor e.stat.inode (v.extractOwn owner i e.stat (joinTo dest e.rawPath)) = ⟨xs, none⟩

theorem extractOne_own_iff {xs : List (Nat × HostOp)} (hp : firstSeen s.seen e.stat = none) :
    (v.extractOne owner dest s e).2 = ⟨xs, none⟩ ↔ ExtractedOwn v owner dest e xs := by
  unfold extractOne ExtractedOwn
  dsimp only
  cases hi : v.inode e.stat.inode with
  | error err => simp
  | ok i =>
    rw [hp]
    simp only [Except.ok.injEq, exists_eq_left']
    cases hx : v.packXattrs i e.stat with
    | error err => simp
    | ok xattrs => simp

/-- `extract` makes regular files and symbolic links, and leaves out all else that may have several
links. -/
def extracting (v : Volume) (owner : Bool) (dest : Bytes) :
    Exporter v ExtractState (Nat × HostOp) where
  one := v.extractOne owner dest
  table s := s.seen
  path e := joinTo dest e.rawPath
  leftOut ftype := ftype ≠ Mode.IFREG ∧ ftype ≠ Mode.IFLNK
  canLink _ := True
  link p e := (e.stat.inode, .hardLink p (joinTo dest e.rawPath))
  own e xs := ExtractedOwn v owner dest e xs
  links ino p x := ∃ path, x = (ino, .hardLink p path)
  makes ino p x := x = (ino, .createFile p) ∨ ∃ t, x = (ino, .symlink t p)
  of_links {s e x ino p} hx hl := by
    obtain ⟨path, rfl⟩ := hl
    rcases extractOne_cases v owner dest s e with ⟨t, err, heq⟩ | ⟨q, hq, heq⟩ | ⟨-, i, -, -, heq⟩
    · rw [heq] at hx
      cases hx
    · rw [heq] at hx ⊢
      obtain ⟨rfl, hop⟩ := Prod.mk.inj (List.mem_singleton.mp hx)
      cases hop
      exact ⟨rfl, hq, trivial, rfl⟩
    · rw [heq] at hx
      obtain ⟨-, hop⟩ := mem_stepsFor hx
      exact absurd rfl ((mem_extractOwn hop).1 p path)
  second_iff {s e p xs} hp := by
    constructor
    · intro h
      cases hi : v.inode e.stat.inode with
      | error err =>
        rw [extractOne] at h
        dsimp only at h
        rw [hi] at h
        cases h
      | ok i =>
        rw [extractOne_of_firstSeen hi hp] at h
        exact ⟨⟨i, rfl⟩, trivial, (congrArg Steps.done h).symm⟩
    · rintro ⟨⟨i, hi⟩, -, rfl⟩
      rw [extractOne_of_firstSeen hi hp]
  own_iff hp := extractOne_own_iff hp
  links_link := ⟨_, rfl⟩
  table_second {s e p} hp herr := by
    rcases extractOne_cases v owner dest s e with ⟨t, err, heq⟩ | ⟨q, hq, heq⟩ | ⟨hnone, -⟩
    · rw [heq] at herr
      cases herr
    · rw [heq]
    · exact absurd (hp.symm.trans hnone) (by simp)
  table_first {s e} hp herr := by
    rcases extractOne_cases v owner dest s e with ⟨t, err, heq⟩ | ⟨q, hq, -⟩ | ⟨-, i, -, -, heq⟩
    · rw [heq] at herr
      cases herr
    · exact absurd (hp.symm.trans hq) (by simp)
    · rw [heq]
  of_makes {s e x ino p} hx hm := by
    rcases extractOne_cases v owner dest s e with ⟨t, err, heq⟩ | ⟨q, hq, heq⟩ | ⟨-, i, -, -, heq⟩
    · rw [heq] at hx
      cases hx
    · rw [heq] at hx
      rw [List.mem_singleton.mp hx] at hm
      simp at hm
    · rw [heq] at hx
      rcases hm with rfl | ⟨t, rfl⟩
      · obtain ⟨hino, hop⟩ := mem_stepsFor hx
        exact ⟨hino, fun h => h.1 ((mem_extractOwn hop).2.1 p rfl)⟩
      · obtain ⟨hino, hop⟩ := mem_stepsFor hx
        exact ⟨hino, fun h => h.2 ((mem_extractOwn hop).2.2 t p rfl)⟩
  makes_first {s e} hp herr _ hleft := by
    rcases extractOne_cases v owner dest s e with ⟨t, err, heq⟩ | ⟨q, hq, -⟩ | ⟨-, i, -, -, heq⟩
    · rw [heq] at herr
      cases herr
    · exact absurd (hp.symm.trans hq) (by simp)
    · rw [heq] at herr ⊢
      obtain ⟨hreg, hlnk⟩ := makes_of_extractOwn herr
      rw [not_and_or, not_not, not_not] at hleft
      rcases hleft with hr | hl
      · exact ⟨_, List.mem_map_of_mem (hreg hr), Or.inl rfl⟩
      · obtain ⟨target, ht⟩ := hlnk hl
        exact ⟨_, List.mem_map_of_mem ht, Or.inr ⟨target, rfl⟩⟩

/-- The directories' last steps link nothing. -/
theorem links_lead_extract (v : Volume) (owner : Bool) (dest : Bytes) (fs : LocalFs) (h : Host)
    (es : List WalkEntry) :
    (extracting v owner dest).LinksLead (v.extract owner dest fs h es).done ↔
      (extracting v owner dest).LinksLead ((Steps.run (v.extractOne owner dest) ⟨[], []⟩ es).handed
        fs.take (.io "the host refused") h).done := by
  have hno : ∀ dirs, ∀ x ∈ finishDirs dirs, ∀ ino first path, x ≠ (ino, .hardLink first path) := by
    intro dirs x hx ino first path
    obtain ⟨d, -, hx⟩ := List.mem_flatMap.mp hx
    simp only [List.mem_cons, List.not_mem_nil, or_false] at hx
    rcases hx with rfl | rfl <;> simp [setMode]
  unfold extract
  rw [Exporter.linksLead_handed_iff, Exporter.linksLead_handed_iff, extractOps]
  cases herr : (Steps.run (v.extractOne owner dest) ⟨[], []⟩ es).error with
  | some err => rw [Steps.andThen_of_some herr]
  | none =>
    rw [Steps.andThen_of_none herr]
    dsimp only
    generalize (Steps.run (v.extractOne owner dest) ⟨[], []⟩ es).done = done
    constructor
    · rintro h before x after ino p t rfl ht hl
      rw [List.append_assoc, List.cons_append] at h
      exact h before x _ ino p t rfl ht hl
    · rintro h before x after ino p t heq ht hl
      rcases append_eq_append_cons heq with ⟨rest, hdone, -⟩ | ⟨rest, -, hrest⟩
      · exact h before x rest ino p t hdone ht hl
      · obtain ⟨path, rfl⟩ := hl
        exact absurd rfl (hno _ _ (hrest ▸ List.mem_append_right rest List.mem_cons_self) ino p path)

end

/-! ## Both exporters -/

/-- Every hard link of an archive leads to an earlier entry for its inode, and every one that is asked
of the local filesystem to a path made for its inode before, exactly when packing comes to no second
name of a socket, and extracting to none of a file that is neither regular nor a symbolic link;
whatever the sink and the host refuse. -/
theorem hard_links_lead_iff {v : Volume} {root : Bytes} {es : List WalkEntry} (h : v.Walks root es)
    {κ : Type} (sink : κ → Nat × Tar.Entry → Option κ) (k : κ) (owner : Bool) (dest : Bytes)
    (fs : LocalFs) (host : Host) :
    ((packing v).LinksLead (v.packInto sink k es).done ∧
      (extracting v owner dest).LinksLead (v.extract owner dest fs host es).done) ↔
    (packing v).NoneLeftOut sink k es ∧ (extracting v owner dest).NoneLeftOut fs.take host es := by
  have hread : ∀ e ∈ es, ∃ i, v.inode e.stat.inode = .ok i := fun e he => by
    obtain ⟨i, hi, -⟩ := stat_of_yields (yields_of_walks h e he)
    exact ⟨i, hi⟩
  have hsame := stat_of_walks h
  refine and_congr ?_ ?_
  · exact @Exporter.links_lead_iff _ _ _ _ (packing v) [] sink k rfl es _ hread hsame
  · rw [links_lead_extract]
    exact @Exporter.links_lead_iff _ _ _ _ (extracting v owner dest) ⟨[], []⟩ fs.take host rfl es _
      hread hsame

/-! ## Two names of one inode -/

/-- The walk of the tree with two names. -/
def twoEntries (mode : Nat) : List WalkEntry :=
  [⟨[97], ⟨17, 0, mode, 2, 0, 0, ⟨0, 0⟩, (0, 0)⟩⟩, ⟨[98], ⟨17, 0, mode, 2, 0, 0, ⟨0, 0⟩, (0, 0)⟩⟩]

set_option maxRecDepth 100000 in
/-- What the device answers. -/
theorem reads_twoNames {mode : Nat} (h : mode = Mode.IFSOCK ∨ mode = Mode.IFREG) :
    (((treeVolume (twoNames mode)).walkTop [SLASH]).toOption.map fun top =>
        ((treeVolume (twoNames mode)).readDirInode top, top.ino)) =
      some (.ok [⟨[98], 17, .fromMode mode⟩, ⟨[97], 17, .fromMode mode⟩], 16) ∧
    ((treeVolume (twoNames mode)).walkFrom 4
      [([], [⟨[97], 17, .fromMode mode⟩, ⟨[98], 17, .fromMode mode⟩])] [16]).out = twoEntries mode ∧
    ((treeVolume (twoNames mode)).walkFrom 4
      [([], [⟨[97], 17, .fromMode mode⟩, ⟨[98], 17, .fromMode mode⟩])] [16]).ended = some (.ok ()) := by
  rcases h with rfl | rfl <;> decide +kernel

theorem walks_twoNames {mode : Nat} (h : mode = Mode.IFSOCK ∨ mode = Mode.IFREG) :
    (treeVolume (twoNames mode)).Walks [SLASH] (twoEntries mode) := by
  obtain ⟨htop, hout, hended⟩ := reads_twoNames h
  refine ⟨4, ?_⟩
  have hle : ([97] : Bytes) ≤ [98] := by decide
  rw [walkEach_of_sorted htop (List.pairwise_pair.mpr (decide_eq_true hle))]
  exact TreeWalk.ext hout hended

/-- A sink that takes every entry. -/
def openSink : Unit → Nat × Tar.Entry → Option Unit := fun _ _ => some ()

/-- A host that follows no link out, and refuses only what cannot be done. -/
def plainFs : LocalFs where
  refuses _ _ := false
  leads _ path target := if target.head? = some SLASH then none else some (addName path target)
  stays _ _ _ _ h := h

/-- Nothing made. -/
def Host.bare : Host := fun _ => none

/-- A regular file's second name is linked to its first. -/
theorem hard_links_lead_twoNames :
    (packing (treeVolume (twoNames Mode.IFREG))).LinksLead
        ((treeVolume (twoNames Mode.IFREG)).packInto openSink () (twoEntries Mode.IFREG)).done ∧
      (extracting (treeVolume (twoNames Mode.IFREG)) false []).LinksLead
        ((treeVolume (twoNames Mode.IFREG)).extract false [] plainFs Host.bare
          (twoEntries Mode.IFREG)).done := by
  have hreg : ∀ e ∈ twoEntries Mode.IFREG, e.stat.ftype = Mode.IFREG := by decide
  refine (hard_links_lead_iff (walks_twoNames (Or.inr rfl)) openSink () false [] plainFs
    Host.bare).mpr ⟨?_, ?_⟩
  · intro before e after t heq _ _ _ hsock
    have hmem : e ∈ twoEntries Mode.IFREG := heq ▸ List.mem_append_right _ List.mem_cons_self
    exact absurd ((hreg e hmem).symm.trans hsock) (by decide)
  · intro before e after t heq _ _ _ hleft
    exact hleft.1 (hreg e (heq ▸ List.mem_append_right _ List.mem_cons_self))

set_option maxRecDepth 100000 in
/-- A socket's second name becomes a link to a name that is not in the archive, and to a path that
is not on the local filesystem. -/
theorem links_lead_nowhere : ∃ v, openNorecovery (treeDevice (twoNames Mode.IFSOCK)) [] = .ok v ∧
    v.Walks [SLASH] (twoEntries Mode.IFSOCK) ∧
    ¬(packing v).LinksLead (v.packInto openSink () (twoEntries Mode.IFSOCK)).done ∧
    ¬(extracting v false []).LinksLead
      (v.extract false [] plainFs Host.bare (twoEntries Mode.IFSOCK)).done := by
  have hfacts : (treeDevice (twoNames Mode.IFSOCK)).size = 8192 ∧
      readSuper (treeDevice (twoNames Mode.IFSOCK)) = .ok treeSector ∧
      Superblock.parse treeSector = .ok treeSb ∧
      (((treeVolume (twoNames Mode.IFSOCK)).packInto openSink () (twoEntries Mode.IFSOCK)).done.map
        fun x => (x.2.header.kind == .hardLink, x.2.header.link)) = [(true, [97])] ∧
      ((treeVolume (twoNames Mode.IFSOCK)).extract false [] plainFs Host.bare
        (twoEntries Mode.IFSOCK)).done = [(17, .hardLink [97] [98])] := by
    decide +kernel
  obtain ⟨hsize, hsuper, hparse, hpack, hextract⟩ := hfacts
  have hopen : openNorecovery (treeDevice (twoNames Mode.IFSOCK)) [] =
      .ok (treeVolume (twoNames Mode.IFSOCK)) := by
    rw [openNorecovery, hsize, hsuper, except_ok_bind, hparse]
    rfl
  have hwalk := walks_twoNames (Or.inl (rfl : Mode.IFSOCK = Mode.IFSOCK))
  refine ⟨_, hopen, hwalk, fun h => ?_, fun h => ?_⟩
  · obtain ⟨x, hx, heq⟩ := List.map_eq_singleton_iff.mp hpack
    obtain ⟨hkind, hlink⟩ := Prod.mk.inj heq
    obtain ⟨y, hy, -⟩ := h [] x [] x.1 [97] hx ⟨rfl, beq_iff_eq.mp hkind, hlink⟩
    cases hy
  · obtain ⟨y, hy, -⟩ := h [] _ [] 17 [97] hextract ⟨[98], rfl⟩
    cases hy

end FioXfs.Volume
