import FioXfs.Alloc.Rebuild
set_option autoImplicit false

/-!
# What carving takes and leaves

The blocks of the new trees come off the ends of the longest free extents.  Without the loop:
the extents longest first, whole ones while enough blocks are wanted, and the end of the next.
The loop takes just those runs and leaves just those extents, and one block more to carve
changes little.
-/

namespace FioXfs.Alloc

open FioXfs.Lib

/-! ## Blocks off the ends of extents -/

/-- `a` is carved before `b`: it is longer, or as long and not before it. -/
def CarvedFirst (a b : Nat × Nat) : Prop := toLex (b.2, b.1) ≤ toLex (a.2, a.1)

instance : DecidableRel CarvedFirst := fun _ _ => inferInstanceAs (Decidable (_ ≤ _))

instance : Std.Total CarvedFirst := ⟨fun _ _ => le_total _ _⟩

instance : IsTrans (Nat × Nat) CarvedFirst := ⟨fun _ _ _ h1 h2 => le_trans h2 h1⟩

theorem CarvedFirst.antisymm {a b : Nat × Nat} (h1 : CarvedFirst a b) (h2 : CarvedFirst b a) :
    a = b := by
  have heq := toLex.injective (le_antisymm h2 h1)
  obtain ⟨h, h'⟩ := Prod.mk.inj heq
  exact Prod.ext h' h

instance : Std.Antisymm CarvedFirst := ⟨fun _ _ => CarvedFirst.antisymm⟩

/-- The extents in the order they are carved. -/
def longestFirst (es : List (Nat × Nat)) : List (Nat × Nat) := es.insertionSort CarvedFirst

/-- The runs that `n` blocks off the ends of the extents of a list are, and what is left of the
extents. -/
def offEnds : Nat → List (Nat × Nat) → List (Nat × Nat) × List (Nat × Nat)
  | 0, es => ([], es)
  | _ + 1, [] => ([], [])
  | n + 1, (s, len) :: es =>
      if n + 1 < len then ([(s + len - (n + 1), n + 1)], (s, len - (n + 1)) :: es)
      else
        let rest := offEnds (n + 1 - len) es
        ((s, len) :: rest.1, rest.2)

theorem longestFirst_congr {es es' : List (Nat × Nat)} (h : es.Perm es') :
    longestFirst es = longestFirst es' :=
  List.Perm.eq_of_pairwise' (List.pairwise_insertionSort _ _) (List.pairwise_insertionSort _ _)
    ((List.perm_insertionSort _ es).trans (h.trans (List.perm_insertionSort _ es').symm))

@[simp] theorem offEnds_zero (es : List (Nat × Nat)) : offEnds 0 es = ([], es) := by
  cases es <;> rfl

section
variable {s len n : Nat} {es : List (Nat × Nat)}

theorem offEnds_inside (hn : 0 < n) (h : n < len) :
    offEnds n ((s, len) :: es) = ([(s + len - n, n)], (s, len - n) :: es) := by
  obtain ⟨n, rfl⟩ := Nat.exists_eq_succ_of_ne_zero hn.ne'
  rw [offEnds, if_pos h]

theorem offEnds_whole (hn : 0 < n) (h : len ≤ n) : offEnds n ((s, len) :: es) =
    ((s, len) :: (offEnds (n - len) es).1, (offEnds (n - len) es).2) := by
  obtain ⟨n, rfl⟩ := Nat.exists_eq_succ_of_ne_zero hn.ne'
  rw [offEnds, if_neg (not_lt.mpr h)]

end

/-- Each extent left is one that was there, or the first part of one. -/
theorem length_offEnds_le : ∀ {es : List (Nat × Nat)} {n : Nat},
    (offEnds n es).2.length ≤ es.length := by
  intro es
  induction es with
  | nil => intro n; cases n <;> simp [offEnds]
  | cons e es ih =>
      intro n
      obtain ⟨s, len⟩ := e
      rcases Nat.eq_zero_or_pos n with rfl | hn
      · simp
      rcases Nat.lt_or_ge n len with hlt | hge
      · rw [offEnds_inside hn hlt, List.length_cons, List.length_cons]
      · rw [offEnds_whole hn hge]
        exact ih.trans (Nat.le_succ _)

/-- There is no more than a run from each extent. -/
theorem length_offEnds_runs : ∀ {es : List (Nat × Nat)} {n : Nat},
    (offEnds n es).1.length ≤ es.length := by
  intro es
  induction es with
  | nil => intro n; cases n <;> simp [offEnds]
  | cons e es ih =>
      intro n
      obtain ⟨s, len⟩ := e
      rcases Nat.eq_zero_or_pos n with rfl | hn
      · simp
      rcases Nat.lt_or_ge n len with hlt | hge
      · rw [offEnds_inside hn hlt]
        simp
      · rw [offEnds_whole hn hge]
        exact Nat.succ_le_succ ih

/-- What is left is not empty, and with what is taken as many blocks as there were. -/
theorem offEnds_left : ∀ {es : List (Nat × Nat)} {n : Nat}, (∀ e ∈ es, 0 < e.2) →
    (∀ e ∈ (offEnds n es).2, 0 < e.2) ∧ (n ≤ (es.map (·.2)).sum →
      ((offEnds n es).2.map (·.2)).sum + n = (es.map (·.2)).sum) := by
  intro es
  induction es with
  | nil =>
      intro n _
      cases n <;> simp [offEnds]
  | cons e es ih =>
      intro n hpos
      obtain ⟨s, len⟩ := e
      have hrest := fun x hx => hpos x (List.mem_cons_of_mem _ hx)
      rcases Nat.eq_zero_or_pos n with rfl | hn
      · exact ⟨by simpa using hpos, by simp⟩
      rcases Nat.lt_or_ge n len with hlt | hge
      · rw [offEnds_inside hn hlt]
        refine ⟨List.forall_mem_cons.mpr ⟨by simp only; omega, hrest⟩, fun _ => ?_⟩
        simp only [List.map_cons, List.sum_cons]
        omega
      · rw [offEnds_whole hn hge]
        obtain ⟨h1, h2⟩ := @ih (n - len) hrest
        refine ⟨h1, fun h => ?_⟩
        simp only [List.map_cons, List.sum_cons] at h ⊢
        have := h2 (by omega)
        omega

/-- One block more takes the same runs but the last, and uses up at most one extent more. -/
theorem offEnds_succ : ∀ {es : List (Nat × Nat)} {n : Nat}, (∀ e ∈ es, 0 < e.2) →
    n + 1 ≤ (es.map (·.2)).sum →
    ∃ common last more, (offEnds n es).1 = common ++ last ∧ (offEnds (n + 1) es).1 = common ++ more ∧
      last.length ≤ 1 ∧ more.length ≤ 1 ∧
      (offEnds (n + 1) es).2.length ≤ (offEnds n es).2.length ∧
      (offEnds n es).2.length ≤ (offEnds (n + 1) es).2.length + 1 := by
  intro es
  induction es with
  | nil => intro n _ h; simp at h
  | cons e es ih =>
      intro n hpos h
      obtain ⟨s, len⟩ := e
      have hlen : 0 < len := hpos _ List.mem_cons_self
      simp only [List.map_cons, List.sum_cons] at h
      -- Fewer blocks than the extent's leave one extent of it.
      have hfew : ∀ {k}, k < len → (offEnds k ((s, len) :: es)).1.length ≤ 1 ∧
          (offEnds k ((s, len) :: es)).2.length = es.length + 1 := by
        intro k hk
        rcases Nat.eq_zero_or_pos k with rfl | hpos
        · simp
        · rw [offEnds_inside hpos hk]
          simp
      rcases Nat.lt_trichotomy (n + 1) len with hlt | rfl | hgt
      · obtain ⟨h1, h2⟩ := @hfew n (by omega)
        obtain ⟨h3, h4⟩ := hfew hlt
        exact ⟨[], _, _, rfl, rfl, h1, h3, by omega, by omega⟩
      · obtain ⟨h1, h2⟩ := @hfew n (by omega)
        rw [offEnds_whole (Nat.succ_pos n) (le_refl _), Nat.sub_self, offEnds_zero]
        exact ⟨[], _, _, rfl, rfl, h1, by simp, by simp only; omega, by simp only; omega⟩
      · -- Both use the whole extent, and go on.
        obtain ⟨common, last, more, h1, h2, hless⟩ := @ih (n - len)
          (fun x hx => hpos x (List.mem_cons_of_mem _ hx)) (by omega)
        rw [show n - len + 1 = n + 1 - len by omega] at h2 hless
        rw [offEnds_whole (Nat.succ_pos n) (by omega), offEnds_whole (show 0 < n by omega) (by omega)]
        exact ⟨(s, len) :: common, last, more, by rw [h1]; rfl, by rw [h2]; rfl, hless⟩

/-! ## The loop -/

section
variable {ag : Ag} {n : Nat}

/-- Taking the end of a free extent. -/
theorem take_end {s len cut : Nat} (hf : FreeOk ag.free) (hmem : (s, len) ∈ ag.free.entries)
    (hcut : 0 < cut) (hle : cut ≤ len) : ∃ ag', take (s + len - cut) cut ag = .ok () ag' ∧
      ag'.free = (if cut < len then (ag.free.erase s).insert s (len - cut) else ag.free.erase s) := by
  have hlast : ag.free.lastUpTo (s + len - cut) = some (s, len) := by
    cases hl : ag.free.lastUpTo (s + len - cut) with
    | none => exact absurd (OrdMap.lastUpTo_eq_none hl _ hmem) (by simp only; omega)
    | some e =>
        obtain ⟨he, hes, hlast⟩ := OrdMap.lastUpTo_eq_some hl
        have hge := hlast _ hmem (by simp only; omega)
        simp only at hge
        rcases Nat.lt_or_eq_of_le hge with hlt | heq
        · have := hf.apart hmem he hlt
          simp only at this
          omega
        · rw [OrdMap.eq_of_fst_eq he hmem heq.symm]
  unfold take
  simp only [get_bind_apply, hlast]
  rw [act_throwIf_bind_of_not (by omega)]
  refine ⟨_, rfl, ?_⟩
  simp only
  rw [if_neg (show ¬s + len - cut + cut < s + len by omega), show s + len - cut - s = len - cut by omega]
  by_cases hlt : cut < len
  · rw [if_pos hlt, if_pos (by omega)]
  · rw [if_neg hlt, if_neg (by omega)]

/-- The loop carves the runs off the ends of the extents, longest first. -/
theorem carveLoop_eq : ∀ {es : List (Nat × Nat)} {fuel n : Nat} {runs : List (Nat × Nat)} {ag : Ag},
    FreeOk ag.free → ag.freeTotal = ag.free.values.sum → ag.free.entries.Perm es →
    es.Pairwise CarvedFirst → n ≤ fuel → n ≤ ag.freeTotal →
    ∃ ag', carveLoop fuel n runs ag = .ok (runs ++ (offEnds n es).1) ag' ∧
      ag'.free.entries.Perm (offEnds n es).2 := by
  intro es
  induction es with
  | nil =>
      intro fuel n runs ag _ ht hperm _ _ hn
      obtain rfl : n = 0 := by
        rw [ht, OrdMap.values, hperm.eq_nil] at hn
        simpa using hn
      refine ⟨ag, ?_, by simpa using hperm⟩
      cases fuel <;> simp [carveLoop]
  | cons e es ih =>
      intro fuel n runs ag hf ht hperm hsorted hfuel hn
      obtain ⟨s, len⟩ := e
      cases n with
      | zero =>
          refine ⟨ag, ?_, by simpa using hperm⟩
          cases fuel <;> simp [carveLoop]
      | succ n =>
          obtain ⟨fuel, rfl⟩ : ∃ f, fuel = f + 1 := ⟨fuel - 1, by omega⟩
          obtain ⟨hhead, hrest⟩ := List.pairwise_cons.mp hsorted
          have hmem : (s, len) ∈ ag.free.entries := hperm.mem_iff.mpr List.mem_cons_self
          have hlen : 0 < len := hf.pos _ hmem
          have hmax : lastMaxBy (fun e => toLex (e.2, e.1)) ag.free.entries = some (s, len) := by
            cases hm : lastMaxBy (fun e => toLex (e.2, e.1)) ag.free.entries with
            | none =>
                rw [lastMaxBy_eq_none.mp hm] at hmem
                exact absurd hmem List.not_mem_nil
            | some x =>
                congr 1
                have hx := lastMaxBy_mem hm
                rcases List.mem_cons.mp (hperm.mem_iff.mp hx) with rfl | hxe
                · rfl
                · exact CarvedFirst.antisymm (le_of_lastMaxBy hm _ hmem) (hhead x hxe)
          obtain ⟨ag1, h1, hfree⟩ := @take_end ag s len (min len (n + 1)) hf hmem (by omega) (by omega)
          have hc := carved_take hf ht (by omega) h1
          have hcount := hc.count
          have hgone : (ag.free.erase s).entries.Perm es :=
            List.Perm.cons_inv ((OrdMap.perm_erase hmem).symm.trans hperm)
          simp only [carveLoop, get_bind_apply, hmax]
          rw [bind_of_ok h1]
          by_cases hlt : n + 1 < len
          · rw [Nat.min_eq_right (by omega)] at hfree ⊢
            rw [if_pos hlt] at hfree
            rw [offEnds_inside (Nat.succ_pos n) hlt, Nat.sub_self]
            refine ⟨ag1, by cases fuel <;> rfl, ?_⟩
            rw [hfree]
            refine (OrdMap.perm_insert fun x hx => ?_).trans (hgone.cons _)
            exact (OrdMap.mem_erase.mp hx).2
          · rw [Nat.min_eq_left (by omega)] at hfree hcount ⊢
            rw [if_neg (lt_irrefl _)] at hfree
            obtain ⟨ag', h2, hleft⟩ := @ih fuel (n + 1 - len) (runs ++ [(s + len - len, len)]) ag1
              hc.freeOk hc.total (hfree ▸ hgone) hrest (by omega) (by omega)
            rw [offEnds_whole (Nat.succ_pos n) (by omega)]
            refine ⟨ag', ?_, hleft⟩
            rw [h2, Nat.add_sub_cancel, List.append_assoc, List.singleton_append]

theorem carveLoop_error : ∀ {fuel n : Nat} {runs : List (Nat × Nat)} {ag s : Ag} {e : Error},
    FreeOk ag.free → ag.freeTotal = ag.free.values.sum → n ≤ fuel →
    carveLoop fuel n runs ag = .error e s → e.isNoSpace = true ∧ ag.freeTotal < n := by
  intro fuel
  induction fuel with
  | zero =>
    intro n runs ag s e _ _ hn h
    obtain rfl : n = 0 := Nat.le_zero.mp hn
    simp [carveLoop] at h
  | succ fuel ih =>
    intro n runs ag s e hf ht hn h
    cases n with
    | zero => simp [carveLoop] at h
    | succ n =>
      simp only [carveLoop, get_bind_apply] at h
      cases hm : lastMaxBy (fun e => toLex (e.2, e.1)) ag.free.entries with
      | none =>
        simp only [hm, throw_apply, EStateM.Result.error.injEq] at h
        have hnil : ag.free.entries = [] := lastMaxBy_eq_none.mp hm
        refine ⟨h.1 ▸ rfl, ?_⟩
        rw [ht, OrdMap.values, hnil]
        simp
      | some x =>
        obtain ⟨st, len⟩ := x
        have hmem := lastMaxBy_mem hm
        have hlen := hf.pos _ hmem
        simp only [hm] at h hlen
        rcases bind_eq_error.mp h with h1 | ⟨_, ag1, h1, h2⟩
        · have hok := take_succeeds hf hmem (s := st + len - min len (n + 1))
            (n := min len (n + 1)) (by omega) (by omega) (by omega)
          rw [h1] at hok
          simp [isOk] at hok
        · have hc := carved_take hf ht (by omega) h1
          obtain ⟨he, hlt⟩ := ih hc.freeOk hc.total (by omega) h2
          have := hc.count
          exact ⟨he, by omega⟩

theorem carve_error {n : Nat} {ag s : Ag} {e : Error} (hf : FreeOk ag.free)
    (ht : ag.freeTotal = ag.free.values.sum) (h : carve n ag = .error e s) :
    e.isNoSpace = true ∧ ag.freeTotal < n := by
  rcases bind_eq_error.mp h with h | ⟨_, _, _, h⟩
  · exact carveLoop_error hf ht (le_refl n) h
  · simp at h

/-- What `carve` takes and leaves when there are blocks enough. -/
theorem carve_of_room (hf : FreeOk ag.free) (ht : ag.freeTotal = ag.free.values.sum)
    (hn : n ≤ ag.freeTotal) : ∃ runs ag', carve n ag = .ok runs ag' ∧
      runs.Perm (offEnds n (longestFirst ag.free.entries)).1 ∧
      ag'.free.entries.Perm (offEnds n (longestFirst ag.free.entries)).2 := by
  obtain ⟨ag', h1, hleft⟩ := @carveLoop_eq (longestFirst ag.free.entries) n n [] ag hf ht
    (List.perm_insertionSort _ _).symm (List.pairwise_insertionSort _ _) (le_refl n) hn
  rw [List.nil_append] at h1
  exact ⟨_, ag', bind_of_ok h1, List.perm_insertionSort _ _, hleft⟩

/-- When there are not, it finds no space. -/
theorem carve_of_short (hf : FreeOk ag.free) (ht : ag.freeTotal = ag.free.values.sum)
    (hn : ag.freeTotal < n) : ∃ e s, carve n ag = .error e s ∧ e.isNoSpace = true := by
  cases h : carve n ag with
  | ok runs ag' =>
      have := (carve_ok hf ht h).count
      omega
  | error e s => exact ⟨e, s, rfl, (carve_error hf ht h).1⟩

end

end FioXfs.Alloc
