import FioXfs.Alloc.Owners
set_option autoImplicit false

/-!
# What a refused free leaves behind

`free_extent` takes the left neighbour out before it looks to the right, and
`rmap_remove` edits the records before it has counted them.  Here is when each of them
fails, and what it has changed by then.
-/

namespace FioXfs.Alloc

open FioXfs.Lib

/-! ## Freeing a run -/

section
variable {ag t : Ag} {s n : Nat} {e : Error}

/-- The run lies in the group and no free extent meets it. -/
def CanFree (ag : Ag) (s n : Nat) : Prop :=
  0 < n ∧ s + n ≤ ag.len ∧ ∀ x ∈ ag.free.entries, x.1 + x.2 ≤ s ∨ s + n ≤ x.1

/-- A free extent ends where the run starts and another starts inside the run. -/
def TornFree (ag : Ag) (s n : Nat) : Prop :=
  0 < n ∧ s + n ≤ ag.len ∧ (∃ x ∈ ag.free.entries, x.1 + x.2 = s) ∧
    ∃ x ∈ ag.free.entries, s ≤ x.1 ∧ x.1 < s + n

instance (ag : Ag) (s n : Nat) : Decidable (TornFree ag s n) := inferInstanceAs (Decidable (_ ∧ _))

/-- The extent before the run, when it overlaps, is turned away with nothing changed. -/
theorem mergeBefore_refused (hfit : ExtentsFit ag.free) (h : mergeBefore s n ag = .error e t) :
    e.isPanic = false ∧ t = ag ∧ ∃ x ∈ ag.free.entries, x.1 < s ∧ s < x.1 + x.2 := by
  unfold mergeBefore at h
  simp only [get_bind_apply] at h
  cases hl : ag.free.lastBelow s with
  | none => simp [hl] at h
  | some x =>
      obtain ⟨hmem, hlt, -⟩ := OrdMap.lastBelow_eq_some hl
      simp only [hl] at h
      have hx := hfit x hmem
      rw [act_throwIf_bind_of_not (by omega)] at h
      rcases bind_eq_error.mp h with h | ⟨_, u, h1, h⟩
      · obtain ⟨hc, rfl, rfl⟩ := act_throwIf_eq_error.mp h
        exact ⟨rfl, rfl, x, hmem, hlt, hc⟩
      · split at h <;> simp at h

theorem mergeAfter_refused {m : Nat} (hfit : ExtentsFit ag.free) (hm : m ≤ s + n)
    (h : mergeAfter s n m ag = .error e t) :
    e.isPanic = false ∧ t = ag ∧ ∃ x ∈ ag.free.entries, s ≤ x.1 ∧ x.1 < s + n := by
  unfold mergeAfter at h
  simp only [get_bind_apply] at h
  cases hl : (ag.free.entriesFrom s).head? with
  | none => simp [hl] at h
  | some x =>
      obtain ⟨hmem, hle⟩ := OrdMap.mem_entriesFrom.mp (List.mem_of_mem_head? hl)
      simp only [hl] at h
      rcases bind_eq_error.mp h with h | ⟨_, u, h1, h⟩
      · obtain ⟨hc, rfl, rfl⟩ := act_throwIf_eq_error.mp h
        exact ⟨rfl, rfl, x, hmem, hle, hc⟩
      split at h
      · rename_i heq
        have hx := hfit x hmem
        simp only [set_bind_apply] at h
        rw [act_throwIf_bind_of_not (by omega), pure_apply] at h
        cases h
      · cases h

/-- What the step before the run leaves: all as it was, or the extent that ends at the run
gone. -/
theorem mergeBefore_done {p : Nat × Nat} (hf : FreeOk ag.free)
    (h : mergeBefore s n ag = .ok p t) :
    (t = ag ∧ ∀ x ∈ ag.free.entries, x.1 < s → x.1 + x.2 < s) ∨
      ∃ x ∈ ag.free.entries, x.1 + x.2 = s ∧ t = { ag with free := ag.free.erase x.1 } := by
  obtain ⟨k, f1, hd, -, rfl⟩ := mergeBefore_ok hf h
  rcases Nat.eq_zero_or_pos k with rfl | hk
  · have hsame : f1 = ag.free := OrdMap.ext_mem fun x => by simp [hd.mem_iff]
    subst hsame
    exact Or.inl ⟨rfl, fun x hx hlt => (hd.below x hx hlt).2 rfl⟩
  · have hgone : f1 = ag.free.erase (s - k) :=
      OrdMap.ext_mem fun x => by simp [hd.mem_iff, hk]
    have hle := hd.le
    refine Or.inr ⟨_, hd.mem hk, ?_, by rw [hgone]⟩
    simp only
    omega

/-- An extent that ends at the run keeps every extent before the run clear of it. -/
theorem FreeOk.clear_of_end (hf : FreeOk ag.free) {x y : Nat × Nat} (hx : x ∈ ag.free.entries)
    (hend : x.1 + x.2 = s) (hy : y ∈ ag.free.entries) : y.1 + y.2 ≤ s ∨ s ≤ y.1 := by
  have hxpos := hf.pos x hx
  have hypos := hf.pos y hy
  rcases Nat.lt_trichotomy x.1 y.1 with hlt | heq | hgt
  · have := hf.apart hx hy hlt
    omega
  · have := OrdMap.eq_of_fst_eq hx hy heq
    subst this
    omega
  · have := hf.apart hy hx hgt
    omega

/-- A free that fails returns an error, and has left all as it was or is torn: it stopped with the
left neighbour taken out. -/
theorem freeExtent_refused (hf : FreeOk ag.free) (hfit : ExtentsFit ag.free)
    (h : freeExtent s n ag = .error e t) :
    e.isPanic = false ∧ ¬CanFree ag s n ∧ (t = ag ∧ ¬TornFree ag s n ∨ TornFree ag s n ∧
      ∃ x ∈ ag.free.entries, x.1 + x.2 = s ∧ t = { ag with free := ag.free.erase x.1 }) := by
  unfold freeExtent at h
  simp only [get_bind_apply] at h
  rcases bind_eq_error.mp h with h | ⟨_, u, h0, h⟩
  · obtain ⟨hc, rfl, rfl⟩ := act_throwIf_eq_error.mp h
    exact ⟨rfl, fun hcan => by have := hcan.1; have := hcan.2.1; omega,
      Or.inl ⟨rfl, fun htorn => by have := htorn.1; have := htorn.2.1; omega⟩⟩
  obtain ⟨hc, rfl⟩ := act_throwIf_eq_ok.mp h0
  rcases bind_eq_error.mp h with h | ⟨p, u, h1, h⟩
  · obtain ⟨hret, rfl, x, hx, hlt, hgt⟩ := mergeBefore_refused hfit h
    refine ⟨hret, fun hcan => ?_, Or.inl ⟨rfl, ?_⟩⟩
    · have := hcan.2.2 x hx
      omega
    · rintro ⟨-, -, ⟨y, hy, hend⟩, -⟩
      have := hf.clear_of_end hy hend hx
      omega
  rcases bind_eq_error.mp h with h | ⟨m, w, h2, h⟩
  · have hleft : ExtentsFit u.free ∧ p.2 ≤ s + n := by
      obtain ⟨k, f1, hd, rfl, rfl⟩ := mergeBefore_ok hf h1
      have := hd.le
      exact ⟨fun x hx => hfit x ((hd.mem_iff x).mp hx).1, by simp only; omega⟩
    obtain ⟨hret, rfl, x, hx, hge, hlt⟩ := mergeAfter_refused hleft.1 hleft.2 h
    rcases mergeBefore_done hf h1 with ⟨rfl, hno⟩ | ⟨y, hy, hend, rfl⟩
    · refine ⟨hret, fun hcan => ?_, Or.inl ⟨rfl, ?_⟩⟩
      · have := hcan.2.2 x hx
        have := hf.pos x hx
        omega
      · rintro ⟨-, -, ⟨y, hy, hend⟩, -⟩
        have := hno y hy (by have := hf.pos y hy; omega)
        omega
    · have hx0 := (OrdMap.mem_erase.mp hx).1
      refine ⟨hret, fun hcan => ?_, Or.inr ⟨⟨by omega, by omega, ⟨y, hy, hend⟩, x, hx0, hge, hlt⟩,
        y, hy, hend, rfl⟩⟩
      have := hcan.2.2 x hx0
      have := hf.pos x hx0
      omega
  · simp only [get_bind_apply, set_apply, reduceCtorEq] at h

/-- A free succeeds exactly on a run in the group of which nothing is free. -/
theorem freeExtent_succeeds_iff (hf : FreeOk ag.free) (hfit : ExtentsFit ag.free) :
    (∃ t, freeExtent s n ag = .ok () t) ↔ CanFree ag s n := by
  constructor
  · rintro ⟨t, h⟩
    obtain ⟨hn, hlen, free', hputs, -⟩ := freeExtent_ok hf h
    refine ⟨hn, hlen, fun x hx => ?_⟩
    by_contra hmeet
    have hpos := hf.pos x hx
    -- The first block of both would be free twice over.
    have hb : 0 < freeAt ag.free (max x.1 s) := freeAt_pos_of_mem hx (by omega)
    have hw : within s n (max x.1 s) = 1 := within_eq_one.mpr (by omega)
    have := hputs.at_ (max x.1 s)
    have := hputs.freeOk.once (max x.1 s)
    omega
  · intro hcan
    cases h : freeExtent s n ag with
    | ok u t => exact ⟨t, rfl⟩
    | error e t => exact absurd hcan (freeExtent_refused hf hfit h).2.1

/-- What a failed free has changed by then: nothing, exactly when it is not torn. -/
theorem freeExtent_keeps_iff (hf : FreeOk ag.free) (hfit : ExtentsFit ag.free) :
    (∀ e t, freeExtent s n ag = .error e t → t.free = ag.free ∧ t.freeTotal = ag.freeTotal ∧
      t.rmap = ag.rmap ∧ t.dirty = ag.dirty) ↔ ¬TornFree ag s n := by
  constructor
  · intro hkeep htorn
    cases h : freeExtent s n ag with
    | ok u t =>
        obtain ⟨-, -, -, x, hx, hge, hlt⟩ := htorn
        have := ((freeExtent_succeeds_iff hf hfit).mp ⟨t, h⟩).2.2 x hx
        have := hf.pos x hx
        omega
    | error e t =>
        rcases (freeExtent_refused hf hfit h).2.2 with ⟨-, hnot⟩ | ⟨-, x, hx, -, rfl⟩
        · exact hnot htorn
        · have hfree := (hkeep e _ h).1
          rw [← hfree] at hx
          exact (OrdMap.mem_erase.mp hx).2 rfl
  · intro hnot e t h
    rcases (freeExtent_refused hf hfit h).2.2 with ⟨rfl, -⟩ | ⟨htorn, -⟩
    · exact ⟨rfl, rfl, rfl, rfl⟩
    · exact absurd htorn hnot

end

/-! ## Forgetting a mapping -/

section
variable {ag t : Ag} {start stop n owner : Nat} {e : Error} {r x : Rmap}

/-- `owner` holds `r`, and the run meets it. -/
def Meets (start stop owner : Nat) (r : Rmap) : Prop :=
  r.owner = owner ∧ start < r.stop ∧ r.start < stop

instance (start stop owner : Nat) (r : Rmap) : Decidable (Meets start stop owner r) :=
  inferInstanceAs (Decidable (_ ∧ _))

/-- The blocks the run and `r` share. -/
def common (start stop : Nat) (r : Rmap) : Nat := min r.stop stop - max r.start start

/-- The records of a run: those that start inside it, and the last that starts before. -/
def Beside (rmap : OrdSet Rmap) (start stop : Nat) (r : Rmap) : Prop :=
  r ∈ rmap.keys ∧ (start ≤ r.start ∧ r.start < stop ∨
    r.start < start ∧ ∀ x ∈ rmap.keys, x.start < start → x ≤ r)

instance (rmap : OrdSet Rmap) (start stop : Nat) (r : Rmap) :
    Decidable (Beside rmap start stop r) := inferInstanceAs (Decidable (_ ∧ _))

/-- The records of a run that `owner` holds and the run meets. -/
def heldRecords (rmap : OrdSet Rmap) (start stop owner : Nat) : List Rmap :=
  rmap.keys.filter fun r => decide (Beside rmap start stop r ∧ Meets start stop owner r)

/-- Those that `owner` holds end within 32 bits: their ends are looked at. -/
def OwnFit (rmap : OrdSet Rmap) (start stop owner : Nat) : Prop :=
  ∀ r ∈ rmap.keys, Beside rmap start stop r → r.owner = owner → r.stop < 2 ^ 32

instance (rmap : OrdSet Rmap) (start stop owner : Nat) : Decidable (OwnFit rmap start stop owner) :=
  inferInstanceAs (Decidable (∀ _ ∈ _, _))

theorem cutRmap_apart {acc : OrdSet Rmap × Nat} (h : ¬Meets start stop owner r) :
    cutRmap start stop owner acc r = acc := by
  unfold cutRmap
  rw [if_pos]
  by_contra hc
  exact h ⟨by tauto, by omega, by omega⟩

/-- A record that meets the run and is still there after a cut was there before, and is
not the one cut: the pieces kept lie clear of the run. -/
theorem mem_of_mem_cutRmap {acc : OrdSet Rmap × Nat} (hx : Meets start stop owner x)
    (hr : Meets start stop owner r) (h : x ∈ (cutRmap start stop owner acc r).1.keys) :
    x ∈ acc.1.keys ∧ x ≠ r := by
  have hleft : r.start < max r.start start →
      x ≠ ⟨r.start, owner, r.offset, max r.start start - r.start⟩ := by
    rintro hlt rfl
    have := hx.2.1
    simp only [Rmap.stop] at this
    omega
  have hright : min r.stop stop < r.stop → x ≠ ⟨min r.stop stop, owner,
      shiftOffset r (min r.stop stop - r.start), r.stop - min r.stop stop⟩ := by
    rintro hlt rfl
    have := hx.2.2
    simp only at this
    omega
  unfold cutRmap at h
  rw [if_neg fun hc => by have := hr.1; have := hr.2; omega] at h
  have hold : x ∈ (acc.1.erase r).keys := by
    dsimp only at h
    split at h
    · rename_i hlt2
      have h := (mem_keys_insert.mp h).resolve_left (hright hlt2)
      split at h
      · rename_i hlt1
        exact ((mem_keys_insert.mp h.1).resolve_left (hleft hlt1)).1
      · exact h.1
    · split at h
      · rename_i hlt1
        exact ((mem_keys_insert.mp h).resolve_left (hleft hlt1)).1
      · exact h
  exact mem_keys_erase.mp hold

/-- The records of the run that meet it and are still there after all the cuts were there
before and were not cut. -/
theorem mem_of_mem_foldl_cutRmap (hx : Meets start stop owner x) :
    ∀ {hits : List Rmap} {acc : OrdSet Rmap × Nat},
      x ∈ (hits.foldl (cutRmap start stop owner) acc).1.keys → x ∈ acc.1.keys ∧ x ∉ hits
  | [], acc, h => ⟨h, List.not_mem_nil⟩
  | r :: hits, acc, h => by
      rw [List.foldl_cons] at h
      obtain ⟨hmem, hnot⟩ := mem_of_mem_foldl_cutRmap hx h
      by_cases hr : Meets start stop owner r
      · obtain ⟨hmem, hne⟩ := mem_of_mem_cutRmap hx hr hmem
        exact ⟨hmem, by simp [hne, hnot]⟩
      · rw [cutRmap_apart hr] at hmem
        exact ⟨hmem, by simp [hnot, show x ≠ r from fun heq => hr (heq ▸ hx)]⟩

/-- The cuts change the records exactly when one of them meets the run. -/
theorem foldl_cutRmap_eq_iff {hits : List Rmap} {acc : OrdSet Rmap × Nat}
    (hsub : ∀ r ∈ hits, r ∈ acc.1.keys) :
    (hits.foldl (cutRmap start stop owner) acc).1 = acc.1 ↔
      ∀ r ∈ hits, ¬Meets start stop owner r := by
  constructor
  · intro heq r hr hmeet
    have hin : r ∈ (hits.foldl (cutRmap start stop owner) acc).1.keys := heq ▸ hsub r hr
    exact (mem_of_mem_foldl_cutRmap hmeet hin).2 hr
  · intro hno
    suffices hsame : hits.foldl (cutRmap start stop owner) acc = acc by rw [hsame]
    clear hsub
    induction hits with
    | nil => rfl
    | cons r hits ih =>
        rw [List.foldl_cons, cutRmap_apart (hno r List.mem_cons_self)]
        exact ih fun x hx => hno x (List.mem_cons_of_mem _ hx)

/-- The cuts count what the run shares with the records that meet it. -/
theorem foldl_cutRmap_count : ∀ {hits : List Rmap} {acc : OrdSet Rmap × Nat},
    (hits.foldl (cutRmap start stop owner) acc).2 = acc.2 +
      ((hits.filter fun r => decide (Meets start stop owner r)).map (common start stop)).sum
  | [], acc => by simp
  | r :: hits, acc => by
      rw [List.foldl_cons, foldl_cutRmap_count]
      by_cases hr : Meets start stop owner r
      · have hcut : (cutRmap start stop owner acc r).2 = acc.2 + common start stop r := by
          unfold cutRmap
          rw [if_neg fun hc => by have := hr.1; have := hr.2; omega]
          rfl
        rw [hcut, List.filter_cons_of_pos (by simpa using hr), List.map_cons, List.sum_cons,
          Nat.add_assoc]
      · rw [cutRmap_apart hr, List.filter_cons_of_neg (by simpa using hr)]

theorem mem_rmapHits_iff_beside {rmap : OrdSet Rmap} :
    r ∈ rmapHits rmap start stop ↔ Beside rmap start stop r := by
  have hlast : rmap.lastBelow ⟨start, 0, 0, 0⟩ = some (r, ()) ↔
      r ∈ rmap.keys ∧ r.start < start ∧ ∀ x ∈ rmap.keys, x.start < start → x ≤ r := by
    have hbelow : ∀ x : Rmap, x < ⟨start, 0, 0, 0⟩ ↔ x.start < start := fun x => by
      rw [← not_le, Rmap.probe_le, Nat.not_le]
    constructor
    · intro hl
      obtain ⟨hr, hlt, hmax⟩ := OrdMap.lastBelow_eq_some hl
      exact ⟨mem_keys.mpr hr, (hbelow r).mp hlt, fun x hx hxs =>
        hmax _ (mem_keys.mp hx) ((hbelow x).mpr hxs)⟩
    · rintro ⟨hr, hlt, hmax⟩
      cases hl : rmap.lastBelow ⟨start, 0, 0, 0⟩ with
      | none =>
          have hle := OrdMap.lastBelow_eq_none hl _ (mem_keys.mp hr)
          exact absurd ((hbelow r).mpr hlt) (not_lt.mpr hle)
      | some y =>
          obtain ⟨hy, hylt, hymax⟩ := OrdMap.lastBelow_eq_some hl
          have h1 : r ≤ y.1 := hymax _ (mem_keys.mp hr) ((hbelow r).mpr hlt)
          have h2 : y.1 ≤ r := hmax _ (mem_keys.mpr hy) ((hbelow y.1).mp hylt)
          rw [le_antisymm h1 h2]
  rw [mem_rmapHits_iff, hlast, Beside]
  tauto

/-- What the cuts of a run find: the records of it that `owner` holds. -/
theorem perm_heldRecords (rmap : OrdSet Rmap) :
    ((rmapHits rmap start stop).filter fun r => decide (Meets start stop owner r)).Perm
      (heldRecords rmap start stop owner) := by
  refine (List.perm_ext_iff_of_nodup ((nodup_rmapHits _ _ _).filter _)
    ((nodup_keys rmap).filter _)).mpr fun r => ?_
  simp only [List.mem_filter, mem_rmapHits_iff_beside, decide_eq_true_eq]
  exact ⟨fun h => ⟨h.1.1, h⟩, fun h => h.2⟩

theorem heldFit_rmapHits {rmap : OrdSet Rmap} :
    HeldFit owner (rmapHits rmap start stop) ↔ OwnFit rmap start stop owner :=
  ⟨fun h r _ hb => h r (mem_rmapHits_iff_beside.mpr hb), fun h r hr =>
    h r (mem_rmapHits_iff_beside.mp hr).1 (mem_rmapHits_iff_beside.mp hr)⟩

/-- `rmap_remove` when there is a tree and every sum fits: it succeeds exactly when the records of
the run that `owner` holds share all its blocks with it, and changes nothing exactly when there
is none. -/
theorem rmapRemove_refused {sb : Superblock} (hrm : sb.hasRmapbt = true)
    (hlt : start + n < 2 ^ 32) (hfit : OwnFit ag.rmap start (start + n) owner) :
    ((∃ t, rmapRemove sb start n owner ag = .ok () t) ↔
      ((heldRecords ag.rmap start (start + n) owner).map (common start (start + n))).sum = n) ∧
    ∀ e t, rmapRemove sb start n owner ag = .error e t →
      e.isPanic = false ∧ (t.rmap = ag.rmap ↔ heldRecords ag.rmap start (start + n) owner = []) := by
  unfold rmapRemove
  rw [if_neg (by simp [hrm]), act_throwIf_bind_of_not (by omega)]
  simp only [get_bind_apply]
  rw [bind_of_ok (cutHits_of_fit (heldFit_rmapHits.mpr hfit))]
  have hcount : ((rmapHits ag.rmap start (start + n)).foldl
      (cutRmap start (start + n) owner) (ag.rmap, 0)).2 =
      ((heldRecords ag.rmap start (start + n) owner).map (common start (start + n))).sum := by
    rw [foldl_cutRmap_count, Nat.zero_add]
    exact ((perm_heldRecords ag.rmap).map _).sum_eq
  have hsame : ((rmapHits ag.rmap start (start + n)).foldl
      (cutRmap start (start + n) owner) (ag.rmap, 0)).1 = ag.rmap ↔
      heldRecords ag.rmap start (start + n) owner = [] := by
    rw [foldl_cutRmap_eq_iff fun r hr => mem_keys.mpr (mem_rmapHits hr),
      ← List.perm_nil, ← (perm_heldRecords ag.rmap).congr_left, List.perm_nil,
      List.filter_eq_nil_iff]
    simp
  rw [← hcount]
  constructor
  · constructor
    · rintro ⟨t, h⟩
      exact not_not.mp (act_throwIf_bind_eq_ok.mp h).1
    · intro heq
      exact ⟨_, act_throwIf_bind_eq_ok.mpr ⟨not_not.mpr heq, rfl⟩⟩
  · intro e t h
    rcases bind_eq_error.mp h with h | ⟨_, u, -, h⟩
    · obtain ⟨-, rfl, rfl⟩ := act_throwIf_eq_error.mp h
      exact ⟨rfl, hsame⟩
    · simp only [modify_apply, reduceCtorEq] at h

/-- Where a sum does not fit, the program stops. -/
theorem rmapRemove_stops {sb : Superblock} (hrm : sb.hasRmapbt = true)
    (hnot : ¬(start + n < 2 ^ 32 ∧ OwnFit ag.rmap start (start + n) owner)) :
    ∃ e rmap', rmapRemove sb start n owner ag = .error e { ag with rmap := rmap' } ∧
      e.isPanic = true := by
  unfold rmapRemove
  rw [if_neg (by simp [hrm])]
  by_cases hlt : start + n < 2 ^ 32
  · obtain ⟨rmap', hcut⟩ := @cutHits_of_not_fit start (start + n) owner
      (rmapHits ag.rmap start (start + n)) 0 ag fun h => hnot ⟨hlt, heldFit_rmapHits.mp h⟩
    rw [act_throwIf_bind_of_not (by omega)]
    simp only [get_bind_apply]
    exact ⟨_, rmap', bind_of_error hcut, rfl⟩
  · exact ⟨_, ag.rmap, act_throwIf_bind_of (Nat.not_lt.mp hlt), rfl⟩

theorem rmapRemove_of_no_tree {sb : Superblock} (hrm : sb.hasRmapbt = false) :
    rmapRemove sb start n owner ag = .ok () ag := by
  simp [rmapRemove, hrm]

/-- A refused removal touches the mappings only. -/
theorem rmapRemove_error_same {sb : Superblock} (h : rmapRemove sb start n owner ag = .error e t) :
    t = { ag with rmap := t.rmap } := by
  have hrm : sb.hasRmapbt = true := by
    by_contra hno
    rw [rmapRemove_of_no_tree (Bool.eq_false_iff.mpr hno)] at h
    cases h
  by_cases hfit : start + n < 2 ^ 32 ∧ OwnFit ag.rmap start (start + n) owner
  · unfold rmapRemove at h
    rw [if_neg (by simp [hrm]), act_throwIf_bind_of_not (by omega)] at h
    simp only [get_bind_apply] at h
    rw [bind_of_ok (cutHits_of_fit (heldFit_rmapHits.mpr hfit.2))] at h
    rcases bind_eq_error.mp h with h | ⟨_, _, _, h⟩
    · obtain ⟨-, -, rfl⟩ := act_throwIf_eq_error.mp h
      rfl
    · simp only [modify_apply, reduceCtorEq] at h
  · obtain ⟨_, rmap', hrun, -⟩ := rmapRemove_stops hrm hfit
    rw [hrun] at h
    cases h
    rfl

theorem rmapRemove_succeeds_iff {sb : Superblock} (hlt : start + n < 2 ^ 32) :
    (∃ t, rmapRemove sb start n owner ag = .ok () t) ↔ (sb.hasRmapbt = true →
      OwnFit ag.rmap start (start + n) owner ∧
      ((heldRecords ag.rmap start (start + n) owner).map (common start (start + n))).sum = n) := by
  cases hrm : sb.hasRmapbt with
  | false => simp [rmapRemove_of_no_tree hrm]
  | true =>
      by_cases hfit : OwnFit ag.rmap start (start + n) owner
      · simp [(rmapRemove_refused hrm hlt hfit).1, hfit]
      · obtain ⟨e, rmap', hrun, -⟩ := @rmapRemove_stops ag start n owner sb hrm fun h => hfit h.2
        simp [hrun, hfit]

/-- What a removal that returns an error has changed by then: nothing, exactly when `owner` has
none of the records of the run that meet it, or enough of them for the removal not to fail. -/
theorem rmapRemove_keeps_iff {sb : Superblock} :
    (∀ e t, rmapRemove sb start n owner ag = .error e t → e.isPanic = false → t.rmap = ag.rmap) ↔
      (sb.hasRmapbt = true → start + n < 2 ^ 32 → OwnFit ag.rmap start (start + n) owner →
        heldRecords ag.rmap start (start + n) owner = [] ∨
        ((heldRecords ag.rmap start (start + n) owner).map
          (common start (start + n))).sum = n) := by
  constructor
  · intro hkeep hrm hlt hfit
    by_cases hsum : ((heldRecords ag.rmap start (start + n) owner).map
        (common start (start + n))).sum = n
    · exact Or.inr hsum
    · refine Or.inl ?_
      obtain ⟨hok, herr⟩ := @rmapRemove_refused ag start n owner sb hrm hlt hfit
      cases h : rmapRemove sb start n owner ag with
      | ok u t => exact absurd (hok.mp ⟨t, h⟩) hsum
      | error e t => exact (herr e t h).2.mp (hkeep e t h (herr e t h).1)
  · intro hcond e t h hreturned
    cases hrm : sb.hasRmapbt with
    | false => simp [rmapRemove_of_no_tree hrm] at h
    | true =>
        by_cases hfits : start + n < 2 ^ 32 ∧ OwnFit ag.rmap start (start + n) owner
        · obtain ⟨hok, herr⟩ := @rmapRemove_refused ag start n owner sb hrm hfits.1 hfits.2
          rcases hcond hrm hfits.1 hfits.2 with hnil | hsum
          · exact (herr e t h).2.mpr hnil
          · obtain ⟨t', ht'⟩ := hok.mpr hsum
            simp [ht'] at h
        · obtain ⟨e', rmap', hrun, hpanic⟩ := @rmapRemove_stops ag start n owner sb hrm hfits
          rw [hrun] at h
          cases h
          rw [hreturned] at hpanic
          cases hpanic

end

end FioXfs.Alloc
