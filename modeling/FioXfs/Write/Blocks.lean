import FioXfs.Alloc.Rebuilt
import FioXfs.Write.Groups
import Mathlib.Data.List.Rotate
set_option autoImplicit false

/-!
# Blocks from any group

`alloc_blocks` goes round the AGs from the preferred one and takes what each can spare.
Followed here: which AGs it goes to, that an AG with blocks to spare always has a run to
give, what each AG has left, and that the undo path puts every run back.
-/

namespace FioXfs

open FioXfs.Lib FioXfs.Alloc

/-! ## The order of the groups -/

namespace Volume

section
variable {sb : Superblock} {first : Nat}

theorem mapM_ok_or {α β : Type} {c : α → Prop} [DecidablePred c] {e : Error} {f : α → β} : ∀ {as : List α},
    (as.mapM fun a => do
      failIf (c a) e
      return f a : Result (List β)) = if ∃ a ∈ as, c a then .error e else .ok (as.map f) := by
  intro as
  induction as with
  | nil => simp [pure, Except.pure]
  | cons a as ih =>
      rw [List.mapM_cons, ih]
      by_cases ha : c a
      · rw [if_pos (show ∃ x ∈ a :: as, c x from ⟨a, List.mem_cons_self, ha⟩)]
        simp only [failIf, throwIf, if_pos ha]
        rfl
      · have hiff : (∃ x ∈ a :: as, c x) ↔ ∃ x ∈ as, c x := by simp [ha]
        simp only [hiff]
        by_cases has : ∃ x ∈ as, c x
        · rw [if_pos has, if_pos has]
          simp only [failIf, throwIf, if_neg ha]
          rfl
        · rw [if_neg has, if_neg has]
          simp only [failIf, throwIf, if_neg ha]
          rfl

/-- The cyclic order is a rotation of the AGs, unless the sum overflows. -/
theorem agOrder_eq (hn : 0 < sb.agCount) : agOrder sb first =
    if 2 ^ 32 < first % sb.agCount + sb.agCount then .error (.panic "attempt to add with overflow")
    else .ok ((List.range sb.agCount).rotate (first % sb.agCount)) := by
  unfold agOrder
  rw [mapM_ok_or]
  have hiff : (∃ i ∈ List.range sb.agCount, 2 ^ 32 ≤ first % sb.agCount + i) ↔
      2 ^ 32 < first % sb.agCount + sb.agCount := by
    constructor
    · rintro ⟨i, hi, h⟩
      have := List.mem_range.mp hi
      omega
    · exact fun h => ⟨sb.agCount - 1, List.mem_range.mpr (by omega), by omega⟩
  simp only [hiff]
  congr 2
  refine List.ext_getElem (by simp) fun i h1 h2 => ?_
  rw [List.getElem_rotate]
  simp [Nat.add_comm]

end

/-! ## Runs of one group -/

section
variable {v : Volume} {ag ag' : Ag} {agno near : Nat}

theorem carved_of_allocated {s n : Nat} (h : SpaceOk ag) (ha : Allocated ag ag' s n) :
    Carved ag ag' [(s, n)] n := by
  obtain ⟨free', htk, rfl⟩ := ha.takes
  have hsum := htk.sum
  have htotal := h.total
  exact
    { freeOk := htk.freeOk h.freeOk
      total := by simp only; omega
      at_ := fun b => by simp only [withinRuns_cons, withinRuns_nil]; exact htk.at_ b
      count := by simp only; omega
      pos := by simpa using ha.pos
      length := by simp
      separate := htk.separate
      same := rfl
      rmap := rfl }

theorem carved_space {rs : List (Nat × Nat)} {n : Nat} (h : SpaceOk ag) (hc : Carved ag ag' rs n) :
    SpaceOk ag' := by
  refine ⟨hc.freeOk, hc.total, fun b hb => ?_⟩
  have hlen : ag'.len = ag.len := by rw [hc.same]
  have hat := hc.at_ b
  rw [hlen]
  exact h.inside b (by omega)

/-- The runs taken lie in the group. -/
theorem carved_inside {rs : List (Nat × Nat)} {n : Nat} (h : SpaceOk ag) (hc : Carved ag ag' rs n) :
    ∀ r ∈ rs, r.1 + r.2 ≤ ag.len := by
  intro r hr
  have hpos := hc.pos r hr
  have hlast : 0 < withinRuns rs (r.1 + r.2 - 1) := by
    refine lt_of_lt_of_le ?_ (List.single_le_sum (fun _ _ => Nat.zero_le _) _
      (List.mem_map_of_mem hr))
    exact within_pos.mpr (by omega)
  have := h.inside (r.1 + r.2 - 1) (by have := hc.at_ (r.1 + r.2 - 1); omega)
  omega

/-- A run of AG `k`, by filesystem block. -/
def asFsb (sb : Superblock) (k : Nat) (r : Nat × Nat) : Nat × Nat := (sb.agbToFsb k r.1, r.2)

/-- An AG gives what is asked for as far as it can spare it. -/
theorem allocFrom_spec : ∀ {fuel left : Nat} {v : Volume} {ag : Ag}, left ≤ fuel →
    v.ag? agno = some ag → SpaceOk ag →
    ∃ rs ag' v', allocFrom agno near fuel left v =
        .ok (rs.map (asFsb v.sb agno), left - min left ag.spare) v' ∧ Became v v' agno ag' ∧
      Carved ag ag' rs (min left ag.spare) ∧ ∀ r ∈ rs, r.2 ≤ MAX_EXTENT := by
  intro fuel
  induction fuel with
  | zero =>
      intro left v ag hfuel hag hs
      obtain rfl : left = 0 := by omega
      exact ⟨[], ag, v, by simp [allocFrom], ⟨rfl, rfl, hag, fun _ _ => rfl⟩,
        by rw [Nat.zero_min]; exact .nil hs.freeOk hs.total, by simp⟩
  | succ fuel ih =>
      intro left v ag hfuel hag hs
      cases left with
      | zero =>
          exact ⟨[], ag, v, by simp [allocFrom], ⟨rfl, rfl, hag, fun _ _ => rfl⟩,
            by rw [Nat.zero_min]; exact .nil hs.freeOk hs.total, by simp⟩
      | succ left =>
          unfold allocFrom
          rcases Nat.eq_zero_or_pos ag.spare with hnone | hspare
          · rw [bind_of_ok ((onAg_eq_ok hag).mpr ⟨ag, alloc_of_no_spare hnone, rfl⟩), hnone]
            exact ⟨[], ag, _, by simp, became_put hag,
              by rw [Nat.min_zero]; exact .nil hs.freeOk hs.total, by simp⟩
          · obtain ⟨s, l, ag1, halloc⟩ := @alloc_of_spare ag (min (left + 1) MAX_EXTENT) near
              hs.freeOk hs.total hspare (by unfold MAX_EXTENT; omega)
            obtain ⟨ha, hle⟩ := alloc_ok hs.freeOk halloc
            have hc1 := carved_of_allocated hs ha
            have hb1 := @became_put _ _ ag1 _ hag
            have hpos := ha.pos
            have hle' := ha.le_spare
            have hspare1 : ag1.spare = ag.spare - l := by
              have hres : ag1.reserve = ag.reserve := by rw [hc1.same]
              have hcount := hc1.count
              unfold Ag.spare at hle' ⊢
              omega
            obtain ⟨rs, ag2, v2, h2, hb2, hc2, hmax⟩ :=
              @ih (left + 1 - l) (v.putAg agno ag1) ag1 (by omega) hb1.ag (carved_space hs hc1)
            rw [bind_of_ok ((onAg_eq_ok hag).mpr ⟨ag1, halloc, rfl⟩)]
            simp only [get_bind_apply]
            rw [bind_of_ok h2]
            refine ⟨(s, l) :: rs, ag2, v2, ?_, hb1.trans hb2, ?_, ?_⟩
            · simp only [pure_apply, List.map_cons, putAg_sb, EStateM.Result.ok.injEq, Prod.mk.injEq,
                and_true]
              exact ⟨rfl, by omega⟩
            · have := hc1.trans hc2
              rwa [show l + min (left + 1 - l) ag1.spare = min (left + 1) ag.spare by omega] at this
            · intro r hr
              rcases List.mem_cons.mp hr with rfl | hr
              · simp only
                omega
              · exact hmax r hr

end

/-! ## Runs of all groups -/

/-- What taking runs of `n` blocks in all has made of the groups. -/
structure Took (sb : Superblock) (ags ags' : Nat → Ag) (runs : List (Nat × Nat)) (n : Nat) :
    Prop where
  length : (runs.map (·.2)).sum = n
  placed : ∀ r ∈ runs, ∃ k < sb.agCount, ∃ s, r.1 = sb.agbToFsb k s ∧ 1 ≤ r.2 ∧
    r.2 ≤ MAX_EXTENT ∧ s + r.2 ≤ (ags k).len
  /-- The runs' blocks were free, each is in one run, and no other was taken. -/
  at_ : ∀ k < sb.agCount, ∀ b < 2 ^ sb.agblkLog,
    freeAt (ags' k).free b + withinRuns runs (sb.agbToFsb k b) = freeAt (ags k).free b
  kept : ∀ k < sb.agCount, min (ags k).reserve (ags k).freeTotal ≤ (ags' k).freeTotal
  separate : ∀ k, Separate (ags k).free → Separate (ags' k).free
  same : ∀ k, SameButSpace (ags k) (ags' k) ∧ (ags' k).rmap = (ags k).rmap
  ok : ∀ k < sb.agCount, GroupOk sb k (ags' k)

section
variable {sb : Superblock} {ags ags' : Nat → Ag} {k : Nat}

theorem groupOk_len (hs : sb.Sound) {ag : Ag} (h : GroupOk sb k ag) : ag.len ≤ 2 ^ sb.agblkLog :=
  (Superblock.agLen_le h.agLen).1.trans hs.agBlocks_le

theorem took_nil (hok : ∀ k < sb.agCount, GroupOk sb k (ags k)) : Took sb ags ags [] 0 where
  length := rfl
  placed := by simp
  at_ := by simp
  kept _ _ := Nat.min_le_right _ _
  separate _ h := h
  same _ := ⟨.refl _, rfl⟩
  ok := hok

/-- A block is in a run of its own AG or in none. -/
theorem within_fsb (hs : sb.Sound) (hcount : sb.agCount < 2 ^ 32) {j b s n : Nat}
    (hk : k < sb.agCount) (hj : j < sb.agCount) (hb : b < 2 ^ sb.agblkLog)
    (hle : s + n ≤ 2 ^ sb.agblkLog) (hn : 0 < n) :
    within (sb.agbToFsb k s) n (sb.agbToFsb j b) = if j = k then within s n b else 0 := by
  rw [hs.agbToFsb_eq (by omega) (by omega), hs.agbToFsb_eq (by omega) hb]
  by_cases hjk : j = k
  · rw [if_pos hjk, hjk]
    unfold within
    split_ifs <;> omega
  · rw [if_neg hjk, within_eq_zero]
    rintro ⟨h1, h2⟩
    rcases Nat.lt_or_gt_of_ne hjk with hlt | hlt
    · have := Nat.mul_le_mul_right (2 ^ sb.agblkLog) (show j + 1 ≤ k from hlt)
      rw [Nat.add_mul] at this
      omega
    · have := Nat.mul_le_mul_right (2 ^ sb.agblkLog) (show k + 1 ≤ j from hlt)
      rw [Nat.add_mul] at this
      omega

theorem withinRuns_asFsb (hs : sb.Sound) (hcount : sb.agCount < 2 ^ 32) {j b : Nat}
    (hk : k < sb.agCount) (hj : j < sb.agCount) (hb : b < 2 ^ sb.agblkLog) :
    ∀ {rs : List (Nat × Nat)}, (∀ r ∈ rs, r.1 + r.2 ≤ 2 ^ sb.agblkLog ∧ 0 < r.2) →
      withinRuns (rs.map (asFsb sb k)) (sb.agbToFsb j b) = if j = k then withinRuns rs b else 0 := by
  intro rs
  induction rs with
  | nil => simp
  | cons r rs ih =>
      intro hrs
      obtain ⟨hle, hpos⟩ := hrs r List.mem_cons_self
      rw [List.map_cons, withinRuns_cons, withinRuns_cons,
        ih fun r hr => hrs r (List.mem_cons_of_mem _ hr)]
      change within (sb.agbToFsb k r.1) r.2 (sb.agbToFsb j b) + _ = _
      rw [within_fsb hs hcount hk hj hb hle hpos]
      split <;> omega

/-- Runs of one AG are runs of all. -/
theorem took_of_carved (hs : sb.Sound) (hcount : sb.agCount < 2 ^ 32)
    (hok : ∀ k < sb.agCount, GroupOk sb k (ags k)) (hk : k < sb.agCount) {ag' : Ag}
    {rs : List (Nat × Nat)} {n : Nat} (hc : Carved (ags k) ag' rs n) (hn : n ≤ (ags k).spare)
    (hmax : ∀ r ∈ rs, r.2 ≤ MAX_EXTENT) :
    Took sb ags (Function.update ags k ag') (rs.map (asFsb sb k)) n := by
  have hspace := (hok k hk).space
  have hin := carved_inside hspace hc
  have hlen := groupOk_len hs (hok k hk)
  refine ⟨?_, ?_, fun j hj b hb => ?_, fun j hj => ?_, fun j hsep => ?_, fun j => ?_, fun j hj => ?_⟩
  · rw [List.map_map]
    exact hc.length
  · intro r hr
    obtain ⟨x, hx, rfl⟩ := List.mem_map.mp hr
    exact ⟨k, hk, x.1, rfl, hc.pos x hx, hmax x hx, hin x hx⟩
  · rw [withinRuns_asFsb hs hcount hk hj hb fun r hr => ⟨(hin r hr).trans hlen, hc.pos r hr⟩]
    by_cases hjk : j = k
    · rw [hjk, Function.update_self, if_pos rfl]
      exact hc.at_ b
    · rw [Function.update_of_ne hjk, if_neg hjk]
      omega
  · by_cases hjk : j = k
    · rw [hjk, Function.update_self]
      have := hc.count
      unfold Ag.spare at hn
      omega
    · rw [Function.update_of_ne hjk]
      exact Nat.min_le_right _ _
  · by_cases hjk : j = k
    · rw [hjk, Function.update_self]
      exact hc.separate (hjk ▸ hsep)
    · rw [Function.update_of_ne hjk]
      exact hsep
  · by_cases hjk : j = k
    · rw [hjk, Function.update_self]
      exact ⟨hc.same, hc.rmap⟩
    · rw [Function.update_of_ne hjk]
      exact ⟨.refl _, rfl⟩
  · by_cases hjk : j = k
    · rw [hjk, Function.update_self]
      have hl : ag'.len = (ags k).len := by rw [hc.same]
      exact ⟨carved_space hspace hc, by rw [hl]; exact (hok k hk).agLen⟩
    · rw [Function.update_of_ne hjk]
      exact hok j hj

theorem Took.trans {ags'' : Nat → Ag} {runs runs' : List (Nat × Nat)} {n n' : Nat}
    (h : Took sb ags ags' runs n) (h' : Took sb ags' ags'' runs' n') :
    Took sb ags ags'' (runs ++ runs') (n + n') where
  length := by rw [List.map_append, List.sum_append, h.length, h'.length]
  placed r hr := by
    rcases List.mem_append.mp hr with hr | hr
    · exact h.placed r hr
    · obtain ⟨k, hk, s, h1, h2, h3, h4⟩ := h'.placed r hr
      have hlen : (ags' k).len = (ags k).len := by rw [(h.same k).1]
      exact ⟨k, hk, s, h1, h2, h3, hlen ▸ h4⟩
  at_ k hk b hb := by
    have h1 := h.at_ k hk b hb
    have h2 := h'.at_ k hk b hb
    rw [withinRuns_append]
    omega
  kept k hk := by
    have h1 := h.kept k hk
    have h2 := h'.kept k hk
    have hres : (ags' k).reserve = (ags k).reserve := by rw [(h.same k).1]
    omega
  separate k hsep := h'.separate k (h.separate k hsep)
  same k := ⟨(h.same k).1.trans (h'.same k).1, (h'.same k).2.trans (h.same k).2⟩
  ok := h'.ok

end

section
variable {v v' : Volume} {ags : Nat → Ag} {pref near : Nat}

/-- What is in memory is what the volume has. -/
theorem HasGroups.ag?_eq (h : v.HasGroups ags) {k : Nat} (hk : k < v.sb.agCount)
    (hmem : (v.ag? k).isSome) : v.ag? k = some (ags k) := by
  rcases h.holds k hk with h1 | ⟨h1, -⟩
  · exact h1
  · rw [h1] at hmem
    cases hmem

theorem Became.isSome {k j : Nat} {ag : Ag} (h : Became v v' k ag) (hj : (v.ag? j).isSome) :
    (v'.ag? j).isSome := by
  by_cases hjk : j = k
  · rw [hjk, h.ag]
    rfl
  · rw [h.other j hjk]
    exact hj

/-- Going round the AGs takes what is asked for as far as they can spare it. -/
theorem allocAcross_spec (hs : v.sb.Sound) (hcount : v.sb.agCount < 2 ^ 32) :
    ∀ {agnos : List Nat} {left : Nat} {v' : Volume} {ags : Nat → Ag}, v'.sb = v.sb →
      v'.HasGroups ags → (∀ k < v.sb.agCount, GroupOk v.sb k (ags k)) → agnos.Nodup →
      (∀ k ∈ agnos, k < v.sb.agCount) →
      ∃ runs ags' v'', allocAcross pref near agnos left v' = .ok
          (runs, left - min left (agnos.map fun k => (ags k).spare).sum) v'' ∧ v''.sb = v.sb ∧
        v''.dev = v'.dev ∧ v''.HasGroups ags' ∧
        Took v.sb ags ags' runs (min left (agnos.map fun k => (ags k).spare).sum) ∧
        (∀ r ∈ runs, (v''.ag? (v.sb.fsbToAgb r.1).1).isSome) ∧
        ∀ k, (v'.ag? k).isSome → (v''.ag? k).isSome := by
  intro agnos
  induction agnos with
  | nil =>
      intro left v' ags hsb h hok _ _
      exact ⟨[], ags, v', by simp [allocAcross], hsb, rfl, h, by simpa using took_nil hok, by simp,
        fun _ h => h⟩
  | cons k agnos ih =>
      intro left v' ags hsb h hok hnodup hlt
      have hk := hlt k List.mem_cons_self
      obtain ⟨hnot, hnodup⟩ := List.nodup_cons.mp hnodup
      unfold allocAcross
      rcases Nat.eq_zero_or_pos left with rfl | hleft
      · exact ⟨[], ags, v', by simp, hsb, rfl, h, by simpa using took_nil hok, by simp, fun _ h => h⟩
      obtain ⟨v1, h1, hb1⟩ := h.loaded (hsb ▸ hk)
      obtain ⟨rs, ag', v2, h2, hb2, hc2, hmax⟩ :=
        @allocFrom_spec k (if k = pref then near else 0) left left v1 (ags k) (le_refl _) hb1.ag
          (hok k hk).space
      have hb := hb1.trans hb2
      have htook := took_of_carved hs hcount hok hk hc2 (Nat.min_le_right _ _) hmax
      obtain ⟨more, ags', v3, h3, hsb3, hdev3, hh3, htook3, hmem3, hkeep3⟩ :=
        @ih (left - min left (ags k).spare) v2 _ (hb.sb.trans hsb) (h.became hb) htook.ok hnodup
          fun j hj => hlt j (List.mem_cons_of_mem _ hj)
      have hsame : (agnos.map fun j => (Function.update ags k ag' j).spare) =
          agnos.map fun j => (ags j).spare := by
        refine List.map_congr_left fun j hj => ?_
        rw [Function.update_of_ne (fun h : j = k => hnot (h ▸ hj))]
      rw [hsame] at h3 htook3
      rw [if_neg (by omega), bind_of_ok h1, bind_of_ok h2]
      simp only
      rw [bind_of_ok h3, hb1.sb, hsb]
      simp only [List.map_cons, List.sum_cons, pure_apply]
      refine ⟨rs.map (asFsb v.sb k) ++ more, ags', v3, ?_, hsb3, hdev3.trans hb.dev, hh3, ?_, ?_, ?_⟩
      · congr 2
        omega
      · have := htook.trans htook3
        rwa [show min left (ags k).spare + min (left - min left (ags k).spare)
            (agnos.map fun j => (ags j).spare).sum =
            min left ((ags k).spare + (agnos.map fun j => (ags j).spare).sum) by omega] at this
      · intro r hr
        rcases List.mem_append.mp hr with hr | hr
        · obtain ⟨x, hx, rfl⟩ := List.mem_map.mp hr
          have hpos := hc2.pos x hx
          have hin := carved_inside (hok k hk).space hc2 x hx
          have hlen := groupOk_len hs (hok k hk)
          change (v3.ag? (v.sb.fsbToAgb (v.sb.agbToFsb k x.1)).1).isSome
          rw [hs.fsbToAgb_agbToFsb (by omega) (by omega)]
          exact hkeep3 k (by rw [hb2.ag]; rfl)
        · exact hmem3 r hr
      · exact fun j hj => hkeep3 j (hb.isSome hj)

/-- What putting runs back has made of the groups. -/
structure PutBack (sb : Superblock) (ags ags' : Nat → Ag) (runs : List (Nat × Nat)) : Prop where
  at_ : ∀ k < sb.agCount, ∀ b < 2 ^ sb.agblkLog,
    freeAt (ags' k).free b = freeAt (ags k).free b + withinRuns runs (sb.agbToFsb k b)
  separate : ∀ k, Separate (ags k).free → Separate (ags' k).free
  same : ∀ k, SameButSpace (ags k) (ags' k) ∧ (ags' k).rmap = (ags k).rmap
  ok : ∀ k < sb.agCount, GroupOk sb k (ags' k)

/-- Runs apart from each other, none of whose blocks is free, can be put back. -/
theorem undoAlloc_spec (hs : v.sb.Sound) (hcount : v.sb.agCount < 2 ^ 32) :
    ∀ {runs : List (Nat × Nat)} {v' : Volume} {ags : Nat → Ag}, v'.sb = v.sb → v'.HasGroups ags →
      (∀ k < v.sb.agCount, GroupOk v.sb k (ags k)) →
      (∀ r ∈ runs, ∃ k < v.sb.agCount, ∃ s, r.1 = v.sb.agbToFsb k s ∧ 1 ≤ r.2 ∧
        s + r.2 ≤ (ags k).len) →
      (∀ r ∈ runs, (v'.ag? (v.sb.fsbToAgb r.1).1).isSome) →
      (∀ k < v.sb.agCount, ∀ b < 2 ^ v.sb.agblkLog,
        freeAt (ags k).free b + withinRuns runs (v.sb.agbToFsb k b) ≤ 1) →
      ∃ ags' v'', undoAlloc runs v' = .ok () v'' ∧ v''.sb = v.sb ∧ v''.dev = v'.dev ∧
        v''.HasGroups ags' ∧ PutBack v.sb ags ags' runs := by
  intro runs
  induction runs with
  | nil =>
      intro v' ags hsb h hok _ _ _
      exact ⟨ags, v', rfl, hsb, rfl, h, by simp, fun _ h => h, fun _ => ⟨.refl _, rfl⟩, hok⟩
  | cons r runs ih =>
      intro v' ags hsb h hok hplaced hmem honce
      obtain ⟨fsb, l⟩ := r
      obtain ⟨k, hk, s, hfsb, hl, hle⟩ := hplaced _ List.mem_cons_self
      simp only at hfsb hl hle
      have hlen := groupOk_len hs (hok k hk)
      have hat : v.sb.fsbToAgb fsb = (k, s) := by
        rw [hfsb, hs.fsbToAgb_agbToFsb (by omega) (by omega)]
      have hag : v'.ag? k = some (ags k) := by
        refine h.ag?_eq (hsb ▸ hk) ?_
        have := hmem _ List.mem_cons_self
        rwa [hat] at this
      have hspace := (hok k hk).space
      have hwithin : ∀ j < v.sb.agCount, ∀ b < 2 ^ v.sb.agblkLog,
          within fsb l (v.sb.agbToFsb j b) = if j = k then within s l b else 0 := by
        intro j hj b hb
        rw [hfsb]
        exact within_fsb hs hcount hk hj hb (by omega) hl
      -- No block of the run is free.
      have hnone : ∀ b, s ≤ b → b < s + l → freeAt (ags k).free b = 0 := by
        intro b h1 h2
        have hone := honce k hk b (by omega)
        rw [withinRuns_cons, hwithin k hk b (by omega), if_pos rfl, within_eq_one.mpr ⟨h1, h2⟩] at hone
        omega
      have hcan : CanFree (ags k) s l := by
        refine ⟨hl, hle, fun x hx => ?_⟩
        by_contra hmeet
        have hpos := hspace.freeOk.pos x hx
        have := freeAt_pos_of_mem hx (b := max s x.1) ⟨by omega, by omega⟩
        have := hnone (max s x.1) (by omega) (by omega)
        omega
      have hshort := (Superblock.agLen_le (hok k hk).agLen).1.trans hs.agBlocks_lt
      obtain ⟨ag', hfree⟩ :=
        (freeExtent_succeeds_iff hspace.freeOk (hspace.extentsFit (by omega))).mpr hcan
      have hspace' := hspace.freed hfree
      obtain ⟨-, -, free', hputs, rfl⟩ := freeExtent_ok hspace.freeOk hfree
      generalize hag' : ({ ags k with
        free := free', freeTotal := (ags k).freeTotal + l, dirty := true } : Ag) = ag' at hfree hspace'
      have hfields : ag'.free = free' ∧ ag'.len = (ags k).len ∧ SameButSpace (ags k) ag' ∧
          ag'.rmap = (ags k).rmap := by
        rw [← hag']
        exact ⟨rfl, rfl, rfl, rfl⟩
      have hb : Became v' (v'.putAg k ag') k ag' := became_put hag
      have hat' : ∀ j < v.sb.agCount, ∀ b < 2 ^ v.sb.agblkLog,
          freeAt (Function.update ags k ag' j).free b =
            freeAt (ags j).free b + within fsb l (v.sb.agbToFsb j b) := by
        intro j hj b hb
        rw [hwithin j hj b hb]
        by_cases hjk : j = k
        · rw [hjk, Function.update_self, if_pos rfl, hfields.1, hputs.at_]
        · rw [Function.update_of_ne hjk, if_neg hjk, Nat.add_zero]
      have hok' : ∀ j < v.sb.agCount, GroupOk v.sb j (Function.update ags k ag' j) := by
        intro j hj
        by_cases hjk : j = k
        · rw [hjk, Function.update_self]
          exact ⟨hspace', by rw [hfields.2.1]; exact (hok k hk).agLen⟩
        · rw [Function.update_of_ne hjk]
          exact hok j hj
      have hlens : ∀ j, (Function.update ags k ag' j).len = (ags j).len := by
        intro j
        by_cases hjk : j = k
        · rw [hjk, Function.update_self, hfields.2.1]
        · rw [Function.update_of_ne hjk]
      obtain ⟨ags', v'', hrun, hsb'', hdev'', hh'', hput⟩ := @ih (v'.putAg k ag') _ hsb (h.became hb)
        hok' (fun r hr => by
          obtain ⟨j, hj, t, h1, h2, h3⟩ := hplaced r (List.mem_cons_of_mem _ hr)
          exact ⟨j, hj, t, h1, h2, by rw [hlens]; exact h3⟩)
        (fun r hr => hb.isSome (hmem r (List.mem_cons_of_mem _ hr)))
        (fun j hj b hb' => by
          have := honce j hj b hb'
          rw [withinRuns_cons] at this
          simp only at this
          rw [hat' j hj b hb']
          omega)
      refine ⟨ags', v'', ?_, hsb'', hdev'', hh'', ?_⟩
      · unfold undoAlloc
        simp only [get_bind_apply, hsb, hat]
        rw [bind_of_ok ((onAg_eq_ok hag).mpr ⟨ag', hfree, rfl⟩)]
        exact hrun
      · refine ⟨fun j hj b hb' => ?_, fun j hsep => hput.separate j ?_, fun j => ?_, hput.ok⟩
        · rw [hput.at_ j hj b hb', hat' j hj b hb', withinRuns_cons]
          simp only
          omega
        · by_cases hjk : j = k
          · rw [hjk, Function.update_self, hfields.1]
            exact hputs.separate (hjk ▸ hsep)
          · rw [Function.update_of_ne hjk]
            exact hsep
        · have hj := hput.same j
          by_cases hjk : j = k
          · rw [hjk, Function.update_self] at hj
            rw [hjk]
            exact ⟨hfields.2.2.1.trans hj.1, hj.2.trans hfields.2.2.2⟩
          · rwa [Function.update_of_ne hjk] at hj

/-- What a refused allocation leaves: the groups have free what they had. -/
structure Unspent (sb : Superblock) (ags ags' : Nat → Ag) : Prop where
  at_ : ∀ k < sb.agCount, ∀ b, freeAt (ags' k).free b = freeAt (ags k).free b
  separate : ∀ k, Separate (ags k).free → Separate (ags' k).free
  same : ∀ k, SameButSpace (ags k) (ags' k) ∧ (ags' k).rmap = (ags k).rmap
  ok : ∀ k < sb.agCount, GroupOk sb k (ags' k)

/-- All the AGs, in the order they are gone to, can spare what all the AGs can. -/
theorem sum_rotate (f : Nat → Nat) (n i : Nat) :
    (((List.range n).rotate i).map f).sum = ∑ k ∈ Finset.range n, f k := by
  rw [((List.rotate_perm _ _).map f).sum_eq, ← List.sum_toFinset f List.nodup_range,
    List.toFinset_range]

/-- `alloc_blocks` takes what is asked for when the AGs together can spare it, and
otherwise nothing. -/
theorem allocBlocks_spec (hs : v.sb.Sound) (hcount : v.sb.agCount < 2 ^ 32) (h : v.HasGroups ags)
    (hok : ∀ k < v.sb.agCount, GroupOk v.sb k (ags k))
    (hpref : pref % v.sb.agCount + v.sb.agCount ≤ 2 ^ 32) (n : Nat) :
    (n ≤ ∑ k ∈ Finset.range v.sb.agCount, (ags k).spare →
      ∃ runs ags' v', allocBlocks pref n near v = .ok runs v' ∧ v'.sb = v.sb ∧ v'.dev = v.dev ∧
        v'.HasGroups ags' ∧ Took v.sb ags ags' runs n) ∧
    (∑ k ∈ Finset.range v.sb.agCount, (ags k).spare < n →
      ∃ ags' v', allocBlocks pref n near v = .error (.noSpace s!"{n} blocks") v' ∧ v'.sb = v.sb ∧
        v'.dev = v.dev ∧ v'.HasGroups ags' ∧ Unspent v.sb ags ags') := by
  have horder : agOrder v.sb pref =
      .ok ((List.range v.sb.agCount).rotate (pref % v.sb.agCount)) := by
    rw [agOrder_eq hs.agCount_pos, if_neg (by omega)]
  obtain ⟨runs, ags', v', hrun, hsb, hdev, hh, htook, hmem, -⟩ :=
    @allocAcross_spec v pref near hs hcount ((List.range v.sb.agCount).rotate (pref % v.sb.agCount)) n
      v ags rfl h hok (List.nodup_rotate.mpr List.nodup_range)
      fun k hk => List.mem_range.mp (List.mem_rotate.mp hk)
  rw [sum_rotate fun k => (ags k).spare] at hrun htook
  have hstart : allocBlocks pref n near v =
      (allocAcross pref near ((List.range v.sb.agCount).rotate (pref % v.sb.agCount)) n >>= fun taken =>
        if 0 < taken.2 then undoAlloc taken.1 >>= fun _ => throw (.noSpace s!"{n} blocks")
        else pure taken.1) v := by
    unfold allocBlocks
    simp only [get_bind_apply]
    rw [bind_of_ok (liftE_eq_ok.mpr ⟨horder, rfl⟩)]
    rfl
  rw [hstart, bind_of_ok hrun]
  constructor
  · intro hle
    rw [Nat.min_eq_left hle] at htook
    refine ⟨runs, ags', v', ?_, hsb, hdev, hh, htook⟩
    simp only
    rw [if_neg (by omega)]
    rfl
  · intro hlt
    obtain ⟨ags'', v'', hundo, hsb'', hdev'', hh'', hput⟩ := @undoAlloc_spec v hs hcount runs v' ags' hsb hh
      htook.ok (fun r hr => by
        obtain ⟨k, hk, s, h1, h2, -, h3⟩ := htook.placed r hr
        have hlen : (ags' k).len = (ags k).len := by rw [(htook.same k).1]
        exact ⟨k, hk, s, h1, h2, hlen ▸ h3⟩) hmem (fun k hk b hb => by
        rw [htook.at_ k hk b hb]
        exact (hok k hk).space.freeOk.once b)
    refine ⟨ags'', v'', ?_, hsb'', hdev''.trans hdev, hh'', fun k hk b => ?_, fun k hsep => ?_,
      fun k => ?_, hput.ok⟩
    · simp only
      rw [if_pos (by omega), bind_of_ok hundo]
      rfl
    · by_cases hb : b < 2 ^ v.sb.agblkLog
      · rw [hput.at_ k hk b hb, htook.at_ k hk b hb]
      · -- Nothing is free beyond an AG's end.
        have h1 := groupOk_len hs (hok k hk)
        have h2 := groupOk_len hs (hput.ok k hk)
        have h3 := (hok k hk).space.inside b
        have h4 := (hput.ok k hk).space.inside b
        omega
    · exact hput.separate k (htook.separate k hsep)
    · have h1 := htook.same k
      have h2 := hput.same k
      exact ⟨h1.1.trans h2.1, h2.2.trans h1.2⟩

/-- What `alloc_blocks` promises of a volume with the groups `ags`, from AG `pref` on. -/
def AllocComplete (v : Volume) (ags : Nat → Ag) (pref : Nat) : Prop := ∀ near n,
  ((∃ runs v', allocBlocks pref n near v = .ok runs v') ↔
    n ≤ ∑ k ∈ Finset.range v.sb.agCount, (ags k).spare) ∧
  (∀ runs v', allocBlocks pref n near v = .ok runs v' →
    ∃ ags', v'.sb = v.sb ∧ v'.HasGroups ags' ∧ Took v.sb ags ags' runs n) ∧
  (∀ what v', allocBlocks pref n near v = .error (.noSpace what) v' →
    ∃ ags', v'.sb = v.sb ∧ v'.HasGroups ags' ∧ Unspent v.sb ags ags')

/-- It is kept exactly when the order of the AGs can be worked out in 32 bits. -/
theorem alloc_blocks_complete {buf : Bytes} (hsb : Superblock.parse buf = .ok v.sb)
    (h : v.HasGroups ags) (hok : ∀ k < v.sb.agCount, GroupOk v.sb k (ags k)) (pref : Nat) :
    AllocComplete v ags pref ↔ pref % v.sb.agCount + v.sb.agCount ≤ 2 ^ 32 := by
  have hs := Superblock.sound_of_parse hsb
  constructor
  · intro hall
    by_contra hover
    obtain ⟨runs, v', hrun⟩ := (hall 0 0).1.mpr (Nat.zero_le _)
    unfold allocBlocks at hrun
    simp only [get_bind_apply] at hrun
    rw [bind_of_error (liftE_eq_error.mpr
      ⟨by rw [agOrder_eq hs.agCount_pos, if_pos (by omega)], rfl⟩)] at hrun
    cases hrun
  · intro hpref near n
    obtain ⟨hyes, hno⟩ := @allocBlocks_spec v ags pref near hs (Superblock.agCount_lt_of_parse hsb) h hok
      hpref n
    rcases Nat.lt_or_ge (∑ k ∈ Finset.range v.sb.agCount, (ags k).spare) n with hlt | hle
    · obtain ⟨ags', v', hrun, hsb', -, hh', hun⟩ := hno hlt
      rw [hrun]
      refine ⟨⟨?_, fun hle => absurd hlt (by omega)⟩, ?_, ?_⟩
      · rintro ⟨_, _, hbad⟩
        cases hbad
      · rintro _ _ hbad
        cases hbad
      · rintro _ _ heq
        cases heq
        exact ⟨ags', hsb', hh', hun⟩
    · obtain ⟨runs, ags', v', hrun, hsb', -, hh', htook⟩ := hyes hle
      rw [hrun]
      refine ⟨⟨fun _ => hle, fun _ => ⟨_, _, rfl⟩⟩, ?_, ?_⟩
      · rintro _ _ heq
        cases heq
        exact ⟨ags', hsb', hh', htook⟩
      · rintro _ _ hbad
        cases hbad

/-! ## Many groups, and what they have free -/

/-- A superblock of `n` groups of 16 blocks, and its sector. -/
def manySb (n : Nat) : Superblock := { freshSb 16 true with dataBlocks := 16 * n, agCount := n }
def manySector (n : Nat) : Bytes :=
  Crc.stamp (put32 (put64 (freshSector 16 true) 8 (16 * n)) 88 n) 224

/-- Each group as it is made. -/
def manyAg (k : Nat) : Ag := { freshAg 16 true with agno := k }

/-- All of them in memory. -/
def manyVolume (n : Nat) : Volume :=
  { freshVolume with
    sb := manySb n
    w := some { Writer.new ⟨0, 0⟩ with
      ags := ⟨(List.range n).map fun k => (k, manyAg k),
        List.pairwise_map.mpr List.pairwise_lt_range⟩ } }

theorem groupOk_many {n k : Nat} (hk : k < n) : GroupOk (manySb n) k (manyAg k) := by
  refine ⟨(groupOk_of_loaded load_fresh).space.of_same rfl rfl rfl, ?_⟩
  unfold Superblock.agLen
  change (if k * 16 ≤ 16 * n then _ else _) = _
  rw [if_pos (by omega)]
  change Except.ok (min (16 * n - k * 16) 16) = .ok 16
  rw [Nat.min_eq_right (by omega)]

theorem hasGroups_many (n : Nat) : (manyVolume n).HasGroups manyAg where
  writable := Or.inl rfl
  holds _ hk := Or.inl (ag?_eq_some.mpr ⟨_, rfl,
    OrdMap.get?_eq_some.mpr (List.mem_map_of_mem (List.mem_range.mpr hk))⟩)

/-- A group whose free blocks lie in three places. -/
def brokenAg (k : Nat) : Ag :=
  { manyAg k with free := .ofList [(8, 1), (10, 2), (14, 2)], freeTotal := 5 }

/-- Such groups, all of them in memory, and a device for them. -/
def brokenVolume (n : Nat) : Volume :=
  { manyVolume n with
    dev := ⟨List.replicate (8192 * n) 0, []⟩
    w := some { Writer.new ⟨0, 0⟩ with
      ags := ⟨(List.range n).map fun k => (k, brokenAg k),
        List.pairwise_map.mpr List.pairwise_lt_range⟩ } }

theorem freeAt_broken (k b : Nat) :
    freeAt (brokenAg k).free b = within 8 1 b + (within 10 2 b + within 14 2 b) := rfl

theorem groupOk_broken {n k : Nat} (hk : k < n) : GroupOk (manySb n) k (brokenAg k) where
  space :=
    { freeOk :=
        { pos := by
            change ∀ e ∈ [(8, 1), (10, 2), (14, 2)], 0 < e.2
            decide
          once := fun b => by
            rw [freeAt_broken]
            unfold within
            split_ifs <;> omega }
      total := rfl
      inside := fun b hb => by
        rw [freeAt_broken] at hb
        change b < 16
        unfold within at hb
        split_ifs at hb <;> omega }
  agLen := (groupOk_many hk).agLen

theorem hasGroups_broken (n : Nat) : (brokenVolume n).HasGroups brokenAg where
  writable := Or.inl rfl
  holds _ hk := Or.inl (ag?_eq_some.mpr ⟨_, rfl,
    OrdMap.get?_eq_some.mpr (List.mem_map_of_mem (List.mem_range.mpr hk))⟩)

set_option maxRecDepth 100000 in
theorem parse_three : Superblock.parse (manySector 3) = .ok (manySb 3) := by
  decide +kernel

/-- Three groups in pieces, each with three blocks to spare, give nine blocks and no more. -/
theorem alloc_blocks_complete_broken :
    (∃ runs v', allocBlocks 1 9 10 (brokenVolume 3) = .ok runs v') ∧
      ¬∃ runs v', allocBlocks 1 10 10 (brokenVolume 3) = .ok runs v' := by
  have hspare : ∑ k ∈ Finset.range (brokenVolume 3).sb.agCount, (brokenAg k).spare = 9 := by decide
  have hall : AllocComplete (brokenVolume 3) brokenAg 1 :=
    (alloc_blocks_complete parse_three (hasGroups_broken 3) (fun _ hk => groupOk_broken hk) 1).mpr
      (by decide)
  refine ⟨(hall 10 9).1.mpr hspare.ge, fun h => ?_⟩
  have hle := (hall 10 10).1.mp h
  omega

/-! ## So many that their order overflows -/

theorem spare_many {n : Nat} (hn : 0 < n) : 1 ≤ ∑ k ∈ Finset.range n, (manyAg k).spare := by
  have hone : (manyAg 0).spare = 6 := rfl
  have := Finset.single_le_sum (f := fun k => (manyAg k).spare) (fun _ _ => Nat.zero_le _)
    (Finset.mem_range.mpr hn)
  omega

/-- Where the order of the AGs overflows, nothing is allocated. -/
theorem allocBlocks_many {n pref : Nat} (hn : 0 < n) (hover : 2 ^ 32 < pref % n + n) (want near : Nat) :
    allocBlocks pref want near (manyVolume n) =
      .error (.panic "attempt to add with overflow") (manyVolume n) := by
  unfold allocBlocks
  simp only [get_bind_apply]
  refine bind_of_error (liftE_eq_error.mpr ⟨?_, rfl⟩)
  rw [agOrder_eq (show 0 < (manyVolume n).sb.agCount from hn)]
  exact if_pos hover

theorem not_complete_many {n pref : Nat} (hn : 0 < n) (hover : 2 ^ 32 < pref % n + n) :
    ¬AllocComplete (manyVolume n) manyAg pref := by
  intro hall
  obtain ⟨runs, v', hbad⟩ := (hall 0 1).1.mpr (spare_many hn)
  rw [allocBlocks_many hn hover] at hbad
  cases hbad

set_option maxRecDepth 100000 in
theorem parse_many : Superblock.parse (manySector (2 ^ 32 - 1)) = .ok (manySb (2 ^ 32 - 1)) := by
  decide +kernel

/-- With `2 ^ 32 - 1` AGs, all of them with blocks to spare, one block wanted from AG 2 on
stops the program. -/
theorem alloc_blocks_overflow : ∃ (v : Volume) (ags : Nat → Ag),
    Superblock.parse (manySector (2 ^ 32 - 1)) = .ok v.sb ∧ v.HasGroups ags ∧
      (∀ k < v.sb.agCount, GroupOk v.sb k (ags k) ∧ (ags k).spare = 6) ∧
      allocBlocks 2 1 0 v = .error (.panic "attempt to add with overflow") v ∧
      ¬AllocComplete v ags 2 := by
  have hn : 0 < 2 ^ 32 - 1 := by norm_num
  have hover : 2 ^ 32 < 2 % (2 ^ 32 - 1) + (2 ^ 32 - 1) := by norm_num
  exact ⟨manyVolume (2 ^ 32 - 1), manyAg, parse_many, hasGroups_many _,
    fun _ hk => ⟨groupOk_many hk, rfl⟩, allocBlocks_many hn hover 1 0, not_complete_many hn hover⟩

end

end Volume

end FioXfs
