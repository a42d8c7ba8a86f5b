import FioXfs.Alloc.Refusal
import FioXfs.Write
set_option autoImplicit false

/-!
# The groups a volume holds

How a method of one AG acts on the volume, and what `release` leaves behind when it is
refused.
-/

namespace FioXfs

open FioXfs.Lib FioXfs.Alloc

namespace Volume

/-! ## One group of the volume -/

section
variable {α : Type} {v : Volume} {ag ag' : Ag} {agno k : Nat} {x : Act Ag α}

/-- AG `agno` as it is held in memory. -/
def ag? (v : Volume) (agno : Nat) : Option Ag := v.w.bind fun w => w.ags.get? agno

/-- The volume with AG `agno` in memory. -/
def putAg (v : Volume) (agno : Nat) (ag : Ag) : Volume :=
  { v with w := v.w.map fun w => { w with ags := w.ags.insert agno ag } }

@[simp] theorem putAg_sb : (v.putAg agno ag).sb = v.sb := rfl

@[simp] theorem putAg_dev : (v.putAg agno ag).dev = v.dev := rfl

theorem ag?_eq_some : v.ag? agno = some ag ↔ ∃ w, v.w = some w ∧ w.ags.get? agno = some ag :=
  Option.bind_eq_some_iff

theorem ag?_putAg (hw : v.w.isSome) :
    (v.putAg agno ag').ag? k = if k = agno then some ag' else v.ag? k := by
  obtain ⟨w, hw⟩ := Option.isSome_iff_exists.mp hw
  simp [ag?, putAg, hw]

theorem isSome_of_ag? (h : v.ag? agno = some ag) : v.w.isSome := by
  obtain ⟨w, hw, -⟩ := ag?_eq_some.mp h
  simp [hw]

theorem ag?_putAg_self (h : v.ag? agno = some ag) : (v.putAg agno ag').ag? agno = some ag' := by
  rw [ag?_putAg (isSome_of_ag? h), if_pos rfl]

theorem writer_of_isSome (hw : v.w.isSome) : writer v = .ok () v := by
  simp [writer, Option.isSome_iff_ne_none.mp hw]

theorem getWriter_apply {w : Writer} (hw : v.w = some w) : getWriter v = .ok w v := by
  simp [getWriter, hw]

/-- A group already in memory is not read again. -/
theorem loadAg_of_loaded (h : v.ag? agno = some ag) : loadAg agno v = .ok () v := by
  obtain ⟨w, hw, hget⟩ := ag?_eq_some.mp h
  unfold loadAg
  rw [bind_of_ok (writer_of_isSome (isSome_of_ag? h)), bind_of_ok (getWriter_apply hw)]
  simp [hget]

/-- Making sure there is a writer reads and changes no group. -/
theorem writer_eq_ok {v' : Volume} (h : writer v = .ok () v') :
    v'.dev = v.dev ∧ v'.sb = v.sb ∧ v'.w.isSome ∧ ∀ k, v'.ag? k = v.ag? k := by
  cases hw : v.w with
  | some w =>
      rw [writer_of_isSome (by simp [hw])] at h
      obtain ⟨-, rfl⟩ := EStateM.Result.ok.inj h
      exact ⟨rfl, rfl, by simp [hw], fun _ => rfl⟩
  | none =>
      unfold writer at h
      simp only [get_bind_apply, hw, Option.isNone_none, if_true] at h
      obtain ⟨_, v1, h1, h⟩ := bind_eq_ok.mp h
      obtain ⟨-, rfl⟩ := liftE_eq_ok.mp h1
      obtain ⟨_, h⟩ := act_throwIf_bind_eq_ok.mp h
      obtain ⟨t, v2, h2, h⟩ := bind_eq_ok.mp h
      have hclock : v2.dev = v.dev ∧ v2.sb = v.sb := by
        unfold readClock at h2
        cases hc : v.clock <;> simp only [get_bind_apply, hc] at h2 <;>
          obtain ⟨-, rfl⟩ := EStateM.Result.ok.inj h2 <;> exact ⟨rfl, rfl⟩
      obtain ⟨-, rfl⟩ := EStateM.Result.ok.inj h
      refine ⟨hclock.1, hclock.2, rfl, fun k => ?_⟩
      simp [ag?, hw, Writer.new, OrdMap.get?, OrdMap.empty]

/-- Loading a group reads it from the device, unless it is in memory already. -/
theorem loadAg_eq_ok {v' : Volume} (h : loadAg agno v = .ok () v') :
    v'.dev = v.dev ∧ v'.sb = v.sb ∧ v'.w.isSome ∧ (∀ k, k ≠ agno → v'.ag? k = v.ag? k) ∧
      ∃ ag, v'.ag? agno = some ag ∧
        (v.ag? agno = some ag ∨ v.ag? agno = none ∧ Alloc.load v.dev v.sb agno = .ok ag) := by
  unfold loadAg at h
  obtain ⟨_, v1, h1, h⟩ := bind_eq_ok.mp h
  obtain ⟨hdev, hsb, hw, hags⟩ := writer_eq_ok h1
  obtain ⟨w, hw⟩ := Option.isSome_iff_exists.mp hw
  rw [bind_of_ok (getWriter_apply hw)] at h
  cases hget : w.ags.get? agno with
  | some ag =>
      simp only [hget, Option.isNone_some, Bool.false_eq_true, if_false] at h
      obtain ⟨-, rfl⟩ := EStateM.Result.ok.inj h
      have hag : v1.ag? agno = some ag := ag?_eq_some.mpr ⟨w, hw, hget⟩
      exact ⟨hdev, hsb, by simp [hw], fun k _ => hags k, ag, hag, Or.inl (by rw [← hags, hag])⟩
  | none =>
      simp only [hget, Option.isNone_none, if_true, get_bind_apply] at h
      obtain ⟨ag, v2, h2, h⟩ := bind_eq_ok.mp h
      obtain ⟨hload, rfl⟩ := liftE_eq_ok.mp h2
      obtain ⟨-, rfl⟩ := EStateM.Result.ok.inj h
      have hisSome : v1.w.isSome := by simp [hw]
      refine ⟨hdev, hsb, by simp [hw], fun k hk => ?_, ag, ?_, Or.inr ⟨?_, ?_⟩⟩
      · exact (ag?_putAg hisSome).trans ((if_neg hk).trans (hags k))
      · exact (ag?_putAg hisSome).trans (if_pos rfl)
      · rw [← hags]
        simp [ag?, hw, hget]
      · rw [← hdev, ← hsb]
        exact hload

/-- Only the device changes in a method of it. -/
theorem onDev_eq_ok {dx : Act Device α} {a : α} {v' : Volume} :
    onDev dx v = .ok a v' ↔ ∃ dev, dx v.dev = .ok a dev ∧ v' = { v with dev := dev } :=
  zoom_eq_ok

theorem onAg_apply (h : v.ag? agno = some ag) : onAg agno x v =
    match x ag with
    | .ok a ag' => .ok a (v.putAg agno ag')
    | .error e ag' => .error e (v.putAg agno ag') := by
  obtain ⟨w, hw, hget⟩ := ag?_eq_some.mp h
  unfold onAg
  rw [bind_of_ok (getWriter_apply hw)]
  simp only [hget, zoom]
  cases x ag <;> rfl

theorem onAg_eq_ok {a : α} {v' : Volume} (h : v.ag? agno = some ag) :
    onAg agno x v = .ok a v' ↔ ∃ ag', x ag = .ok a ag' ∧ v' = v.putAg agno ag' := by
  rw [onAg_apply h]
  cases x ag with
  | ok b t => simp [eq_comm]
  | error e t => simp

/-- A method of a group succeeds in one that is in memory, and changes that one only. -/
theorem onAg_ok {a : α} {v' : Volume} (h : onAg agno x v = .ok a v') :
    ∃ ag ag', v.ag? agno = some ag ∧ x ag = .ok a ag' ∧ v' = v.putAg agno ag' := by
  cases hag : v.ag? agno with
  | some ag =>
      obtain ⟨ag', hx, hv⟩ := (onAg_eq_ok hag).mp h
      exact ⟨ag, ag', rfl, hx, hv⟩
  | none =>
      unfold onAg getWriter at h
      cases hw : v.w with
      | none => simp [hw] at h
      | some w =>
          have hget : w.ags.get? agno = none := by simpa [ag?, hw] using hag
          simp [hw, hget] at h

theorem onAg_eq_error {e : Error} {v' : Volume} (h : v.ag? agno = some ag) :
    onAg agno x v = .error e v' ↔ ∃ ag', x ag = .error e ag' ∧ v' = v.putAg agno ag' := by
  rw [onAg_apply h]
  cases x ag with
  | ok b t => simp
  | error e' t => simp [eq_comm]

end

/-! ## All the groups -/

/-- AG `agno` as the volume has it: in memory, or as it would load. -/
def Holds (v : Volume) (agno : Nat) (ag : Ag) : Prop :=
  v.ag? agno = some ag ∨ v.ag? agno = none ∧ Alloc.load v.dev v.sb agno = .ok ag

/-- A volume that is or can be opened for writing, and its groups. -/
structure HasGroups (v : Volume) (ags : Nat → Ag) : Prop where
  writable : v.w.isSome ∨ v.sb.checkWritable = .ok () ∧ (v.log = .clean ∨ v.log = .external)
  holds : ∀ k < v.sb.agCount, v.Holds k (ags k)

/-- The space of AG `k` is in order, and its length is right. -/
structure GroupOk (sb : Superblock) (k : Nat) (ag : Ag) : Prop where
  space : SpaceOk ag
  agLen : sb.agLen k = .ok ag.len

theorem groupOk_of_loaded {dev : Device} {sb : Superblock} {k : Nat} {ag : Ag}
    (h : Alloc.load dev sb k = .ok ag) : GroupOk sb k ag := by
  obtain ⟨run⟩ := load_ok h
  exact ⟨run.spaceOk, run.agLen⟩

section
variable {v v' : Volume} {ags : Nat → Ag} {ag ag' : Ag} {agno k : Nat}

theorem Holds.of_same {ag : Ag} (h : v.Holds k ag) (hdev : v'.dev = v.dev) (hsb : v'.sb = v.sb)
    (hag : v'.ag? k = v.ag? k) : v'.Holds k ag := by
  unfold Holds at h ⊢
  rw [hag, hdev, hsb]
  exact h

/-- A volume that can be written gets its writer. -/
theorem writer_succeeds
    (h : v.w.isSome ∨ v.sb.checkWritable = .ok () ∧ (v.log = .clean ∨ v.log = .external)) :
    ∃ v', writer v = .ok () v' := by
  cases hw : v.w with
  | some w => exact ⟨v, writer_of_isSome (by simp [hw])⟩
  | none =>
      obtain ⟨hcheck, hlog⟩ := h.resolve_left (by simp [hw])
      unfold writer
      simp only [get_bind_apply, hw, Option.isNone_none, if_true]
      rw [bind_of_ok (liftE_eq_ok.mpr ⟨hcheck, rfl⟩),
        act_throwIf_bind_of_not fun hdirty => hlog.elim hdirty.1 hdirty.2]
      have hclock : ∃ t v1, readClock v = .ok t v1 := by
        unfold readClock
        cases hc : v.clock with
        | nil => exact ⟨_, _, by simp only [get_bind_apply, hc]; rfl⟩
        | cons t ts => exact ⟨_, _, by simp only [get_bind_apply, hc]; rfl⟩
      obtain ⟨t, v1, h1⟩ := hclock
      rw [bind_of_ok h1]
      exact ⟨_, rfl⟩

/-- `v'` is `v` with AG `k` in memory as `ag`. -/
structure Became (v v' : Volume) (k : Nat) (ag : Ag) : Prop where
  dev : v'.dev = v.dev
  sb : v'.sb = v.sb
  ag : v'.ag? k = some ag
  other : ∀ j, j ≠ k → v'.ag? j = v.ag? j

theorem became_put (h : v.ag? k = some ag) : Became v (v.putAg k ag') k ag' :=
  ⟨rfl, rfl, ag?_putAg_self h, fun _ hj => (ag?_putAg (isSome_of_ag? h)).trans (if_neg hj)⟩

theorem Became.trans {v'' : Volume} (h : Became v v' k ag) (h' : Became v' v'' k ag') :
    Became v v'' k ag' :=
  ⟨h'.dev.trans h.dev, h'.sb.trans h.sb, h'.ag, fun j hj => (h'.other j hj).trans (h.other j hj)⟩

theorem HasGroups.became (h : v.HasGroups ags) (hb : Became v v' k ag) :
    v'.HasGroups (Function.update ags k ag) := by
  refine ⟨Or.inl (isSome_of_ag? hb.ag), fun j hj => ?_⟩
  rw [hb.sb] at hj
  by_cases hjk : j = k
  · rw [hjk, Function.update_self]
    exact Or.inl hb.ag
  · rw [Function.update_of_ne hjk]
    exact (h.holds j hj).of_same hb.dev hb.sb (hb.other j hjk)

/-- Every group of the volume can be had in memory as it is. -/
theorem HasGroups.loaded (h : v.HasGroups ags) (hk : k < v.sb.agCount) :
    ∃ v', loadAg k v = .ok () v' ∧ Became v v' k (ags k) := by
  have hrun : ∃ v', loadAg k v = .ok () v' := by
    obtain ⟨v1, h1⟩ := writer_succeeds h.writable
    obtain ⟨hdev, hsb, hw, hags⟩ := writer_eq_ok h1
    obtain ⟨w, hw⟩ := Option.isSome_iff_exists.mp hw
    unfold loadAg
    rw [bind_of_ok h1, bind_of_ok (getWriter_apply hw)]
    cases hget : w.ags.get? k with
    | some ag => exact ⟨v1, by simp⟩
    | none =>
        have hnone : v.ag? k = none := by
          rw [← hags]
          simp [ag?, hw, hget]
        have hload := ((h.holds k hk).resolve_left (by simp [hnone])).2
        simp only [Option.isNone_none, if_true, get_bind_apply]
        rw [hdev, hsb, bind_of_ok (liftE_eq_ok.mpr ⟨hload, rfl⟩)]
        exact ⟨_, rfl⟩
  obtain ⟨v', hv'⟩ := hrun
  obtain ⟨hdev, hsb, -, hother, ag, hag, hor⟩ := loadAg_eq_ok hv'
  have hsame : ag = ags k := by
    rcases h.holds k hk with hk' | ⟨hk', hload⟩ <;> rcases hor with hor | ⟨hor, hload'⟩
    · exact Option.some.inj (hor.symm.trans hk')
    · rw [hk'] at hor
      cases hor
    · rw [hk'] at hor
      cases hor
    · exact Except.ok.inj (hload'.symm.trans hload)
  exact ⟨v', hv', hdev, hsb, hsame ▸ hag, hother⟩

end

/-- A volume of one group as it is made, opened for writing. -/
def freshVolume : Volume :=
  { dev := freshDevice 16 true, sb := freshSb 16 true, log := .clean
    w := some (Writer.new ⟨0, 0⟩), time := none, clock := [] }

/-! ## Releasing a run -/

section
variable {v : Volume} {ag : Ag} {fsb len owner agno agbno : Nat}

/-- `release` in a group already in memory is `free_extent` and then `rmap_remove`. -/
theorem release_apply (hat : v.sb.fsbToAgb fsb = (agno, agbno)) (h : v.ag? agno = some ag) :
    release fsb len owner v = (onAg agno (freeExtent agbno len) >>= fun _ =>
      onAg agno (rmapRemove v.sb agbno len owner)) v := by
  unfold release
  simp only [get_bind_apply, hat]
  rw [bind_of_ok (loadAg_of_loaded h)]

/-- What `release` does when it fails: `free_extent` was refused, or it was done and
`rmap_remove` was refused. -/
theorem release_eq_error {e : Error} {v' : Volume} (hat : v.sb.fsbToAgb fsb = (agno, agbno))
    (h : v.ag? agno = some ag) : release fsb len owner v = .error e v' ↔
      (∃ t, freeExtent agbno len ag = .error e t ∧ v' = v.putAg agno t) ∨
      ∃ t t', freeExtent agbno len ag = .ok () t ∧
        rmapRemove v.sb agbno len owner t = .error e t' ∧
        v' = (v.putAg agno t).putAg agno t' := by
  rw [release_apply hat h, bind_eq_error, onAg_eq_error h]
  refine or_congr_right ⟨?_, ?_⟩
  · rintro ⟨⟨⟩, u, h1, h2⟩
    obtain ⟨t, ht, rfl⟩ := (onAg_eq_ok h).mp h1
    obtain ⟨t', ht', rfl⟩ := (onAg_eq_error (ag?_putAg_self h)).mp h2
    exact ⟨t, t', ht, ht', rfl⟩
  · rintro ⟨t, t', ht, ht', rfl⟩
    exact ⟨(), _, (onAg_eq_ok h).mpr ⟨t, ht, rfl⟩,
      (onAg_eq_error (ag?_putAg_self h)).mpr ⟨t', ht', rfl⟩⟩

/-- After a free or a release that returns an error nothing is lost, exactly when the free is not
torn and the records of the owner share all the run's blocks with it, or (for the mappings
alone) none.  Where an end of one of these records does not fit in 32 bits nothing is returned. -/
theorem refused_free_keeps {sb : Superblock} {ag : Ag} (hf : FreeOk ag.free)
    (hfit : ExtentsFit ag.free) (hlen : ag.len < 2 ^ 32) (start n owner : Nat) :
    ((∀ e t, freeExtent start n ag = .error e t → t.free = ag.free ∧
        t.freeTotal = ag.freeTotal ∧ t.rmap = ag.rmap ∧ t.dirty = ag.dirty) ↔
      ¬TornFree ag start n) ∧
    ((∀ e t, rmapRemove sb start n owner ag = .error e t → e.isPanic = false → t.rmap = ag.rmap) ↔
      (sb.hasRmapbt = true → start + n < 2 ^ 32 → OwnFit ag.rmap start (start + n) owner →
        heldRecords ag.rmap start (start + n) owner = [] ∨
        ((heldRecords ag.rmap start (start + n) owner).map (common start (start + n))).sum = n)) ∧
    ∀ (v : Volume) (fsb agno : Nat), v.sb = sb → sb.fsbToAgb fsb = (agno, start) →
      v.ag? agno = some ag →
      ((∀ e v', release fsb n owner v = .error e v' → e.isPanic = false →
          ∃ ag', v'.ag? agno = some ag' ∧ ag'.free = ag.free ∧ ag'.rmap = ag.rmap) ↔
        ¬TornFree ag start n ∧ (CanFree ag start n → sb.hasRmapbt = true →
          OwnFit ag.rmap start (start + n) owner → ((heldRecords ag.rmap start (start + n) owner).map
            (common start (start + n))).sum = n)) := by
  refine ⟨freeExtent_keeps_iff hf hfit, rmapRemove_keeps_iff, ?_⟩
  rintro v fsb agno rfl hat hag
  -- The mappings are as they were when the free is done.
  have hdone : ∀ {t : Ag}, freeExtent start n ag = .ok () t →
      t.rmap = ag.rmap ∧ t.free ≠ ag.free := by
    intro t h
    obtain ⟨hn, -, free', hputs, rfl⟩ := freeExtent_ok hf h
    refine ⟨rfl, fun heq => ?_⟩
    have hsum := hputs.sum
    simp only at heq
    rw [heq] at hsum
    omega
  constructor
  · intro hkeep
    constructor
    · intro htorn
      cases h : freeExtent start n ag with
      | ok u t =>
          obtain ⟨-, -, -, x, hx, hge, hlt⟩ := htorn
          have := ((freeExtent_succeeds_iff hf hfit).mp ⟨t, h⟩).2.2 x hx
          have := hf.pos x hx
          omega
      | error e t =>
          obtain ⟨hret, -, hleft⟩ := freeExtent_refused hf hfit h
          obtain ⟨ag', hag', hfree, -⟩ :=
            hkeep e _ ((release_eq_error hat hag).mpr (Or.inl ⟨t, h, rfl⟩)) hret
          rw [ag?_putAg_self hag, Option.some.injEq] at hag'
          subst hag'
          rcases hleft with ⟨-, hnot⟩ | ⟨-, x, hx, -, rfl⟩
          · exact hnot htorn
          · rw [← hfree] at hx
            exact (OrdMap.mem_erase.mp hx).2 rfl
    · intro hcan hrm hown
      obtain ⟨t, ht⟩ := (freeExtent_succeeds_iff hf hfit).mpr hcan
      obtain ⟨hrmap, hne⟩ := hdone ht
      have hlt : start + n < 2 ^ 32 := Nat.lt_of_le_of_lt hcan.2.1 hlen
      rw [← hrmap] at hown ⊢
      obtain ⟨hiff, hret⟩ := rmapRemove_refused hrm hlt hown
      cases h : rmapRemove v.sb start n owner t with
      | ok u t' => exact hiff.mp ⟨t', h⟩
      | error e t' =>
          obtain ⟨ag', hag', hfree, -⟩ := hkeep e _
            ((release_eq_error hat hag).mpr (Or.inr ⟨t, t', ht, h, rfl⟩)) (hret e t' h).1
          rw [ag?_putAg_self (ag?_putAg_self hag), Option.some.injEq] at hag'
          subst hag'
          have hsame := rmapRemove_error_same h
          rw [hsame] at hfree
          exact absurd hfree hne
  · rintro ⟨hnot, hall⟩ e v' h hret
    rcases (release_eq_error hat hag).mp h with ⟨t, ht, rfl⟩ | ⟨t, t', ht, ht', rfl⟩
    · rcases (freeExtent_refused hf hfit ht).2.2 with ⟨rfl, -⟩ | ⟨htorn, -⟩
      · exact ⟨t, ag?_putAg_self hag, rfl, rfl⟩
      · exact absurd htorn hnot
    · have hcan := (freeExtent_succeeds_iff hf hfit).mp ⟨t, ht⟩
      have hlt : start + n < 2 ^ 32 := Nat.lt_of_le_of_lt hcan.2.1 hlen
      have hsum := hall hcan
      rw [← (hdone ht).1] at hsum
      -- A removal that returns its error has had all the ends it looked at.
      obtain ⟨t2, ht2⟩ := (rmapRemove_succeeds_iff hlt).mpr fun hrm =>
        have hown : OwnFit t.rmap start (start + n) owner := by
          by_contra hno
          obtain ⟨e', rmap', hrun, hpanic⟩ := rmapRemove_stops hrm fun h => hno h.2
          rw [hrun] at ht'
          cases ht'
          rw [hpanic] at hret
          cases hret
        ⟨hown, hsum hrm hown⟩
      rw [ht2] at ht'
      cases ht'

/-- A group with two free extents that the run 2..4 touches and meets. -/
def gappedAg : Ag :=
  { freshAg 16 true with free := .ofList [(0, 2), (3, 2)], freeTotal := 4 }

theorem freeOk_gapped : FreeOk gappedAg.free where
  pos := by decide
  once b := by
    simp only [freeAt, gappedAg, OrdMap.weight, OrdMap.ofList, OrdMap.insert, OrdMap.empty,
      List.foldl_cons, List.foldl_nil, insertEntry]
    unfold within
    simp
    split_ifs <;> omega

theorem extentsFit_gapped : ExtentsFit gappedAg.free := by
  unfold ExtentsFit
  decide

/-- Freeing the run 2..4 of it fails, with the extent before the run gone. -/
theorem refused_free_tears : FreeOk gappedAg.free ∧ ∃ e t,
    freeExtent 2 2 gappedAg = .error e t ∧ t.free.entries = [(3, 2)] ∧
      gappedAg.free.entries = [(0, 2), (3, 2)] :=
  ⟨freeOk_gapped, _, _, rfl, by decide, by decide⟩

theorem refused_free_keeps_gapped : FreeOk gappedAg.free ∧ ExtentsFit gappedAg.free ∧
    gappedAg.len < 2 ^ 32 ∧
    ∀ e t, freeExtent 1 2 gappedAg = .error e t → t.free = gappedAg.free ∧
      t.freeTotal = gappedAg.freeTotal ∧ t.rmap = gappedAg.rmap ∧ t.dirty = gappedAg.dirty :=
  ⟨freeOk_gapped, extentsFit_gapped, by decide,
    (@refused_free_keeps (freshSb 16 true) gappedAg freeOk_gapped extentsFit_gapped (by decide)
      1 2 0).1.mpr (by decide)⟩

end

end Volume

end FioXfs
