import FioXfs.Alloc.Refusal
import FioXfs.Alloc.Sizes
set_option autoImplicit false

/-!
# Giving the old trees back

The group as it is when the blocks of the old trees are given back, said of the group itself:
each block joins the extents that touch it, and of the mappings those of the AGFL alone are the
AG's.  `giveBack` comes to it exactly when the blocks lie in the group and none of them is free.
-/

namespace FioXfs.Alloc

open FioXfs.Lib FioXfs.Btree

/-! ## One block more -/

/-- The length of the extent that ends at `b`, 0 when none does. -/
def lenBefore (free : OrdMap Nat Nat) (b : Nat) : Nat :=
  ((free.entries.find? fun e => e.1 + e.2 = b).map (·.2)).getD 0

/-- The length of the extent that starts at `b`, 0 when none does. -/
def lenFrom (free : OrdMap Nat Nat) (b : Nat) : Nat := (free.get? b).getD 0

/-- Block `b` put back: one extent with those that touch it. -/
def withBlock (free : OrdMap Nat Nat) (b : Nat) : OrdMap Nat Nat :=
  (free.filter fun e => e.1 + e.2 ≠ b ∧ e.1 ≠ b + 1).insert (b - lenBefore free b)
    (1 + lenBefore free b + lenFrom free (b + 1))

/-- The group with the old trees' blocks free, and with no mapping of the AG's or of the inode
trees' but those of the AGFL. -/
def handedBack (sb : Superblock) (ag : Ag) : Ag :=
  { ag with
    free := ag.oldTreeBlocks.foldl withBlock ag.free
    freeTotal := ag.freeTotal + ag.oldTreeBlocks.length
    rmap :=
      if sb.hasRmapbt then
        addRuns (ag.rmap.filter fun e => !treeOwner e.1.owner) OWN_AG (ag.agfl.map (·, 1))
      else ag.rmap.filter fun e => !treeOwner e.1.owner
    oldTreeBlocks := [] }

/-- Each old tree block lies in the group, is not free and is named once. -/
structure Returnable (ag : Ag) : Prop where
  nodup : ag.oldTreeBlocks.Nodup
  taken : ∀ b ∈ ag.oldTreeBlocks, b < ag.len ∧ freeAt ag.free b = 0

section
variable {sb : Superblock} {ag ag' base : Ag} {b : Nat}

theorem lenBefore_eq {f f1 : OrdMap Nat Nat} {j : Nat} (hf : FreeOk f) (h : DropsBefore f f1 b j) :
    lenBefore f b = j := by
  unfold lenBefore
  cases hfind : f.entries.find? fun e => e.1 + e.2 = b with
  | none =>
      rcases Nat.eq_zero_or_pos j with rfl | hj
      · rfl
      · have hend : ¬(b - j + j = b) := by simpa using List.find?_eq_none.mp hfind _ (h.mem hj)
        have := h.le
        omega
  | some e =>
      have hmem := List.mem_of_find?_eq_some hfind
      have hend : e.1 + e.2 = b := by simpa using List.find?_some hfind
      have hpos := hf.pos e hmem
      rcases Nat.eq_zero_or_pos j with rfl | hj
      · have := (h.below e hmem (by omega)).2 rfl
        omega
      · have hle := h.le
        have heq := @FreeOk.eq_of_common f hf e (b - j, j) hmem (h.mem hj) (b - 1)
          ⟨by omega, by omega⟩ ⟨by simp only; omega, by simp only; omega⟩
        rw [heq]
        rfl

theorem lenFrom_eq {f1 f2 : OrdMap Nat Nat} {lo k : Nat} (h : DropsAfter f1 f2 lo b k) :
    lenFrom f1 b = k := by
  unfold lenFrom
  cases hget : f1.get? b with
  | none =>
      rcases Nat.eq_zero_or_pos k with rfl | hk
      · rfl
      · exact absurd rfl (OrdMap.get?_eq_none.mp hget _ (h.mem hk))
  | some n =>
      have hmem := OrdMap.get?_eq_some.mp hget
      rcases Nat.eq_zero_or_pos k with rfl | hk
      · exact absurd rfl (h.clear rfl _ hmem)
      · exact congrArg Prod.snd (OrdMap.eq_of_fst_eq hmem (h.mem hk) rfl)

theorem freeExtent_one {u : Unit} (hf : FreeOk ag.free) (h : freeExtent b 1 ag = .ok u ag') :
    ag' = { ag with free := withBlock ag.free b, freeTotal := ag.freeTotal + 1, dirty := true } := by
  obtain ⟨-, -, j, f1, k, f2, hb, ha, rfl⟩ := freeExtent_drops hf h
  have hj := lenBefore_eq hf hb
  have hle := hb.le
  -- What is taken out before the block does not start after it.
  have hk : lenFrom ag.free (b + 1) = k := by
    rw [← lenFrom_eq ha]
    unfold lenFrom
    congr 1
    refine Option.ext fun n => ?_
    rw [OrdMap.get?_eq_some, OrdMap.get?_eq_some, hb.mem_iff]
    exact ⟨fun hmem => ⟨hmem, fun _ => by simp only; omega⟩, And.left⟩
  have hout : f2 = ag.free.filter fun e => e.1 + e.2 ≠ b ∧ e.1 ≠ b + 1 := by
    refine OrdMap.ext_mem fun e => ?_
    rw [ha.mem_iff, hb.mem_iff, OrdMap.mem_filter]
    simp only [ne_eq, decide_not, Bool.decide_and, Bool.and_eq_true, Bool.not_eq_true',
      decide_eq_false_iff_not, and_assoc]
    refine and_congr_right fun hmem => and_congr_left fun _ => ?_
    have hpos := hf.pos e hmem
    constructor
    · intro hne hend
      rcases Nat.eq_zero_or_pos j with rfl | hj'
      · have := (hb.below e hmem (by omega)).2 rfl
        omega
      · have heq := @FreeOk.eq_of_common ag.free hf e (b - j, j) hmem (hb.mem hj') (b - 1)
          ⟨by omega, by omega⟩ ⟨by simp only; omega, by simp only; omega⟩
        exact hne hj' (by rw [heq])
    · intro hend hj' heq
      have := OrdMap.eq_of_fst_eq hmem (hb.mem hj') heq
      rw [this] at hend
      simp only at hend
      omega
  unfold withBlock
  rw [hj, hk, hout]

theorem freeAll_eq {bs : List Nat} : ∀ {ag ag' : Ag} {u : Unit}, FreeOk ag.free →
    freeAll bs ag = .ok u ag' → ag'.free = bs.foldl withBlock ag.free ∧
      ag'.freeTotal = ag.freeTotal + bs.length ∧ SameButSpace ag ag' ∧ ag'.rmap = ag.rmap := by
  induction bs with
  | nil =>
      intro ag ag' u hf h
      simp only [freeAll, pure_apply, EStateM.Result.ok.injEq] at h
      obtain ⟨_, rfl⟩ := h
      exact ⟨rfl, rfl, .refl _, rfl⟩
  | cons b bs ih =>
      intro ag ag' u hf h
      obtain ⟨_, ag1, h1, h2⟩ := bind_eq_ok.mp h
      obtain ⟨-, -, free', hputs, heq⟩ := freeExtent_ok hf h1
      have hf1 : FreeOk ag1.free := heq ▸ hputs.freeOk
      obtain ⟨h3, h4, h5, h6⟩ := ih hf1 h2
      obtain rfl := freeExtent_one hf h1
      refine ⟨h3, ?_, ?_, h6⟩
      · rw [h4, List.length_cons]
        simp only
        omega
      · exact SameButSpace.trans (b := { ag with
          free := withBlock ag.free b, freeTotal := ag.freeTotal + 1, dirty := true }) rfl h5

/-- A list of blocks can be freed exactly when each lies in the group, none is free and none
comes twice. -/
theorem freeAll_succeeds_iff {bs : List Nat} : ∀ {ag : Ag}, SpaceOk ag → ag.len < 2 ^ 32 →
    ((∃ ag', freeAll bs ag = .ok () ag') ↔
      bs.Nodup ∧ ∀ b ∈ bs, b < ag.len ∧ freeAt ag.free b = 0) := by
  induction bs with
  | nil => exact fun _ _ => by simp [freeAll]
  | cons b bs ih =>
      intro ag hspace hlen
      have hcan := @freeExtent_succeeds_iff ag b 1 hspace.freeOk (hspace.extentsFit hlen)
      have hmeets : CanFree ag b 1 ↔ b < ag.len ∧ freeAt ag.free b = 0 := by
        unfold CanFree
        constructor
        · rintro ⟨-, hlt, hclear⟩
          refine ⟨by omega, ?_⟩
          by_contra hne
          obtain ⟨e, he, hbe⟩ := exists_of_freeAt_pos (Nat.pos_of_ne_zero hne)
          have := hclear e he
          omega
        · rintro ⟨hlt, hnone⟩
          refine ⟨Nat.one_pos, by omega, fun e he => ?_⟩
          by_contra hmeet
          have := freeAt_pos_of_mem he (b := b) (by omega)
          omega
      have hstep : ∀ {ag1}, freeExtent b 1 ag = .ok () ag1 →
          ((∃ ag', freeAll bs ag1 = .ok () ag') ↔
            bs.Nodup ∧ ∀ c ∈ bs, c < ag.len ∧ freeAt ag.free c + within b 1 c = 0) := by
        intro ag1 h1
        have hspace1 := hspace.freed h1
        obtain ⟨-, -, free', hputs, rfl⟩ := freeExtent_ok hspace.freeOk h1
        rw [ih hspace1 hlen]
        simp only [hputs.at_]
      constructor
      · rintro ⟨ag', h⟩
        obtain ⟨_, ag1, h1, h2⟩ := bind_eq_ok.mp h
        obtain ⟨hnodup, hall⟩ := (hstep h1).mp ⟨ag', h2⟩
        refine ⟨List.nodup_cons.mpr ⟨fun hb => ?_, hnodup⟩, fun c hc => ?_⟩
        · have := (hall b hb).2
          have := within_eq_one.mpr (show b ≤ b ∧ b < b + 1 by omega)
          omega
        · rcases List.mem_cons.mp hc with rfl | hc
          · exact hmeets.mp (hcan.mp ⟨ag1, h1⟩)
          · have := hall c hc
            exact ⟨this.1, by omega⟩
      · rintro ⟨hnodup, hall⟩
        obtain ⟨hb, hnodup⟩ := List.nodup_cons.mp hnodup
        obtain ⟨ag1, h1⟩ := hcan.mpr (hmeets.mpr (hall b List.mem_cons_self))
        obtain ⟨ag', h2⟩ := (hstep h1).mpr ⟨hnodup, fun c hc => by
          have hne : c ≠ b := fun h => hb (h ▸ hc)
          have := hall c (List.mem_cons_of_mem _ hc)
          refine ⟨this.1, ?_⟩
          unfold within
          split_ifs <;> omega⟩
        exact ⟨ag', bind_eq_ok.mpr ⟨(), ag1, h1, h2⟩⟩

/-! ## All of them -/

/-- The blocks can be given back exactly when they lie in the group and are not free. -/
theorem giveBack_succeeds_iff (h : SpaceOk ag) (hlen : ag.len < 2 ^ 32) :
    (∃ base, giveBack sb ag = .ok () base) ↔ Returnable ag := by
  have hiff := @freeAll_succeeds_iff ag.oldTreeBlocks { ag with oldTreeBlocks := [] }
    (h.of_same rfl rfl rfl) hlen
  constructor
  · rintro ⟨base, hgive⟩
    unfold giveBack at hgive
    simp only [get_bind_apply, set_bind_apply] at hgive
    obtain ⟨_, ag1, h1, -⟩ := bind_eq_ok.mp hgive
    obtain ⟨hnodup, htaken⟩ := hiff.mp ⟨ag1, h1⟩
    exact ⟨hnodup, htaken⟩
  · rintro ⟨hnodup, htaken⟩
    obtain ⟨ag1, h1⟩ := hiff.mpr ⟨hnodup, htaken⟩
    obtain ⟨base, h2, -⟩ := @rmapAddAll_eq sb OWN_AG (ag.agfl.map (·, 1))
      { ag1 with rmap := ag1.rmap.filter fun e => e.1.owner != OWN_AG && e.1.owner != OWN_INOBT }
    refine ⟨base, ?_⟩
    unfold giveBack
    simp only [get_bind_apply, set_bind_apply]
    rw [bind_of_ok h1, bind_of_ok (modify_apply _ _), h2]

/-- What `giveBack` comes to, but for the dirty flag. -/
theorem giveBack_eq {u : Unit} (hf : FreeOk ag.free) (h : giveBack sb ag = .ok u base) :
    handedBack sb ag = { base with dirty := ag.dirty } := by
  unfold giveBack at h
  simp only [get_bind_apply, set_bind_apply] at h
  obtain ⟨_, ag1, h1, h⟩ := bind_eq_ok.mp h
  rw [bind_of_ok (modify_apply _ _)] at h
  obtain ⟨hfree1, htotal1, hsame1, hrmap1⟩ := freeAll_eq (by exact hf) h1
  obtain ⟨base', h', -, hrmap⟩ := @rmapAddAll_eq sb OWN_AG (ag.agfl.map (·, 1))
    { ag1 with rmap := ag1.rmap.filter fun e => e.1.owner != OWN_AG && e.1.owner != OWN_INOBT }
  rw [h'] at h
  obtain rfl := (EStateM.Result.ok.inj h).2
  obtain ⟨hsame2, hfree2, htotal2⟩ := rmapAddAll_space h'
  rw [filter_treeOwner, hrmap1] at hrmap
  have hsame : SameButSpace { ag with oldTreeBlocks := [] } base' :=
    hsame1.trans (SameButSpace.trans (b := { ag1 with rmap := ag1.rmap.filter fun e =>
      e.1.owner != OWN_AG && e.1.owner != OWN_INOBT }) rfl hsame2)
  rw [hsame]
  simp only at hfree1 htotal1 hfree2 htotal2 hrmap
  unfold handedBack
  rw [hfree2, htotal2, hfree1, htotal1, hrmap]

/-- What the loop looks at is what was handed back. -/
theorem comes_handedBack {u : Unit} {p : Nat} (hf : FreeOk ag.free)
    (h : giveBack sb ag = .ok u base) : Comes sb (handedBack sb ag) p ↔ Comes sb base p := by
  rw [giveBack_eq hf h]
  rfl

end

end FioXfs.Alloc
