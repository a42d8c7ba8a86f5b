import FioXfs.Alloc.Reserve
import FioXfs.Write.Ledger
import FioXfs.Write.Symlink
set_option autoImplicit false

/-!
# Taking and giving back blocks

A volume that minds a ledger goes on minding it whatever comes of taking blocks and giving them
back: what is given was nobody's and can be put in the ledger, and what leaves the ledger can be
released.
-/

namespace FioXfs

open FioXfs.Lib FioXfs.Alloc FioXfs.Bmap

/-- A filesystem that can be written, whose numbers fit where they are kept. -/
structure Superblock.Fitting (sb : Superblock) : Prop where
  addressable : sb.Addressable
  isV5 : sb.isV5 = true
  inodes_le : sb.inodesPerBlock ≤ 64
  fsb_le : sb.agCount * 2 ^ sb.agblkLog ≤ 2 ^ 52
  align : sb.inodeAlign ≤ chunkBlocks sb ∨ chunkBlocks sb ∣ sb.inodeAlign
  agino_lt : sb.agblkLog + sb.inopbLog < 32

/-! ## Blocks of runs -/

section
variable {sb : Superblock} {k j s n b : Nat} {L : Ledger} {R R' : Set Nat} {r : Nat × Nat}
  {runs runs' : List (Nat × Nat)}

theorem covered_nil : covered [] = ∅ := by
  refine Set.eq_empty_of_forall_notMem fun x => ?_
  rintro ⟨r, hr, -⟩
  cases hr

theorem covered_append : covered (runs ++ runs') = covered runs ∪ covered runs' := by
  ext x
  constructor
  · rintro ⟨r, hr, hx⟩
    exact (List.mem_append.mp hr).imp (fun hr => ⟨r, hr, hx⟩) fun hr => ⟨r, hr, hx⟩
  · rintro (⟨r, hr, hx⟩ | ⟨r, hr, hx⟩)
    · exact ⟨r, List.mem_append_left _ hr, hx⟩
    · exact ⟨r, List.mem_append_right _ hr, hx⟩

theorem mem_covered_singleton {x : Nat} : x ∈ covered [r] ↔ r.1 ≤ x ∧ x < r.1 + r.2 := by
  constructor
  · rintro ⟨r', hr', hx⟩
    rwa [List.mem_singleton.mp hr'] at hx
  · exact fun hx => ⟨r, List.mem_singleton_self r, hx⟩

theorem covered_cons : covered (r :: runs) = covered [r] ∪ covered runs := @covered_append [r] runs

/-- A block is in a run of its own AG or in none. -/
theorem agbToFsb_mem_covered (h : sb.Addressable) (hk : k < sb.agCount) (hj : j < sb.agCount)
    (hb : b < sb.agBlocks) (hn : 0 < n) (hend : s + n ≤ sb.agBlocks) :
    sb.agbToFsb j b ∈ covered [(sb.agbToFsb k s, n)] ↔ j = k ∧ s ≤ b ∧ b < s + n := by
  have hle := h.sound.agBlocks_le
  have hwithin := @Volume.within_fsb sb k h.sound h.agCount_lt j b s n hk hj (hb.trans_le hle)
    (hend.trans hle) hn
  have hiff : sb.agbToFsb j b ∈ covered [(sb.agbToFsb k s, n)] ↔
      0 < within (sb.agbToFsb k s) n (sb.agbToFsb j b) := by
    rw [within_pos, mem_covered_singleton]
  rw [hiff, hwithin]
  by_cases hjk : j = k
  · rw [if_pos hjk, within_pos, and_iff_right hjk]
  · rw [if_neg hjk]
    exact ⟨fun h => absurd h (Nat.lt_irrefl 0), fun h => absurd h.1 hjk⟩

namespace Ledger

theorem withBlocks_nil (L : Ledger) : L.withBlocks (covered []) = L := by
  rw [covered_nil]
  exact Ledger.ext (Set.union_empty _) rfl

theorem withBlocks_withBlocks (L : Ledger) (R R' : Set Nat) :
    (L.withBlocks R).withBlocks R' = L.withBlocks (R ∪ R') :=
  Ledger.ext (Set.union_assoc _ _ _) rfl

theorem lacks_covered_nil (sb : Superblock) (L : Ledger) : L.Lacks sb (covered []) := by
  rw [covered_nil]
  exact ⟨fun _ h => (Set.notMem_empty _ h).elim, fun _ _ _ _ h => (Set.notMem_empty _ h).elim⟩

/-- Blocks that the ledger lacks, and others that it lacks with those in it. -/
theorem Lacks.union (h : L.Lacks sb R) (h' : (L.withBlocks R).Lacks sb R') : L.Lacks sb (R ∪ R') where
  blocks x hx hL := hx.elim (fun hx => h.blocks x hx hL) fun hx => h'.blocks x hx (Or.inl hL)
  inodes k hk b hb hx i hi hL :=
    hx.elim (fun hx => h.inodes k hk b hb hx i hi hL) fun hx => h'.inodes k hk b hb hx i hi hL

/-- No byte of such a block is named. -/
theorem Lacks.not_names (h : L.Lacks sb R) (hs : sb.Sound) {p : Nat} (hp : sb.byteAg p < sb.agCount)
    (hR : sb.byteFsb p ∈ R) : ¬L.Names sb p := by
  rintro (hL | hL)
  · exact h.blocks _ hR hL
  · exact h.inodes _ hp _ (Superblock.byteAgb_lt hs p) hR _ (Superblock.byteIndex_lt hs p) hL

end Ledger

end

namespace Volume

section
variable {v v' : Volume} {L L' : Ledger} {P : Nat → Prop} {k near : Nat} {ag ag' : Ag}
  {r : Nat × Nat} {runs : List (Nat × Nat)}

/-! ## Taking -/

/-- Runs just taken: each of one AG, none meeting another or what the ledger names. -/
structure Taken (sb : Superblock) (L : Ledger) (runs : List (Nat × Nat)) : Prop where
  inAg : ∀ r ∈ runs, InOneAg sb r
  apart : runs.Pairwise (Apart Prod.fst fun r => r.1 + r.2)
  lacks : L.Lacks sb (covered runs)

theorem taken_nil (sb : Superblock) (L : Ledger) : Taken sb L [] :=
  ⟨fun _ h => absurd h List.not_mem_nil, List.Pairwise.nil, Ledger.lacks_covered_nil sb L⟩

/-- Runs taken after others. -/
theorem Taken.append {sb : Superblock} {runs' : List (Nat × Nat)} (h : Taken sb L runs)
    (h' : Taken sb (L.withBlocks (covered runs)) runs') : Taken sb L (runs ++ runs') where
  inAg r hr := (List.mem_append.mp hr).elim (h.inAg r) (h'.inAg r)
  apart := by
    refine List.pairwise_append.mpr ⟨h.apart, h'.apart, fun r hr r' hr' => ?_⟩
    obtain ⟨_, _, _, _, _, _, hpos, _⟩ := h.inAg r hr
    obtain ⟨_, _, _, _, _, _, hpos', _⟩ := h'.inAg r' hr'
    by_contra hmeet
    simp only [Apart] at hmeet
    exact h'.lacks.blocks (max r.1 r'.1) ⟨r', hr', by omega⟩ (Or.inr ⟨r, hr, by omega⟩)
  lacks := by
    rw [covered_append]
    exact h.lacks.union h'.lacks

/-- A run of a group in memory is taken. -/
theorem kept_taken {s n : Nat} (h : v.Minds L) (hf : v.sb.Fitting) (hk : k < v.sb.agCount)
    (hag : v.ag? k = some ag) (hal : Allocated ag ag' s n) :
    Kept P (L.withBlocks (covered [(v.sb.agbToFsb k s, n)])) v (v.putAg k ag') ∧
      Taken v.sb L [(v.sb.agbToFsb k s, n)] := by
  have ha := hf.addressable
  have hm := h.of_ag? hk hag
  have hlen := (Superblock.agLen_le hm.agLen).1
  have hpos := hal.pos
  have hend : s + n ≤ ag.len :=
    (@Alloc.Minds.allocated _ _ _ _ _ L _ _ hm hal (fun _ _ hL => Or.inl hL) rfl).2.1
  have hmem : ∀ j < v.sb.agCount, ∀ b < v.sb.agBlocks,
      v.sb.agbToFsb j b ∈ covered [(v.sb.agbToFsb k s, n)] ↔ j = k ∧ s ≤ b ∧ b < s + n :=
    fun j hj b hb => agbToFsb_mem_covered ha hk hj hb hpos (hend.trans hlen)
  obtain ⟨hm', -, hout⟩ := @Alloc.Minds.allocated _ _ _ _ _
    (L.withBlocks (covered [(v.sb.agbToFsb k s, n)])) _ _ hm hal
    (fun b hb hL => hL.imp_right fun hx => ((hmem k hk b hb).mp hx).2) rfl
  have hfree : ∀ b, s ≤ b → b < s + n → 0 < freeAt ag.free b := by
    intro b hlo hhi
    obtain ⟨free', htakes, -⟩ := hal.takes
    have hat := htakes.at_ b
    rw [within_eq_one.mpr ⟨hlo, hhi⟩] at hat
    omega
  refine ⟨kept_putAg h ha hag hm' fun j hj hne => ⟨fun b hb hL => ?_, fun _ _ hL => hL⟩, ?_⟩
  · exact hL.resolve_right fun hx => hne ((hmem j hj b hb).mp hx).1
  · refine ⟨fun r hr => ?_, List.pairwise_singleton _ _, fun x hx hL => ?_, fun j hj b hb hx i hi => ?_⟩
    · obtain rfl := List.mem_singleton.mp hr
      exact ⟨k, hk, s, ag.len, rfl, hm.agLen, hpos, hend⟩
    · obtain ⟨hlo, hhi⟩ := mem_covered_singleton.mp hx
      simp only at hlo hhi
      have hx : x = v.sb.agbToFsb k (s + (x - v.sb.agbToFsb k s)) := by
        rw [ha.agbToFsb_eq hk (by omega)]
        rw [ha.agbToFsb_eq hk (by omega)] at hlo hhi ⊢
        omega
      rw [hx] at hL
      exact hout _ (by omega) (Nat.le_add_right _ _) (by omega) hL
    · obtain ⟨rfl, hlo, hhi⟩ := (hmem j hj b hb).mp hx
      exact (hm.clear_of_free ha hb (hfree b hlo hhi)).2 i hi

/-- What one try at taking a run leaves. -/
theorem alloc_leaves {want : Nat} (h : v.Minds L) (hf : v.sb.Fitting) (hk : k < v.sb.agCount)
    (hag : v.ag? k = some ag) (hwant : 0 < want) :
    Leaves (onAg k (alloc want near)) v (fun _ _ => False) fun found v' =>
      found = none ∧ Kept P L v v' ∨
      ∃ s n, found = some (s, n) ∧ n ≤ want ∧ (∃ ag', v'.ag? k = some ag') ∧
        Kept P (L.withBlocks (covered [(v.sb.agbToFsb k s, n)])) v v' ∧
        Taken v.sb L [(v.sb.agbToFsb k s, n)] := by
  have hm := h.of_ag? hk hag
  refine leaves_onAg hag ?_
  rcases Nat.eq_zero_or_pos ag.spare with hnone | hspare
  · exact leaves_of_ok (alloc_of_no_spare hnone) (Or.inl ⟨rfl, kept_putAg_same h hf.addressable hag hm⟩)
  · obtain ⟨s, n, ag', hrun⟩ := @alloc_of_spare ag want near hm.kept.space.freeOk hm.kept.space.total
      hspare hwant
    obtain ⟨hal, hle⟩ := alloc_ok hm.kept.space.freeOk hrun
    obtain ⟨hkept, htaken⟩ := @kept_taken v L P k ag ag' s n h hf hk hag hal
    exact leaves_of_ok hrun (Or.inr ⟨s, n, rfl, hle, ⟨ag', ag?_putAg_self hag⟩, hkept, htaken⟩)

/-- Runs taken for `want` blocks, with the count of those still wanted. -/
structure Gives (P : Nat → Prop) (L : Ledger) (want : Nat) (v : Volume) (got : List (Nat × Nat) × Nat)
    (v' : Volume) : Prop where
  kept : Kept P (L.withBlocks (covered got.1)) v v'
  taken : Taken v.sb L got.1
  short : ∀ r ∈ got.1, r.2 ≤ MAX_EXTENT
  total : (got.1.map (·.2)).sum + got.2 = want

theorem gives_none (h : v.Minds L) (want : Nat) : Gives P L want v ([], want) v where
  kept := by
    rw [Ledger.withBlocks_nil]
    exact h.kept
  taken := taken_nil v.sb L
  short _ h := absurd h List.not_mem_nil
  total := Nat.zero_add want

/-- Some runs and then others. -/
theorem Gives.append {want left left' : Nat} {v'' : Volume} {more : List (Nat × Nat)}
    (h : Gives P L want v (runs, left) v')
    (h' : Gives P (L.withBlocks (covered runs)) left v' (more, left') v'') :
    Gives P L want v (runs ++ more, left') v'' where
  kept := by
    have hkept := h'.kept
    rw [Ledger.withBlocks_withBlocks, ← covered_append] at hkept
    exact h.kept.trans hkept
  taken := h.taken.append (h.kept.sb ▸ h'.taken)
  short r hr := (List.mem_append.mp hr).elim (h.short r) (h'.short r)
  total := by
    have htotal := h.total
    have htotal' := h'.total
    simp only [List.map_append, List.sum_append] at htotal htotal' ⊢
    omega

/-- Runs of one group. -/
theorem allocFrom_leaves {fuel : Nat} : ∀ {left : Nat} {L : Ledger} {v : Volume} {ag : Ag},
    left ≤ fuel → v.Minds L → v.sb.Fitting → k < v.sb.agCount → v.ag? k = some ag →
      Leaves (allocFrom k near fuel left) v (fun _ v' => Kept P L v v') (Gives P L left v) := by
  induction fuel with
  | zero =>
    intro left L v ag hfuel h _ _ _
    obtain rfl : left = 0 := by omega
    exact leaves_of_ok rfl (gives_none h 0)
  | succ fuel ih =>
    intro left L v ag hfuel h hf hk hag
    cases left with
    | zero => exact leaves_of_ok rfl (gives_none h 0)
    | succ left =>
      unfold allocFrom
      have hone := @alloc_leaves v L P k near ag (min (left + 1) MAX_EXTENT) h hf hk hag
        (by unfold MAX_EXTENT; omega)
      refine (hone.mono (fun _ _ hno => hno.elim) fun _ _ => id).bind fun found v1 hfound => ?_
      rcases hfound with ⟨rfl, hkept⟩ | ⟨s, n, rfl, hle, ⟨ag1, hag1⟩, hkept, htaken⟩
      · have hnone := @gives_none v1 L P hkept.minds (left + 1)
        exact leaves_pure ⟨hkept.trans hnone.kept, taken_nil v.sb L, hnone.short, hnone.total⟩
      · refine leaves_get_bind ?_
        have hpos : 1 ≤ n := by
          obtain ⟨_, _, _, _, _, _, hpos, _⟩ := htaken.inAg _ List.mem_cons_self
          exact hpos
        have hle' : n ≤ left + 1 := hle.trans (Nat.min_le_left _ _)
        have hfirst : Gives P L (left + 1) v ([(v.sb.agbToFsb k s, n)], left + 1 - n) v1 :=
          ⟨hkept, htaken, List.forall_mem_singleton.mpr (hle.trans (Nat.min_le_right _ _)),
            by simp only [List.map_cons, List.map_nil, List.sum_cons, List.sum_nil]; omega⟩
        have hrest := @ih (left + 1 - n) _ v1 ag1 (by omega) hkept.minds (hkept.sb ▸ hf)
          (hkept.sb ▸ hk) hag1
        refine (hrest.mono (fun _ v2 h2 => ?_) fun _ _ => id).bind fun got v2 hgot => ?_
        · exact (hkept.trans h2).mono hf.addressable (Ledger.le_withBlocks _ _)
        · rw [hkept.sb]
          exact leaves_pure (hfirst.append hgot)

/-- Runs of one group after another. -/
theorem allocAcross_leaves {pref : Nat} {agnos : List Nat} : ∀ {left : Nat} {L : Ledger} {v : Volume},
    v.Minds L → v.sb.Fitting → (∀ k ∈ agnos, k < v.sb.agCount) →
      Leaves (allocAcross pref near agnos left) v (fun _ v' => Kept P L v v') (Gives P L left v) := by
  induction agnos with
  | nil =>
    intro left L v h _ _
    exact leaves_pure (gives_none h left)
  | cons k agnos ih =>
    intro left L v h hf hlt
    have hk := hlt k List.mem_cons_self
    unfold allocAcross
    by_cases hleft : left = 0
    · rw [if_pos hleft, hleft]
      exact leaves_pure (gives_none h 0)
    · rw [if_neg hleft]
      refine (@loadAg_leaves v L P k h hk).bind fun _ v1 hloaded => ?_
      obtain ⟨hkept, ag, hag⟩ := hloaded
      have hone := @allocFrom_leaves P k (if k = pref then near else 0) left left L v1 ag (Nat.le_refl _)
        hkept.minds (hkept.sb ▸ hf) (hkept.sb ▸ hk) hag
      refine (hone.mono (fun _ v2 h2 => hkept.trans h2) fun _ _ => id).bind fun got v2 hgot => ?_
      have hfirst : Gives P L left v got v2 :=
        ⟨hkept.trans hgot.kept, hkept.sb ▸ hgot.taken, hgot.short, hgot.total⟩
      have hrest := @ih got.2 _ v2 hgot.kept.minds (hfirst.kept.sb ▸ hf)
        fun j hj => hfirst.kept.sb ▸ hlt j (List.mem_cons_of_mem _ hj)
      refine (hrest.mono (fun _ v3 h3 => ?_) fun _ _ => id).bind fun more v3 hmore => ?_
      · exact (hfirst.kept.trans h3).mono hf.addressable (Ledger.le_withBlocks _ _)
      · exact leaves_pure (hfirst.append hmore)

/-! ## Giving back -/

/-- A group that is not in memory is not changed. -/
theorem onAg_absent {α : Type} {x : Act Ag α} (h : v.ag? k = none) :
    ∃ e, onAg k x v = .error e v := by
  cases hw : v.w with
  | none =>
    unfold onAg getWriter
    simp only [get_bind_apply, bind_assoc, hw]
    exact ⟨_, rfl⟩
  | some w =>
    have hget : w.ags.get? k = none := by
      unfold ag? at h
      rwa [hw] at h
    unfold onAg
    rw [bind_of_ok (getWriter_apply hw)]
    simp only [hget]
    exact ⟨_, rfl⟩

/-- A run that leaves the ledger is freed. -/
theorem freeRun_leaves {s n : Nat} (h : v.Minds L') (hf : v.sb.Fitting) (hk : k < v.sb.agCount)
    (hn : 0 < n) (hend : s + n ≤ v.sb.agBlocks) (hle : L ≤ L')
    (hin : covered [(v.sb.agbToFsb k s, n)] ⊆ L'.blocks)
    (hout : ∀ x ∈ covered [(v.sb.agbToFsb k s, n)], x ∉ L.blocks) :
    Leaves (onAg k (freeExtent s n)) v (fun _ v' => Kept P L v v') fun _ v' => Kept P L v v' := by
  have ha := hf.addressable
  cases hag : v.ag? k with
  | none =>
    obtain ⟨e, hrun⟩ := @onAg_absent v k Unit (freeExtent s n) hag
    exact leaves_of_error hrun (h.kept.mono ha hle)
  | some ag =>
    have hmem : ∀ b, s ≤ b → b < s + n → v.sb.agbToFsb k b ∈ covered [(v.sb.agbToFsb k s, n)] :=
      fun b hlo hhi => (agbToFsb_mem_covered ha hk hk (by omega) hn hend).mpr ⟨rfl, hlo, hhi⟩
    obtain ⟨ag', hrun, hm⟩ := (h.of_ag? hk hag).freed ha.sound hn hend
      (fun b hlo hhi => hin (hmem b hlo hhi)) (.of_le hle) fun b hlo hhi => hout _ (hmem b hlo hhi)
    exact leaves_onAg hag (leaves_of_ok hrun (kept_putAg h ha hag hm fun _ _ _ => .of_le hle))

/-- Mappings are not minded. -/
theorem kept_onAg_rmap {x : Act Ag Unit} (h : v.Minds L) (hf : v.sb.Fitting) (hk : k < v.sb.agCount)
    (hok : ∀ ag ag', x ag = .ok () ag' → ag' = { ag with rmap := ag'.rmap, dirty := ag'.dirty })
    (herr : ∀ e ag ag', x ag = .error e ag' → ag' = { ag with rmap := ag'.rmap }) :
    Leaves (onAg k x) v (fun _ v' => Kept P L v v') fun _ v' => Kept P L v v' := by
  cases hag : v.ag? k with
  | none =>
    obtain ⟨e, hrun⟩ := @onAg_absent v k Unit x hag
    exact leaves_of_error hrun h.kept
  | some ag =>
    have hm := h.of_ag? hk hag
    refine leaves_onAg hag (leaves_iff.mpr ⟨fun _ ag' hrun => ?_, fun e ag' hrun => ?_⟩)
    · refine kept_putAg_same h hf.addressable hag ?_
      rw [hok ag ag' hrun]
      exact hm.of_same rfl rfl rfl rfl rfl
    · refine kept_putAg_same h hf.addressable hag ?_
      rw [herr e ag ag' hrun]
      exact hm.of_same rfl rfl rfl rfl rfl

theorem rmapExtent_leaves {fsb len owner offset : Nat} (h : v.Minds L) (hf : v.sb.Fitting)
    (hk : (v.sb.fsbToAgb fsb).1 < v.sb.agCount) :
    Leaves (rmapExtent fsb len owner offset) v (fun _ v' => Kept P L v v') fun _ v' => Kept P L v v' := by
  unfold rmapExtent
  refine leaves_get_bind (kept_onAg_rmap h hf hk (fun _ _ => rmapAdd_same) fun e ag ag' hrun => ?_)
  unfold rmapAdd at hrun
  split at hrun <;> cases hrun

/-- The group of a run. -/
theorem InOneAg.fsbToAgb {sb : Superblock} (hf : sb.Fitting) (h : InOneAg sb r) :
    ∃ k < sb.agCount, ∃ s, r.1 = sb.agbToFsb k s ∧ sb.fsbToAgb r.1 = (k, s) ∧ 0 < r.2 ∧
      s + r.2 ≤ sb.agBlocks := by
  obtain ⟨k, hk, s, len, hat, hlen, hpos, hend⟩ := h
  have hle := (Superblock.agLen_le hlen).1
  refine ⟨k, hk, s, hat, ?_, hpos, hend.trans hle⟩
  rw [hat]
  exact hf.addressable.sound.fsbToAgb_agbToFsb (hk.trans hf.addressable.agCount_lt)
    (hf.addressable.agbno_lt (by omega))

/-- Runs that leave a ledger: `L` is part of it and names none of their blocks. -/
structure Leaving (sb : Superblock) (L L' : Ledger) (runs : List (Nat × Nat)) : Prop where
  inAg : ∀ r ∈ runs, InOneAg sb r
  apart : runs.Pairwise (Apart Prod.fst fun r => r.1 + r.2)
  le : L ≤ L'
  within : covered runs ⊆ L'.blocks
  out : ∀ x ∈ covered runs, x ∉ L.blocks

/-- Some of them leave, and then the others. -/
theorem Leaving.append {sb : Superblock} {runs' : List (Nat × Nat)} (h : Leaving sb L L' (runs ++ runs')) :
    Leaving sb (L.withBlocks (covered runs')) L' runs ∧
      Leaving sb L (L.withBlocks (covered runs')) runs' := by
  obtain ⟨hfirst, hsecond, hbetween⟩ := List.pairwise_append.mp h.apart
  have hsub : covered runs ⊆ covered (runs ++ runs') := covered_append ▸ Set.subset_union_left
  have hsub' : covered runs' ⊆ covered (runs ++ runs') := covered_append ▸ Set.subset_union_right
  refine ⟨⟨fun r hr => h.inAg r (List.mem_append_left _ hr), hfirst, ⟨?_, h.le.2⟩, hsub.trans h.within,
    fun x hx hL => ?_⟩, ⟨fun r hr => h.inAg r (List.mem_append_right _ hr), hsecond,
      Ledger.le_withBlocks _ _, Set.subset_union_right, fun x hx => h.out x (hsub' hx)⟩⟩
  · exact Set.union_subset h.le.1 (hsub'.trans h.within)
  · rcases hL with hL | ⟨r', hr', hin'⟩
    · exact h.out x (hsub hx) hL
    · obtain ⟨r, hr, hin⟩ := hx
      have hmeet := hbetween r hr r' hr'
      simp only [Apart] at hmeet
      omega

/-- The first of them leaves, and then the others. -/
theorem Leaving.cons {sb : Superblock} (h : Leaving sb L L' (r :: runs)) :
    Leaving sb (L.withBlocks (covered runs)) L' [r] ∧
      Leaving sb L (L.withBlocks (covered runs)) runs := @Leaving.append L L' [r] sb runs h

theorem undoAlloc_leaves {runs : List (Nat × Nat)} : ∀ {L' : Ledger} {v : Volume}, v.Minds L' →
    v.sb.Fitting → Leaving v.sb L L' runs →
      Leaves (undoAlloc runs) v (fun _ v' => Kept P L v v') fun _ v' => Kept P L v v' := by
  induction runs with
  | nil =>
    intro L' v h hf hl
    exact leaves_pure (h.kept.mono hf.addressable hl.le)
  | cons r runs ih =>
    intro L' v h hf hl
    obtain ⟨hone, hrest⟩ := hl.cons
    obtain ⟨k, hk, s, hat, hagb, hpos, hend⟩ := (hone.inAg r List.mem_cons_self).fsbToAgb hf
    obtain ⟨fsb, len⟩ := r
    unfold undoAlloc
    refine leaves_get_bind ?_
    simp only at hat hagb hpos hend
    subst hat
    rw [hagb]
    have hfree := @freeRun_leaves v _ L' P k s len h hf hk hpos hend hone.le hone.within hone.out
    refine (hfree.mono (fun _ v1 h1 => ?_) fun _ _ => id).bind fun _ v1 h1 => ?_
    · exact h1.mono hf.addressable hrest.le
    · exact (ih h1.minds (h1.sb ▸ hf) (h1.sb ▸ hrest)).mono (fun _ v2 h2 => h1.trans h2)
        fun _ v2 h2 => h1.trans h2

/-- A run is released. -/
theorem release_leaves {fsb len owner : Nat} (h : v.Minds L') (hf : v.sb.Fitting)
    (hl : Leaving v.sb L L' [(fsb, len)]) :
    Leaves (release fsb len owner) v (fun _ v' => Kept P L v v') fun _ v' => Kept P L v v' := by
  obtain ⟨k, hk, s, hat, hagb, hpos, hend⟩ := (hl.inAg _ List.mem_cons_self).fsbToAgb hf
  simp only at hat hagb hpos hend
  subst hat
  unfold release
  refine leaves_get_bind ?_
  rw [hagb]
  refine ((@loadAg_leaves v L' P k h hk).mono (fun _ v1 h1 => ?_) fun _ _ => id).bind
    fun _ v1 hloaded => ?_
  · exact h1.mono hf.addressable hl.le
  obtain ⟨h1, -⟩ := hloaded
  have hf1 := h1.sb ▸ hf
  have hfree := @freeRun_leaves v1 L L' P k s len h1.minds hf1 (h1.sb ▸ hk) hpos (h1.sb ▸ hend) hl.le
    (h1.sb ▸ hl.within) (h1.sb ▸ hl.out)
  refine (hfree.mono (fun _ v2 h2 => h1.trans h2) fun _ _ => id).bind fun _ v2 h2 => ?_
  have hrm := @kept_onAg_rmap v2 L P k (rmapRemove v.sb s len owner) h2.minds (h2.sb ▸ hf1)
    (h2.sb ▸ h1.sb ▸ hk) (fun _ _ => rmapRemove_same) fun _ _ _ => rmapRemove_error_same
  exact hrm.mono (fun _ v3 h3 => (h1.trans h2).trans h3) fun _ v3 h3 => (h1.trans h2).trans h3

/-- Runs that leave the ledger are released, as far as it goes. -/
theorem releaseAll_leaves {owner : Nat} {runs : List (Nat × Nat)} : ∀ {L' : Ledger} {v : Volume},
    v.Minds L' → v.sb.Fitting → Leaving v.sb L L' runs →
      Leaves (releaseAll owner runs) v (fun _ v' => Kept P L v v') fun _ v' => Kept P L v v' := by
  induction runs with
  | nil =>
    intro L' v h hf hl
    exact leaves_pure (h.kept.mono hf.addressable hl.le)
  | cons r runs ih =>
    intro L' v h hf hl
    obtain ⟨hone, hrest⟩ := hl.cons
    obtain ⟨fsb, len⟩ := r
    unfold releaseAll
    refine ((@release_leaves v _ L' P fsb len owner h hf hone).mono (fun _ v1 h1 => ?_)
      fun _ _ => id).bind fun _ v1 h1 => ?_
    · exact h1.mono hf.addressable hrest.le
    · exact (ih h1.minds (h1.sb ▸ hf) (h1.sb ▸ hrest)).mono (fun _ v2 h2 => h1.trans h2)
        fun _ v2 h2 => h1.trans h2

/-! ## For all the blocks wanted -/

/-- What `n` blocks that are given leave. -/
structure Gave (P : Nat → Prop) (L : Ledger) (n : Nat) (v : Volume) (runs : List (Nat × Nat))
    (v' : Volume) : Prop where
  kept : Kept P (L.withBlocks (covered runs)) v v'
  taken : Taken v.sb L runs
  short : ∀ r ∈ runs, r.2 ≤ MAX_EXTENT
  total : (runs.map (·.2)).sum = n

theorem Taken.leaving {sb : Superblock} (h : Taken sb L runs) :
    Leaving sb L (L.withBlocks (covered runs)) runs :=
  ⟨h.inAg, h.apart, Ledger.le_withBlocks _ _, Set.subset_union_right, h.lacks.blocks⟩

theorem Gave.granted {n : Nat} (h : Gave P L n v runs v') : Granted v.sb runs n :=
  ⟨h.total, h.taken.inAg, h.taken.apart⟩

/-- Blocks are given, or the ledger is minded as it was. -/
theorem allocBlocks_leaves {pref n : Nat} (h : v.Minds L) (hf : v.sb.Fitting) :
    Leaves (allocBlocks pref n near) v (fun _ v' => Kept P L v v') (Gave P L n v) := by
  have ha := hf.addressable
  unfold allocBlocks
  refine leaves_get_bind (Leaves.bind (leaves_liftE (Q := fun agnos v' => agOrder v.sb pref = .ok agnos ∧ v' = v)
    (fun _ _ => h.kept) fun agnos hagnos => ⟨hagnos, rfl⟩) fun agnos v1 hord => ?_)
  obtain ⟨hord, rfl⟩ := hord
  refine (@allocAcross_leaves P near pref agnos n L v1 h hf fun k hk => mem_agOrder ha.sound.agCount_pos hord hk).bind
    fun got v2 hgot => ?_
  obtain ⟨runs, left⟩ := got
  have hsb := hgot.kept.sb
  by_cases hleft : 0 < left
  · simp only [if_pos hleft]
    have hundo := @undoAlloc_leaves L P runs _ v2 hgot.kept.minds (hsb ▸ hf) (hsb ▸ hgot.taken.leaving)
    refine (hundo.mono (fun _ v3 h3 => hgot.kept.trans h3) fun _ _ => id).bind fun _ v3 h3 => ?_
    exact leaves_throw (hgot.kept.trans h3)
  · simp only [if_neg hleft]
    have htotal := hgot.total
    simp only at htotal
    exact leaves_pure ⟨hgot.kept, hgot.taken, hgot.short, by omega⟩

/-- Recording who has the runs changes nothing else. -/
theorem recordRuns_leaves {ino : Nat} {runs : List (Nat × Nat)} : ∀ {lblk : Nat} {v : Volume},
    v.Minds L → v.sb.Fitting → (∀ r ∈ runs, InOneAg v.sb r) →
      Leaves (recordRuns ino lblk runs) v (fun _ v' => Kept P L v v') fun es v' =>
        Kept P L v v' ∧ es = extentsFrom lblk runs := by
  induction runs with
  | nil =>
    intro lblk v h _ _
    exact leaves_pure ⟨h.kept, rfl⟩
  | cons r runs ih =>
    intro lblk v h hf hin
    obtain ⟨k, hk, s, -, hagb, -, -⟩ := (hin r List.mem_cons_self).fsbToAgb hf
    obtain ⟨fsb, len⟩ := r
    unfold recordRuns
    have hone := @rmapExtent_leaves v L P fsb len ino lblk h hf (by rw [hagb]; exact hk)
    refine hone.bind fun _ v1 h1 => ?_
    have hrest := @ih (lblk + len) v1 h1.minds (h1.sb ▸ hf)
      fun r hr => h1.sb ▸ hin r (List.mem_cons_of_mem _ hr)
    refine (hrest.mono (fun _ v2 h2 => h1.trans h2) fun _ _ => id).bind fun es v2 h2 => ?_
    exact leaves_pure ⟨h1.trans h2.1, by rw [h2.2]; rfl⟩

theorem recordBmbt_leaves {ino : Nat} {runs : List (Nat × Nat)} : ∀ {v : Volume}, v.Minds L →
    v.sb.Fitting → (∀ r ∈ runs, InOneAg v.sb r) →
      Leaves (recordBmbt ino runs) v (fun _ v' => Kept P L v v') fun _ v' => Kept P L v v' := by
  induction runs with
  | nil =>
    intro v h _ _
    exact leaves_pure h.kept
  | cons r runs ih =>
    intro v h hf hin
    obtain ⟨k, hk, s, -, hagb, -, -⟩ := (hin r List.mem_cons_self).fsbToAgb hf
    obtain ⟨fsb, len⟩ := r
    unfold recordBmbt
    have hone := @rmapExtent_leaves v L P fsb len ino RMAP_BMBT h hf (by rw [hagb]; exact hk)
    refine hone.bind fun _ v1 h1 => ?_
    exact (ih h1.minds (h1.sb ▸ hf) fun r hr => h1.sb ▸ hin r (List.mem_cons_of_mem _ hr)).mono
      (fun _ v2 h2 => h1.trans h2) fun _ v2 h2 => h1.trans h2

end

end Volume

end FioXfs
