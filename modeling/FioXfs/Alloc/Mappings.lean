import FioXfs.Alloc.Space
set_option autoImplicit false

/-!
# What the reverse-mapping operations do

As for free space, by counting: how many mappings hold each block, and how many of
those belong to owners with a given property.  Adding a mapping of an unmapped run
adds that run to the count; removing an owner's run takes exactly that run away,
however many records it is cut out of.
-/

namespace FioXfs.Alloc

open FioXfs.Lib FioXfs.Btree Finset

/-! ## Counting mappings -/

/-- How many reverse mappings whose owner passes `q` hold block `b`. -/
def mappedAt (q : Nat → Bool) (rmap : OrdSet Rmap) (b : Nat) : Nat :=
  rmap.weight fun e => if q e.1.owner then within e.1.start e.1.len b else 0

/-- Any owner. -/
def anyone : Nat → Bool := fun _ => true

@[simp] theorem anyone_apply (owner : Nat) : anyone owner = true := rfl

/-- A set of mappings with no empty one and no block in two. -/
structure RmapOk (rmap : OrdSet Rmap) : Prop where
  pos : ∀ e ∈ rmap.entries, 0 < e.1.len
  once : ∀ b, mappedAt anyone rmap b ≤ 1

section
variable {rmap : OrdSet Rmap}

theorem mappedAt_insert {r : Rmap} (q : Nat → Bool) (h : ∀ x ∈ rmap.entries, x.1 ≠ r) (b : Nat) :
    mappedAt q (rmap.insert r ()) b =
      (if q r.owner then within r.start r.len b else 0) + mappedAt q rmap b :=
  OrdMap.weight_insert _ h

theorem mappedAt_erase {r : Rmap} (q : Nat → Bool) (h : (r, ()) ∈ rmap.entries) (b : Nat) :
    mappedAt q rmap b =
      (if q r.owner then within r.start r.len b else 0) + mappedAt q (rmap.erase r) b :=
  OrdMap.weight_erase _ h

/-- A record that would hold an unmapped block is not there yet. -/
theorem fresh_of_unmapped {r : Rmap} {b : Nat} (hb : r.start ≤ b ∧ b < r.start + r.len)
    (h : mappedAt anyone rmap b = 0) : ∀ x ∈ rmap.entries, x.1 ≠ r := by
  rintro x hx rfl
  have := OrdMap.le_weight (fun e => if anyone e.1.owner then within e.1.start e.1.len b else 0) hx
  have hw := within_eq_one.mpr hb
  simp only [anyone_apply, if_true, hw] at this
  unfold mappedAt at h
  simp only [anyone_apply, if_true] at h
  omega

theorem mem_of_mem_insert {r x : Rmap} (h : (x, ()) ∈ rmap.entries) :
    (x, ()) ∈ (rmap.insert r ()).entries := by
  rw [OrdMap.mem_insert]
  by_cases hx : x = r
  · exact Or.inl (by rw [hx])
  · exact Or.inr ⟨h, hx⟩

end

/-! ## Adding -/

/-- Adding a mapping of an unmapped run. -/
theorem rmapAdd_run {rmap : OrdSet Rmap} (h : RmapOk rmap) {r : Rmap} (hpos : 0 < r.len)
    (hfree : ∀ b, 0 < within r.start r.len b → mappedAt anyone rmap b = 0) :
    RmapOk (rmap.insert r ()) ∧ ∀ q b, mappedAt q (rmap.insert r ()) b =
      mappedAt q rmap b + if q r.owner then within r.start r.len b else 0 := by
  have hfresh : ∀ x ∈ rmap.entries, x.1 ≠ r :=
    fresh_of_unmapped (b := r.start) ⟨le_refl _, by omega⟩
      (hfree _ (within_pos.mpr ⟨le_refl _, by omega⟩))
  refine ⟨⟨?_, ?_⟩, fun q b => by rw [mappedAt_insert q hfresh, Nat.add_comm]⟩
  · intro x hx
    rcases OrdMap.mem_insert.mp hx with rfl | ⟨hx, _⟩
    · exact hpos
    · exact h.pos x hx
  · intro b
    rw [mappedAt_insert anyone hfresh]
    have := within_le_one r.start r.len b
    simp only [anyone_apply, if_true]
    rcases Nat.eq_zero_or_pos (within r.start r.len b) with h0 | hp
    · have := h.once b
      omega
    · have := hfree b hp
      omega

/-! ## Removing -/

/-- What cutting `owner`'s records leaves: the blocks in `cut` are no longer mapped,
and nothing else has changed. -/
structure Cuts (rmap rmap' : OrdSet Rmap) (start stop owner : Nat) (cut : Nat → Nat) : Prop where
  pos : ∀ e ∈ rmap'.entries, 0 < e.1.len
  at_ : ∀ q b, mappedAt q rmap' b + (if q owner then cut b else 0) = mappedAt q rmap b
  inside : ∀ b, 0 < cut b → start ≤ b ∧ b < stop

theorem Cuts.rmapOk {rmap rmap' : OrdSet Rmap} {start stop owner : Nat} {cut : Nat → Nat}
    (h : Cuts rmap rmap' start stop owner cut) (hr : RmapOk rmap) : RmapOk rmap' :=
  ⟨h.pos, fun b => by have := h.at_ anyone b; have := hr.once b; omega⟩

/-- One record cut. -/
theorem cutRmap_ok {acc : OrdSet Rmap × Nat} {start stop owner : Nat} {r : Rmap}
    (hr : RmapOk acc.1) (hlt : start < stop) (hmem : (r, ()) ∈ acc.1.entries) :
    ∃ cut, Cuts acc.1 (cutRmap start stop owner acc r).1 start stop owner cut ∧
      (cutRmap start stop owner acc r).2 = acc.2 + ∑ b ∈ range stop, cut b ∧
      ∀ x, (x, ()) ∈ acc.1.entries → x ≠ r →
        (x, ()) ∈ (cutRmap start stop owner acc r).1.entries := by
  unfold cutRmap
  split
  · exact ⟨fun _ => 0, ⟨hr.pos, fun q b => by simp, fun b hb => by simp at hb⟩, by simp,
      fun x hx _ => hx⟩
  · rename_i hcut
    obtain ⟨hown, hcut⟩ := not_or.mp hcut
    obtain ⟨hstop, hstart⟩ := not_or.mp hcut
    simp only [ne_eq, not_not, not_le, Rmap.stop] at hown hstop hstart
    have hlen := hr.pos _ hmem
    simp only at hlen
    -- The pieces are new records: the cut record alone held their first blocks.
    have hgone : ∀ b, r.start ≤ b ∧ b < r.start + r.len → mappedAt anyone (acc.1.erase r) b = 0 := by
      intro b hb
      have h1 := mappedAt_erase anyone hmem b
      rw [within_eq_one.mpr hb] at h1
      have h2 := hr.once b
      simp only [anyone_apply, if_true] at h1
      omega
    dsimp only
    generalize hS : max r.start start = cutS
    generalize hE : min r.stop stop = cutE
    simp only [Rmap.stop] at hE
    have hSE : cutS < cutE ∧ r.start ≤ cutS ∧ cutE ≤ r.start + r.len ∧ start ≤ cutS ∧
        cutE ≤ stop := by omega
    obtain ⟨hSE, hS1, hE1, hS2, hE2⟩ := hSE
    generalize hs1 : acc.1.erase r = s1 at hgone ⊢
    have hpos1 : ∀ e ∈ s1.entries, 0 < e.1.len := fun e he =>
      hr.pos e (OrdMap.mem_erase.mp (hs1 ▸ he)).1
    have hok1 : RmapOk s1 := ⟨hpos1, fun b => by
      have h1 := mappedAt_erase anyone hmem b
      have h2 := hr.once b
      rw [hs1] at h1
      omega⟩
    -- The left piece.
    generalize hs2 : (if r.start < cutS then
      s1.insert ⟨r.start, owner, r.offset, cutS - r.start⟩ () else s1) = s2
    have h2 : RmapOk s2 ∧ ∀ q b, mappedAt q s2 b =
        mappedAt q s1 b + if q owner then within r.start (cutS - r.start) b else 0 := by
      split at hs2
      · subst hs2
        refine rmapAdd_run hok1 (by simp only; omega) fun b hb => hgone b ?_
        rw [within_pos] at hb
        simp only at hb
        omega
      · subst hs2
        refine ⟨hok1, fun q b => ?_⟩
        rw [show cutS - r.start = 0 by omega]
        simp
    -- The right piece.
    generalize hs3 : (if cutE < r.stop then
      s2.insert ⟨cutE, owner, shiftOffset r (cutE - r.start), r.stop - cutE⟩ () else s2) = s3
    have hend : r.stop = r.start + r.len := rfl
    have h3 : RmapOk s3 ∧ ∀ q b, mappedAt q s3 b =
        mappedAt q s2 b + if q owner then within cutE (r.start + r.len - cutE) b else 0 := by
      split at hs3
      · subst hs3
        refine rmapAdd_run h2.1 (by simp only; omega) fun b hb => ?_
        rw [within_pos] at hb
        simp only at hb
        rw [h2.2, hgone b (by omega)]
        have : within r.start (cutS - r.start) b = 0 := within_eq_zero.mpr (by omega)
        simp [this]
      · subst hs3
        refine ⟨h2.1, fun q b => ?_⟩
        rw [show r.start + r.len - cutE = 0 by omega]
        simp
    refine ⟨within cutS (cutE - cutS), ⟨h3.1.pos, ?_, ?_⟩, ?_, ?_⟩
    · intro q b
      rw [h3.2, h2.2, mappedAt_erase q hmem, hs1, hown]
      by_cases hq : q owner = true
      · simp only [hq, if_true]
        unfold within
        split_ifs <;> omega
      · simp [hq]
    · intro b hb
      rw [within_pos] at hb
      omega
    · rw [sum_within (by omega)]
    · intro x hx hne
      have hx1 : (x, ()) ∈ s1.entries := hs1 ▸ OrdMap.mem_erase.mpr ⟨hx, hne⟩
      have hx2 : (x, ()) ∈ s2.entries := by
        split at hs2
        · exact hs2 ▸ mem_of_mem_insert hx1
        · exact hs2 ▸ hx1
      change (x, ()) ∈ s3.entries
      split at hs3
      · exact hs3 ▸ mem_of_mem_insert hx2
      · exact hs3 ▸ hx2

/-- Every hit cut, one after another. -/
theorem foldl_cutRmap_ok {start stop owner : Nat} (hlt : start < stop) :
    ∀ {hits : List Rmap} {acc : OrdSet Rmap × Nat}, RmapOk acc.1 → hits.Nodup →
      (∀ r ∈ hits, (r, ()) ∈ acc.1.entries) →
      ∃ cut, Cuts acc.1 (hits.foldl (cutRmap start stop owner) acc).1 start stop owner cut ∧
        (hits.foldl (cutRmap start stop owner) acc).2 = acc.2 + ∑ b ∈ range stop, cut b := by
  intro hits
  induction hits with
  | nil =>
    intro acc hr _ _
    exact ⟨fun _ => 0, ⟨hr.pos, fun q b => by simp, fun b hb => by simp at hb⟩, by simp⟩
  | cons r hits ih =>
    intro acc hr hnd hmem
    obtain ⟨hnot, hnd⟩ := List.nodup_cons.mp hnd
    obtain ⟨c1, hc1, hsum1, hkeep⟩ :=
      @cutRmap_ok _ _ _ owner _ hr hlt (hmem r List.mem_cons_self)
    obtain ⟨c2, hc2, hsum2⟩ := ih (hc1.rmapOk hr) hnd fun x hx =>
      hkeep x (hmem x (List.mem_cons_of_mem _ hx)) (by rintro rfl; exact hnot hx)
    rw [List.foldl_cons]
    refine ⟨fun b => c1 b + c2 b, ⟨hc2.pos, ?_, ?_⟩, ?_⟩
    · intro q b
      rw [← hc1.at_ q b, ← hc2.at_ q b]
      split <;> omega
    · intro b hb
      rcases Nat.eq_zero_or_pos (c1 b) with h0 | hp
      · exact hc2.inside b (by omega)
      · exact hc1.inside b hp
    · rw [hsum2, hsum1, Finset.sum_add_distrib, Nat.add_assoc]

theorem mem_rmapHits {rmap : OrdSet Rmap} {start stop : Nat} {r : Rmap}
    (h : r ∈ rmapHits rmap start stop) : (r, ()) ∈ rmap.entries := by
  unfold rmapHits at h
  rcases List.mem_append.mp h with h | h
  · obtain ⟨e, he, rfl⟩ := List.mem_map.mp h
    exact (OrdMap.lastBelow_eq_some (by simpa using he)).1
  · obtain ⟨e, he, rfl⟩ := List.mem_map.mp ((List.takeWhile_sublist _).mem h)
    exact (OrdMap.mem_entriesFrom.mp he).1

theorem nodup_rmapHits (rmap : OrdSet Rmap) (start stop : Nat) :
    (rmapHits rmap start stop).Nodup := by
  have hfrom : ((rmap.entriesFrom ⟨start, 0, 0, 0⟩).map (·.1)).Nodup :=
    List.pairwise_map.mpr ((rmap.sorted.filter _).imp fun h => ne_of_lt h)
  unfold rmapHits
  refine List.Nodup.append ?_ ((List.takeWhile_sublist _).nodup hfrom) ?_
  · cases rmap.lastBelow ⟨start, 0, 0, 0⟩ <;> simp
  · intro r hl hr
    obtain ⟨e, he, rfl⟩ := List.mem_map.mp hl
    obtain ⟨f, hf, hfe⟩ := List.mem_map.mp ((List.takeWhile_sublist _).mem hr)
    have hlt := (OrdMap.lastBelow_eq_some (by simpa using he)).2.1
    have hge := (OrdMap.mem_entriesFrom.mp hf).2
    rw [hfe] at hge
    exact absurd hlt (not_lt.mpr hge)

/-- The records of a list that `owner` holds end within 32 bits. -/
def HeldFit (owner : Nat) (hits : List Rmap) : Prop :=
  ∀ r ∈ hits, r.owner = owner → r.stop < 2 ^ 32

/-- The loop cuts one record after another. -/
theorem cutHits_of_fit {start stop owner : Nat} : ∀ {hits : List Rmap} {removed : Nat} {ag : Ag},
    HeldFit owner hits → cutHits start stop owner hits removed ag =
      .ok (hits.foldl (cutRmap start stop owner) (ag.rmap, removed)).2
        { ag with rmap := (hits.foldl (cutRmap start stop owner) (ag.rmap, removed)).1 } := by
  intro hits
  induction hits with
  | nil => exact fun _ => rfl
  | cons r hits ih =>
    intro removed ag hfit
    have hr : ¬(r.owner = owner ∧ 2 ^ 32 ≤ r.stop) := fun hc =>
      absurd (hfit r List.mem_cons_self hc.1) (not_lt.mpr hc.2)
    rw [cutHits, act_throwIf_bind_of_not hr]
    simp only [get_bind_apply, set_bind_apply]
    rw [ih fun x hx => hfit x (List.mem_cons_of_mem _ hx)]
    rfl

/-- At an end that does not fit the program stops, with some records cut. -/
theorem cutHits_of_not_fit {start stop owner : Nat} : ∀ {hits : List Rmap} {removed : Nat} {ag : Ag},
    ¬HeldFit owner hits → ∃ rmap', cutHits start stop owner hits removed ag =
      .error (.panic "attempt to add with overflow") { ag with rmap := rmap' } := by
  intro hits
  induction hits with
  | nil => exact fun h => absurd (fun _ hr => absurd hr List.not_mem_nil) h
  | cons r hits ih =>
    intro removed ag hnot
    by_cases hr : r.owner = owner ∧ 2 ^ 32 ≤ r.stop
    · exact ⟨ag.rmap, act_throwIf_bind_of hr⟩
    · have hrest : ¬HeldFit owner hits := fun h => hnot (List.forall_mem_cons.mpr
        ⟨fun ho => not_le.mp fun hs => hr ⟨ho, hs⟩, h⟩)
      rw [cutHits, act_throwIf_bind_of_not hr]
      simp only [get_bind_apply, set_bind_apply]
      exact ih hrest

theorem cutHits_eq_ok {start stop owner removed n : Nat} {hits : List Rmap} {ag ag' : Ag} :
    cutHits start stop owner hits removed ag = .ok n ag' ↔ HeldFit owner hits ∧
      n = (hits.foldl (cutRmap start stop owner) (ag.rmap, removed)).2 ∧
      ag' = { ag with rmap := (hits.foldl (cutRmap start stop owner) (ag.rmap, removed)).1 } := by
  by_cases hfit : HeldFit owner hits
  · rw [cutHits_of_fit hfit, EStateM.Result.ok.injEq, and_iff_right hfit, eq_comm, @eq_comm Ag]
  · obtain ⟨rmap', h⟩ := @cutHits_of_not_fit start stop owner hits removed ag hfit
    rw [h]
    exact iff_of_false (by simp) fun hk => hfit hk.1

/-- `rmap_remove` succeeds only when `owner` held the whole run, and takes it away. -/
theorem rmapRemove_ok {sb : Superblock} {ag ag' : Ag} {s n owner : Nat} {u : Unit}
    (hrm : sb.hasRmapbt = true) (hr : RmapOk ag.rmap) (hn : 0 < n)
    (h : rmapRemove sb s n owner ag = .ok u ag') :
    ∃ rmap', Cuts ag.rmap rmap' s (s + n) owner (within s n) ∧
      ag' = { ag with rmap := rmap', dirty := true } := by
  unfold rmapRemove at h
  simp only [hrm, Bool.not_true, Bool.false_eq_true, if_false] at h
  obtain ⟨_, h⟩ := act_throwIf_bind_eq_ok.mp h
  simp only [get_bind_apply] at h
  obtain ⟨removed, ag1, hcut, h⟩ := bind_eq_ok.mp h
  obtain ⟨-, hremoved, rfl⟩ := cutHits_eq_ok.mp hcut
  have hlt : s < s + n := by omega
  have hmem : ∀ r ∈ rmapHits ag.rmap s (s + n), (r, ()) ∈ (ag.rmap, 0).1.entries :=
    fun r hr' => mem_rmapHits hr'
  obtain ⟨cut, hc, hsum⟩ :=
    @foldl_cutRmap_ok _ _ owner hlt _ (ag.rmap, 0) hr (nodup_rmapHits ag.rmap s (s + n)) hmem
  rw [← hremoved] at hsum
  generalize (rmapHits ag.rmap s (s + n)).foldl (cutRmap s (s + n) owner) (ag.rmap, 0) = p at h hc
  obtain ⟨rmap', _⟩ := p
  simp only at h hc hsum
  obtain ⟨hrem, h⟩ := act_throwIf_bind_eq_ok.mp h
  simp only [modify_apply, EStateM.Result.ok.injEq] at h
  have heq : ∀ b, cut b = within s n b := by
    refine eq_within_of_sum (le_refl _) (fun b => ?_) (by omega)
    rcases Nat.eq_zero_or_pos (cut b) with h0 | hp
    · rw [h0]
      exact Nat.zero_le _
    · have hin := hc.inside b hp
      rw [within_eq_one.mpr hin]
      have := hc.at_ anyone b
      have := hr.once b
      simp only [anyone_apply, if_true] at *
      omega
  obtain rfl : cut = within s n := funext heq
  exact ⟨rmap', hc, h.2.symm⟩

/-! ## Inodes -/

theorem allocAligned_none {ag ag' : Ag} {len align : Nat}
    (h : allocAligned len align ag = .ok none ag') : ag' = ag := by
  unfold allocAligned at h
  simp only [get_bind_apply] at h
  split at h
  · simpa using h.symm
  · obtain ⟨_, h⟩ := act_throwIf_bind_eq_ok.mp h
    cases ha : ag.free.entries.findSome? (alignedIn len align) with
    | none =>
      simp only [ha, pure_apply, EStateM.Result.ok.injEq] at h
      exact h.2.symm
    | some start =>
      simp only [ha] at h
      obtain ⟨u, ag1, _, hret⟩ := bind_eq_ok.mp h
      simp at hret

/-- A new chunk is an allocation recorded as the inodes', and nothing else of the
group's space. -/
theorem allocChunk_ok {sb : Superblock} {ag ag' : Ag} {r : Option Nat} (hf : FreeOk ag.free)
    (hblocks : 0 < CHUNK_INODES / sb.inodesPerBlock) (h : allocChunk sb ag = .ok r ag') :
    ag' = ag ∨ ∃ s ag1 ag2, Allocated ag ag1 s (CHUNK_INODES / sb.inodesPerBlock) ∧
      rmapAdd sb s (CHUNK_INODES / sb.inodesPerBlock) OWN_INODES 0 ag1 = .ok () ag2 ∧
      ag' = { ag2 with chunks := ag'.chunks, dirty := true } := by
  unfold allocChunk at h
  obtain ⟨res, ag1, h1, hrest⟩ := bind_eq_ok.mp h
  clear h
  cases res with
  | none =>
    simp only [pure_apply, EStateM.Result.ok.injEq] at hrest
    exact Or.inl (hrest.2 ▸ allocAligned_none h1)
  | some s =>
    refine Or.inr ⟨s, ag1, ?_⟩
    by_cases hrm : sb.hasRmapbt = true <;>
      simp only [rmapAdd, hrm, if_true, if_false, Bool.false_eq_true, bind_eq_ok, modify_apply,
        pure_apply, EStateM.Result.ok.injEq] at hrest ⊢ <;>
      obtain ⟨_, _, ⟨_, rfl⟩, _, _, ⟨_, rfl⟩, _, _, ⟨_, rfl⟩, _, rfl⟩ := hrest <;>
      exact ⟨_, allocAligned_ok hf hblocks h1, ⟨trivial, rfl⟩, rfl⟩

theorem allocInode_ok {ag ag' : Ag} {r : Option Nat} (h : allocInode ag = .ok r ag') :
    ag' = { ag with chunks := ag'.chunks, dirty := ag'.dirty } := by
  unfold allocInode at h
  simp only [get_bind_apply] at h
  cases hf : ag.chunks.entries.find? fun e => decide (0 < e.2.freeCount) with
  | none =>
    simp only [hf, pure_apply, EStateM.Result.ok.injEq] at h
    rw [← h.2]
  | some e =>
    simp only [hf] at h
    cases hi : e.2.firstFree with
    | none =>
      simp only [hi, pure_apply, EStateM.Result.ok.injEq] at h
      rw [← h.2]
    | some i =>
      simp only [hi, set_bind_apply] at h
      obtain ⟨-, h⟩ := act_throwIf_bind_eq_ok.mp h
      rw [← (EStateM.Result.ok.inj h).2]

theorem freeInode_ok {ag ag' : Ag} {agino : Nat} {u : Unit}
    (h : freeInode agino ag = .ok u ag') :
    ag' = { ag with chunks := ag'.chunks, dirty := ag'.dirty } := by
  unfold freeInode at h
  simp only [get_bind_apply] at h
  obtain ⟨-, h⟩ := act_throwIf_bind_eq_ok.mp h
  cases hf : (ag.chunks.lastUpTo agino).filter fun e => decide (agino < e.1 + CHUNK_INODES) with
  | none => simp [hf] at h
  | some e =>
    simp only [hf] at h
    obtain ⟨_, h⟩ := act_throwIf_bind_eq_ok.mp h
    simp only [set_apply, EStateM.Result.ok.injEq] at h
    rw [← h.2]

end FioXfs.Alloc
