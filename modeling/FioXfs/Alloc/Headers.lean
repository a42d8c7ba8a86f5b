import FioXfs.Alloc
set_option autoImplicit false

/-!
# The headers a rebuild writes

Each field of the new AGF and AGI reads back as what was put in it.
-/

namespace FioXfs.Alloc

open FioXfs.Lib FioXfs.Btree

section
variable {sb : Superblock} {ag : Ag} {t : Trees} {o v : Nat}

/-! ## The AGF -/

/-- Blocks of the free-space and reverse-mapping trees that are not their roots. -/
def btreeBlocks (t : Trees) : Nat :=
  (t.bno.blocks.length - 1) + (t.cnt.blocks.length - 1) +
    t.rmap.elim 0 fun r => r.blocks.length - 1

/-- The AGF's fields that a rebuild sets. -/
def agfFields (ag : Ag) (t : Trees) : List (Nat × Nat) :=
  [(16, t.bno.root), (20, t.cnt.root), (28, t.bno.levels), (32, t.cnt.levels)] ++
    (t.rmap.elim [] fun r => [(24, r.root), (36, r.levels), (80, r.blocks.length)]) ++
    [(52, ag.free.values.sum), (56, ag.free.values.foldl max 0), (60, btreeBlocks t)]

theorem newAgf_eq (ag : Ag) (t : Trees) :
    newAgf ag t = Crc.stamp (putFields 4 ag.agf (agfFields ag t)) AGF_CRC := by
  unfold newAgf agfFields btreeBlocks
  cases t.rmap <;> rfl

theorem agfFields_lt {f : Nat × Nat} (hf : f ∈ agfFields ag t) : f.1 + 4 ≤ AGF_CRC := by
  revert f
  unfold agfFields AGF_CRC
  cases t.rmap <;> simp

theorem agfFields_apart :
    ((agfFields ag t).map (·.1)).Pairwise fun o o' => o + 4 ≤ o' ∨ o' + 4 ≤ o := by
  unfold agfFields
  cases t.rmap <;> simp

theorem length_newAgf (hlen : AGF_CRC + 4 ≤ ag.agf.length) :
    (newAgf ag t).length = ag.agf.length := by
  have hfits : ∀ f ∈ agfFields ag t, f.1 + 4 ≤ ag.agf.length := fun f hf => by
    have := agfFields_lt hf
    omega
  have hput := length_putFields hfits
  rw [newAgf_eq, Crc.length_stamp (by rw [hput]; exact hlen), hput]

/-- Every field a rebuild sets in the AGF reads back. -/
theorem be32_newAgf (hlen : AGF_CRC + 4 ≤ ag.agf.length) (hm : (o, v) ∈ agfFields ag t)
    (hv : v < 2 ^ 32) : be32 (newAgf ag t) o = v := by
  have hfits : ∀ f ∈ agfFields ag t, f.1 + 4 ≤ ag.agf.length := fun f hf => by
    have := agfFields_lt hf
    omega
  have hlt := agfFields_lt hm
  simp only at hlt
  rw [newAgf_eq, be32, Crc.getBe_stamp_disjoint (by rw [length_putFields hfits]; exact hlen)
    (Or.inl hlt)]
  exact getBe_putFields hfits agfFields_apart hm hv

/-- The rest of the AGF stays as it was. -/
theorem be32_newAgf_other (hlen : AGF_CRC + 4 ≤ ag.agf.length)
    (ho : o + 4 ≤ AGF_CRC) (hclear : ∀ f ∈ agfFields ag t, o + 4 ≤ f.1 ∨ f.1 + 4 ≤ o) :
    be32 (newAgf ag t) o = be32 ag.agf o := by
  have hfits : ∀ f ∈ agfFields ag t, f.1 + 4 ≤ ag.agf.length := fun f hf => by
    have := agfFields_lt hf
    omega
  rw [newAgf_eq, be32, Crc.getBe_stamp_disjoint (by rw [length_putFields hfits]; exact hlen)
    (Or.inl ho)]
  exact getBe_putFields_other hfits hclear

/-- The count of the AGFL's blocks is not among the fields. -/
theorem be32_newAgf_agfl (hlen : AGF_CRC + 4 ≤ ag.agf.length) :
    be32 (newAgf ag t) 48 = be32 ag.agf 48 := by
  refine be32_newAgf_other hlen (by decide) fun f => ?_
  unfold agfFields
  revert f
  cases t.rmap <;> simp

/-! ## The AGI -/

/-- The AGI's fields that a rebuild sets. -/
def agiFields (sb : Superblock) (ag : Ag) (t : Trees) : List (Nat × Nat) :=
  [(16, (ag.chunks.values.map (·.count)).sum), (20, t.inobt.root), (24, t.inobt.levels),
    (28, (ag.chunks.values.map (·.freeCount)).sum)] ++
    (if be32 ag.agi 32 = NULL_AGBLOCK then ag.chunks.keys.getLast?.toList.map (32, ·) else []) ++
    (t.finobt.elim [] fun f => [(328, f.root), (332, f.levels)]) ++
    (if sb.hasInobtcount then
      [(336, t.inobt.blocks.length), (340, t.finobt.elim 0 fun f => f.blocks.length)] else [])

theorem newAgi_eq (hlen : 36 ≤ ag.agi.length) :
    newAgi sb ag t = Crc.stamp (putFields 4 ag.agi (agiFields sb ag t)) AGI_CRC := by
  -- The counts and the root leave the newest chunk's field alone.
  have h32 : be32 (putFields 4 ag.agi
      [(16, (ag.chunks.values.map (·.count)).sum), (20, t.inobt.root), (24, t.inobt.levels),
        (28, (ag.chunks.values.map (·.freeCount)).sum)]) 32 = be32 ag.agi 32 := by
    refine getBe_putFields_other ?_ ?_
    · simp
      omega
    · simp
  have hfour : put32 (put32 (put32 (put32 ag.agi 16 (ag.chunks.values.map (·.count)).sum) 20
      t.inobt.root) 24 t.inobt.levels) 28 (ag.chunks.values.map (·.freeCount)).sum =
      putFields 4 ag.agi [(16, (ag.chunks.values.map (·.count)).sum), (20, t.inobt.root),
        (24, t.inobt.levels), (28, (ag.chunks.values.map (·.freeCount)).sum)] := rfl
  unfold newAgi agiFields
  rw [putFields_append, putFields_append, putFields_append]
  dsimp only
  rw [hfour]
  generalize putFields 4 ag.agi [_, _, _, _] = b at h32 ⊢
  rw [← h32]
  generalize ag.chunks.keys.getLast? = last
  cases last with
  | none =>
      rw [show (if be32 b 32 = NULL_AGBLOCK then (none : Option Nat).toList.map (32, ·) else []) = []
        from ite_self _]
      cases t.finobt <;> cases sb.hasInobtcount <;> rfl
  | some last =>
      dsimp only
      by_cases hc : be32 b 32 = NULL_AGBLOCK
      · rw [if_pos hc, if_pos hc,
          show putFields 4 b ((some last).toList.map (32, ·)) = put32 b 32 last from rfl]
        generalize put32 b 32 last = b'
        cases t.finobt <;> cases sb.hasInobtcount <;> rfl
      · rw [if_neg hc, if_neg hc]
        cases t.finobt <;> cases sb.hasInobtcount <;> rfl

/-- The AGI is long enough for the fields a rebuild sets. -/
def AgiHolds (sb : Superblock) (agi : Bytes) : Prop :=
  AGI_CRC + 4 ≤ agi.length ∧ (sb.hasFinobt = true → 336 ≤ agi.length) ∧
    (sb.hasInobtcount = true → 344 ≤ agi.length)

theorem agiFields_lt (h : AgiHolds sb ag.agi) (hf : t.finobt.isSome → sb.hasFinobt = true)
    {f : Nat × Nat} (hm : f ∈ agiFields sb ag t) :
    f.1 + 4 ≤ ag.agi.length ∧ (f.1 + 4 ≤ AGI_CRC ∨ AGI_CRC + 4 ≤ f.1) := by
  obtain ⟨h1, h2, h3⟩ := h
  unfold AGI_CRC at *
  unfold agiFields at hm
  rcases List.mem_append.mp hm with hm | hm
  rcases List.mem_append.mp hm with hm | hm
  rcases List.mem_append.mp hm with hm | hm
  · simp only [List.mem_cons, List.not_mem_nil, or_false] at hm
    rcases hm with rfl | rfl | rfl | rfl <;> simp <;> omega
  · split at hm
    · obtain ⟨_, -, rfl⟩ := List.mem_map.mp hm
      simp only
      omega
    · cases hm
  · cases hfino : t.finobt with
    | none => simp [hfino] at hm
    | some r =>
        have := h2 (hf (by simp [hfino]))
        simp only [hfino, Option.elim_some, List.mem_cons, List.not_mem_nil, or_false] at hm
        rcases hm with rfl | rfl <;> simp only <;> omega
  · split at hm
    · rename_i hcount
      have := h3 hcount
      simp only [List.mem_cons, List.not_mem_nil, or_false] at hm
      rcases hm with rfl | rfl <;> simp only <;> omega
    · cases hm

theorem agiFields_apart :
    ((agiFields sb ag t).map (·.1)).Pairwise fun o o' => o + 4 ≤ o' ∨ o' + 4 ≤ o := by
  unfold agiFields
  by_cases hnew : be32 ag.agi 32 = NULL_AGBLOCK <;> cases ag.chunks.keys.getLast? <;>
    cases t.finobt <;> cases sb.hasInobtcount <;> simp [hnew]

theorem length_newAgi (h : AgiHolds sb ag.agi) (hf : t.finobt.isSome → sb.hasFinobt = true) :
    (newAgi sb ag t).length = ag.agi.length := by
  have hput := length_putFields fun f hm => (agiFields_lt (t := t) h hf hm).1
  have hlen := h.1
  rw [newAgi_eq (by unfold AGI_CRC at hlen; omega), Crc.length_stamp (by rw [hput]; exact hlen), hput]

/-- Every field a rebuild sets in the AGI reads back. -/
theorem be32_newAgi (h : AgiHolds sb ag.agi) (hf : t.finobt.isSome → sb.hasFinobt = true)
    (hm : (o, v) ∈ agiFields sb ag t) (hv : v < 2 ^ 32) : be32 (newAgi sb ag t) o = v := by
  have hfits : ∀ f ∈ agiFields sb ag t, f.1 + 4 ≤ ag.agi.length := fun f hm =>
    (agiFields_lt h hf hm).1
  have hlen := h.1
  rw [newAgi_eq (by unfold AGI_CRC at hlen; omega), be32,
    Crc.getBe_stamp_disjoint (by rw [length_putFields hfits]; exact hlen) (agiFields_lt h hf hm).2]
  exact getBe_putFields hfits agiFields_apart hm hv

/-- The rest of the AGI stays as it was. -/
theorem be32_newAgi_other (h : AgiHolds sb ag.agi) (hf : t.finobt.isSome → sb.hasFinobt = true)
    (ho : o + 4 ≤ AGI_CRC ∨ AGI_CRC + 4 ≤ o)
    (hclear : ∀ f ∈ agiFields sb ag t, o + 4 ≤ f.1 ∨ f.1 + 4 ≤ o) :
    be32 (newAgi sb ag t) o = be32 ag.agi o := by
  have hfits : ∀ f ∈ agiFields sb ag t, f.1 + 4 ≤ ag.agi.length := fun f hm =>
    (agiFields_lt h hf hm).1
  have hlen := h.1
  rw [newAgi_eq (by unfold AGI_CRC at hlen; omega), be32,
    Crc.getBe_stamp_disjoint (by rw [length_putFields hfits]; exact hlen) ho]
  exact getBe_putFields_other hfits hclear

end

end FioXfs.Alloc
