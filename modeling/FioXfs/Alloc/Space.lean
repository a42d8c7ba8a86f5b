import FioXfs.Alloc
import FioXfs.Lib.Cover
set_option autoImplicit false

/-!
# What the free-space operations do

One lemma for each operation on the free map, stated by the count of extents that
hold each block: an allocation takes exactly the run it returns out of the map, a
free puts exactly the run it is given back.
-/

namespace FioXfs.Alloc

open FioXfs.Lib FioXfs.Btree

/-! ## Counting free extents -/

/-- How many free extents hold block `b`. -/
def freeAt (free : OrdMap Nat Nat) (b : Nat) : Nat := free.weight fun e => within e.1 e.2 b

/-- A free map with no empty extent and no block in two. -/
structure FreeOk (free : OrdMap Nat Nat) : Prop where
  pos : ∀ e ∈ free.entries, 0 < e.2
  once : ∀ b, freeAt free b ≤ 1

/-- No extent ends where another starts. -/
def Separate (free : OrdMap Nat Nat) : Prop :=
  ∀ a ∈ free.entries, ∀ b ∈ free.entries, a.1 + a.2 ≠ b.1

section
variable {free : OrdMap Nat Nat}

/-- Two extents with a block in common are one. -/
theorem FreeOk.eq_of_common (h : FreeOk free) {e f : Nat × Nat} (he : e ∈ free.entries)
    (hf : f ∈ free.entries) {b : Nat} (heb : e.1 ≤ b ∧ b < e.1 + e.2)
    (hfb : f.1 ≤ b ∧ b < f.1 + f.2) : e = f := by
  by_contra hne
  have hk : e.1 ≠ f.1 := fun hk => hne (OrdMap.eq_of_fst_eq he hf hk)
  have hsum := OrdMap.add_le_weight (fun e => within e.1 e.2 b) he hf hk
  have h1 := within_eq_one.mpr heb
  have h2 := within_eq_one.mpr hfb
  have honce : free.weight (fun e => within e.1 e.2 b) ≤ 1 := h.once b
  omega

/-- An extent ends before the next one starts. -/
theorem FreeOk.apart (h : FreeOk free) {e f : Nat × Nat} (he : e ∈ free.entries)
    (hf : f ∈ free.entries) (hlt : e.1 < f.1) : e.1 + e.2 ≤ f.1 := by
  by_contra hc
  have hpos := h.pos f hf
  have := h.eq_of_common he hf (b := f.1) ⟨by omega, by omega⟩ ⟨by omega, by omega⟩
  rw [this] at hlt
  exact lt_irrefl _ hlt

theorem freeAt_pos_of_mem {e : Nat × Nat} (he : e ∈ free.entries) {b : Nat}
    (hb : e.1 ≤ b ∧ b < e.1 + e.2) : 0 < freeAt free b :=
  lt_of_lt_of_le (within_pos.mpr hb) (OrdMap.le_weight (fun e => within e.1 e.2 b) he)

theorem exists_of_freeAt_pos {b : Nat} (h : 0 < freeAt free b) :
    ∃ e ∈ free.entries, e.1 ≤ b ∧ b < e.1 + e.2 := by
  obtain ⟨e, he, hp⟩ := OrdMap.exists_of_weight_pos h
  exact ⟨e, he, within_pos.mp hp⟩

theorem sum_values : free.values.sum = free.weight fun e => e.2 := rfl

end

/-! ## Taking blocks -/

/-- `free'` is `free` with the run of `n` blocks at `s` taken out. -/
structure Takes (free free' : OrdMap Nat Nat) (s n : Nat) : Prop where
  pos : ∀ e ∈ free'.entries, 0 < e.2
  at_ : ∀ b, freeAt free' b + within s n b = freeAt free b
  sum : free'.values.sum + n = free.values.sum
  length : free'.entries.length ≤ free.entries.length + 1
  atEnd : ∀ e ∈ free.entries, e.1 ≤ s → s + n = e.1 + e.2 →
    free'.entries.length + (if s = e.1 then 1 else 0) = free.entries.length
  separate : Separate free → Separate free'

theorem Takes.freeOk {free free' : OrdMap Nat Nat} {s n : Nat} (h : Takes free free' s n)
    (hf : FreeOk free) : FreeOk free' :=
  ⟨h.pos, fun b => by have := h.at_ b; have := hf.once b; omega⟩

/-- `take`'s surgery on the map: the extent at `fs` is replaced by what is left on
either side of the run. -/
theorem takes_of_mem {free : OrdMap Nat Nat} (hf : FreeOk free) {fs fl s n : Nat}
    (he : (fs, fl) ∈ free.entries) (hs : fs ≤ s) (hn : 0 < n) (hle : s + n ≤ fs + fl) :
    let f1 := free.erase fs
    let f2 := if fs < s then f1.insert fs (s - fs) else f1
    let f3 := if s + n < fs + fl then f2.insert (s + n) (fs + fl - s - n) else f2
    Takes free f3 s n := by
  intro f1 f2 f3
  have hlt : s < fs + fl := by omega
  -- Each surviving key is `fs`, `s + n` or another extent's, which keeps clear of ours.
  have hclear : ∀ x ∈ free.entries, x.1 ≠ fs → x.1 < fs ∨ fs + fl ≤ x.1 := by
    intro x hx hne
    by_contra hc
    have hxfs : fs < x.1 := by omega
    have := hf.apart he hx hxfs
    simp only at this
    omega
  have hm1 : ∀ x, x ∈ f1.entries ↔ x ∈ free.entries ∧ x.1 ≠ fs := fun x => OrdMap.mem_erase
  have hm2 : ∀ x ∈ f2.entries, (x = (fs, s - fs) ∧ fs < s) ∨ (x ∈ free.entries ∧ x.1 ≠ fs) := by
    intro x hx
    by_cases h : fs < s
    · simp only [f2, h, if_true, OrdMap.mem_insert, hm1] at hx
      tauto
    · simp only [f2, h, if_false, hm1] at hx
      exact Or.inr hx
  have hm3 : ∀ x ∈ f3.entries, (x = (s + n, fs + fl - s - n) ∧ s + n < fs + fl) ∨
      (x = (fs, s - fs) ∧ fs < s) ∨ (x ∈ free.entries ∧ x.1 ≠ fs) := by
    intro x hx
    by_cases h : s + n < fs + fl
    · simp only [f3, h, if_true, OrdMap.mem_insert] at hx
      rcases hx with rfl | ⟨hx, _⟩
      · exact Or.inl ⟨rfl, h⟩
      · exact Or.inr (hm2 x hx)
    · simp only [f3, h, if_false] at hx
      exact Or.inr (hm2 x hx)
  have hw1 : ∀ f, free.weight f = f (fs, fl) + f1.weight f := fun f => OrdMap.weight_erase f he
  have hw2 : ∀ f, f2.weight f = (if fs < s then f (fs, s - fs) else 0) + f1.weight f := by
    intro f
    by_cases h : fs < s
    · simp only [f2, h, if_true]
      exact OrdMap.weight_insert f fun x hx => ((hm1 x).mp hx).2
    · simp only [f2, h, if_false, Nat.zero_add]
  have hw3 : ∀ f, f3.weight f =
      (if s + n < fs + fl then f (s + n, fs + fl - s - n) else 0) + f2.weight f := by
    intro f
    by_cases h : s + n < fs + fl
    · simp only [f3, h, if_true]
      refine OrdMap.weight_insert f fun x hx => ?_
      rcases hm2 x hx with ⟨rfl, _⟩ | ⟨hx, hne⟩
      · simp only
        omega
      · have := hclear x hx hne
        omega
    · simp only [f3, h, if_false, Nat.zero_add]
  refine ⟨?_, ?_, ?_, ?_, ?_, ?_⟩
  · intro x hx
    rcases hm3 x hx with ⟨rfl, h⟩ | ⟨rfl, h⟩ | ⟨hx, _⟩
    · simp only
      omega
    · simp only
      omega
    · exact hf.pos x hx
  · intro b
    simp only [freeAt]
    rw [hw3, hw2, hw1]
    unfold within
    split_ifs <;> omega
  · simp only [sum_values]
    rw [hw3, hw2, hw1]
    split_ifs <;> omega
  · rw [← OrdMap.weight_one, ← OrdMap.weight_one, hw3, hw2, hw1]
    split_ifs <;> omega
  · intro e hem hes hend
    obtain rfl := hf.eq_of_common hem he (b := s) ⟨hes, by omega⟩ ⟨hs, by omega⟩
    rw [← OrdMap.weight_one, ← OrdMap.weight_one, hw3, hw2, hw1]
    simp only at hes hend ⊢
    split_ifs <;> omega
  · -- Two ends can only meet where two extents met before, or inside the old extent.
    intro hsep x hx y hy
    have hself : ∀ z ∈ free.entries, z.1 ≠ fs → z.1 + z.2 ≤ fs ∨ fs + fl ≤ z.1 := by
      intro z hz hne
      rcases hclear z hz hne with h | h
      · exact Or.inl (hf.apart hz he h)
      · exact Or.inr h
    have hend : ∀ z ∈ free.entries, z.1 ≠ fs + fl := fun z hz => (hsep _ he z hz).symm
    have hstart : ∀ z ∈ free.entries, z.1 + z.2 ≠ fs := fun z hz => hsep z hz _ he
    rcases hm3 x hx with ⟨rfl, hx'⟩ | ⟨rfl, hx'⟩ | ⟨hx, hxn⟩ <;>
      rcases hm3 y hy with ⟨rfl, hy'⟩ | ⟨rfl, hy'⟩ | ⟨hy, hyn⟩
    · simp only
      omega
    · simp only
      omega
    · have := hend y hy
      simp only
      omega
    · simp only
      omega
    · simp only
      omega
    · have := hself y hy hyn
      have := hf.pos y hy
      simp only
      omega
    · have := hself x hx hxn
      have := hf.pos x hx
      simp only
      omega
    · exact hstart x hx
    · exact hsep x hx y hy

theorem take_ok {ag ag' : Ag} {s n : Nat} {u : Unit} (hf : FreeOk ag.free) (hn : 0 < n)
    (h : take s n ag = .ok u ag') :
    ∃ free', Takes ag.free free' s n ∧
      ag' = { ag with free := free', freeTotal := ag.freeTotal - n, dirty := true } := by
  unfold take at h
  simp only [get_bind_apply] at h
  cases hl : ag.free.lastUpTo s with
  | none => simp [hl] at h
  | some e =>
    obtain ⟨fs, fl⟩ := e
    simp only [hl] at h
    obtain ⟨hle, hset⟩ := act_throwIf_bind_eq_ok.mp h
    obtain ⟨hmem, hfs, _⟩ := OrdMap.lastUpTo_eq_some hl
    simp only [set_apply, EStateM.Result.ok.injEq] at hset
    exact ⟨_, takes_of_mem hf hmem hfs hn (not_lt.mp hle), hset.2.symm⟩

/-- Taking part of a free extent succeeds. -/
theorem take_succeeds {ag : Ag} (hf : FreeOk ag.free) {fs fl s n : Nat}
    (he : (fs, fl) ∈ ag.free.entries) (hs : fs ≤ s) (hn : 0 < n) (hle : s + n ≤ fs + fl) :
    isOk (take s n ag) = true := by
  unfold take
  simp only [get_bind_apply]
  cases hl : ag.free.lastUpTo s with
  | none => exact absurd (OrdMap.lastUpTo_eq_none hl _ he) (by simp only; omega)
  | some e =>
    obtain ⟨hmem, hes, hlast⟩ := OrdMap.lastUpTo_eq_some hl
    have hge := hlast _ he hs
    simp only at hge
    have heq : e = (fs, fl) := by
      rcases Nat.lt_or_eq_of_le hge with hlt | heq
      · have := hf.apart he hmem hlt
        simp only at this
        omega
      · exact OrdMap.eq_of_fst_eq hmem he heq.symm
    subst heq
    simp only
    rw [act_throwIf_bind_of_not (not_lt.mpr hle)]
    rfl

/-! ## Allocating -/

/-- What an allocation of the run of `n` blocks at `s` leaves. -/
structure Allocated (ag ag' : Ag) (s n : Nat) : Prop where
  pos : 0 < n
  le_spare : n ≤ ag.spare
  takes : ∃ free', Takes ag.free free' s n ∧
    ag' = { ag with free := free', freeTotal := ag.freeTotal - n, dirty := true }

theorem pickExtent_pos {free : OrdMap Nat Nat} (hf : FreeOk free) {want near s n : Nat}
    (hw : 0 < want) (h : pickExtent free want near = some (s, n)) : 0 < n ∧ n ≤ want := by
  unfold pickExtent at h
  split at h
  · rename_i e he
    simp only [Option.some.injEq, Prod.mk.injEq] at h
    omega
  · obtain ⟨e, he, hse⟩ := Option.map_eq_some_iff.mp h
    have hpos := hf.pos e (lastMaxBy_mem he)
    simp only [Prod.mk.injEq] at hse
    omega

theorem alloc_ok {ag ag' : Ag} {want near s n : Nat} (hf : FreeOk ag.free)
    (h : alloc want near ag = .ok (some (s, n)) ag') : Allocated ag ag' s n ∧ n ≤ want := by
  unfold alloc at h
  simp only [get_bind_apply] at h
  generalize hw : min (min want MAX_EXTENT) (min ag.spare (2 ^ 32 - 1)) = w at h
  split at h
  · simp at h
  · rename_i hw0
    cases hp : pickExtent ag.free w near with
    | none => simp [hp] at h
    | some e =>
      obtain ⟨s', n'⟩ := e
      simp only [hp] at h
      obtain ⟨u, ag'', htake, hret⟩ := bind_eq_ok.mp h
      simp only [pure_apply, EStateM.Result.ok.injEq, Option.some.injEq, Prod.mk.injEq] at hret
      obtain ⟨⟨rfl, rfl⟩, rfl⟩ := hret
      obtain ⟨hpos, hle⟩ := pickExtent_pos hf (Nat.pos_of_ne_zero hw0) hp
      exact ⟨⟨hpos, by omega, take_ok hf hpos htake⟩, by omega⟩

theorem alloc_none {ag ag' : Ag} {want near : Nat} (h : alloc want near ag = .ok none ag') :
    ag' = ag := by
  unfold alloc at h
  simp only [get_bind_apply] at h
  generalize min (min want MAX_EXTENT) (min ag.spare (2 ^ 32 - 1)) = w at h
  split at h
  · simpa using h.symm
  · cases hp : pickExtent ag.free w near with
    | none =>
      simp only [hp, pure_apply, EStateM.Result.ok.injEq] at h
      exact h.2.symm
    | some e =>
      simp only [hp] at h
      obtain ⟨u, ag1, _, hret⟩ := bind_eq_ok.mp h
      simp at hret

/-- The run picked lies in a free extent. -/
theorem pickExtent_mem {free : OrdMap Nat Nat} {want near s n : Nat}
    (h : pickExtent free want near = some (s, n)) : ∃ e ∈ free.entries, e.1 = s ∧ n ≤ e.2 := by
  unfold pickExtent at h
  split at h
  · rename_i e he
    obtain ⟨rfl, rfl⟩ := Prod.mk.inj (Option.some.inj h)
    have hmem : e ∈ free.entries := (List.mem_append.mp (List.mem_of_find?_eq_some he)).elim
      (fun h => (OrdMap.mem_entriesFrom.mp h).1) fun h => (OrdMap.mem_entriesBelow.mp h).1
    exact ⟨e, hmem, rfl, by simpa using List.find?_some he⟩
  · obtain ⟨e, he, hse⟩ := Option.map_eq_some_iff.mp h
    obtain ⟨rfl, rfl⟩ := Prod.mk.inj hse
    exact ⟨e, lastMaxBy_mem he, rfl, Nat.min_le_left _ _⟩

/-- A group with blocks to spare has a run to give. -/
theorem alloc_of_spare {ag : Ag} {want near : Nat} (hf : FreeOk ag.free)
    (ht : ag.freeTotal = ag.free.values.sum) (hspare : 0 < ag.spare) (hwant : 0 < want) :
    ∃ s n ag', alloc want near ag = .ok (some (s, n)) ag' := by
  unfold alloc
  simp only [get_bind_apply]
  generalize hw : min (min want MAX_EXTENT) (min ag.spare (2 ^ 32 - 1)) = w
  have hpos : 0 < w := by
    unfold MAX_EXTENT at hw
    omega
  rw [if_neg (by omega)]
  cases hp : pickExtent ag.free w near with
  | none =>
      -- Without a free extent there would be nothing to spare.
      have hnone : lastMaxBy (·.2) ag.free.entries = none := by
        unfold pickExtent at hp
        split at hp
        · simp at hp
        · simpa using hp
      have hnil := lastMaxBy_eq_none.mp hnone
      unfold Ag.spare at hspare
      rw [ht, OrdMap.values, hnil] at hspare
      simp at hspare
  | some e =>
      obtain ⟨s, n⟩ := e
      obtain ⟨e, he, rfl, hle⟩ := pickExtent_mem hp
      obtain ⟨u, ag', htake⟩ := exists_of_isOk
        (take_succeeds hf he (le_refl _) (pickExtent_pos hf hpos hp).1 (by omega))
      exact ⟨e.1, n, ag', by simp only; rw [bind_of_ok htake]; rfl⟩

theorem alloc_of_no_spare {ag : Ag} {want near : Nat} (h : ag.spare = 0) :
    alloc want near ag = .ok none ag := by
  unfold alloc
  simp [h]

theorem blockExcept_ne {not b : Nat} {e : Nat × Nat} (h : blockExcept not e = some b) :
    b ≠ not := by
  unfold blockExcept at h
  split_ifs at h with h1 h2
  · obtain rfl : e.1 = b := by simpa using h
    exact h1
  · obtain rfl : e.1 + 1 = b := by simpa using h
    omega

theorem allocBlockExcept_ok {ag ag' : Ag} {not b : Nat} (hf : FreeOk ag.free)
    (h : allocBlockExcept not ag = .ok (some b) ag') : Allocated ag ag' b 1 ∧ b ≠ not := by
  unfold allocBlockExcept at h
  simp only [get_bind_apply] at h
  split at h
  · simp at h
  · rename_i hs
    cases hb : ag.free.entries.findSome? (blockExcept not) with
    | none => simp [hb] at h
    | some b' =>
      simp only [hb] at h
      obtain ⟨u, ag'', htake, hret⟩ := bind_eq_ok.mp h
      simp only [pure_apply, EStateM.Result.ok.injEq, Option.some.injEq] at hret
      obtain ⟨rfl, rfl⟩ := hret
      obtain ⟨e, _, he⟩ := List.exists_of_findSome?_eq_some hb
      exact ⟨⟨Nat.one_pos, by omega, take_ok hf Nat.one_pos htake⟩, blockExcept_ne he⟩

theorem allocAligned_ok {ag ag' : Ag} {len align s : Nat} (hf : FreeOk ag.free) (hlen : 0 < len)
    (h : allocAligned len align ag = .ok (some s) ag') : Allocated ag ag' s len := by
  unfold allocAligned at h
  simp only [get_bind_apply] at h
  split at h
  · simp at h
  · rename_i hs
    obtain ⟨_, h⟩ := act_throwIf_bind_eq_ok.mp h
    cases ha : ag.free.entries.findSome? (alignedIn len align) with
    | none => simp [ha] at h
    | some start =>
      simp only [ha] at h
      obtain ⟨u, ag'', htake, hret⟩ := bind_eq_ok.mp h
      simp only [pure_apply, EStateM.Result.ok.injEq, Option.some.injEq] at hret
      obtain ⟨rfl, rfl⟩ := hret
      exact ⟨hlen, not_lt.mp hs, take_ok hf hlen htake⟩

/-! ## Giving blocks back -/

/-- `free'` is `free` with the run of `n` blocks at `s` put back. -/
structure Puts (free free' : OrdMap Nat Nat) (s n : Nat) : Prop where
  freeOk : FreeOk free'
  at_ : ∀ b, freeAt free' b = freeAt free b + within s n b
  sum : free'.values.sum = free.values.sum + n
  length : free'.entries.length ≤ free.entries.length + 1
  separate : Separate free → Separate free'

/-- `f1` is `f` without the extent of `k` blocks that ends at `s`; nothing ends there
when `k` is 0. -/
structure DropsBefore (f f1 : OrdMap Nat Nat) (s k : Nat) : Prop where
  le : k ≤ s
  mem_iff : ∀ e, e ∈ f1.entries ↔ e ∈ f.entries ∧ (0 < k → e.1 ≠ s - k)
  weight : ∀ g, f.weight g = (if 0 < k then g (s - k, k) else 0) + f1.weight g
  mem : 0 < k → (s - k, k) ∈ f.entries
  below : ∀ e ∈ f.entries, e.1 < s → e.1 + e.2 ≤ s ∧ (k = 0 → e.1 + e.2 < s)

/-- `f2` is `f1` without the extent of `k` blocks that starts at `s`; nothing starts
there when `k` is 0. -/
structure DropsAfter (f1 f2 : OrdMap Nat Nat) (lo s k : Nat) : Prop where
  mem_iff : ∀ e, e ∈ f2.entries ↔ e ∈ f1.entries ∧ e.1 ≠ s
  weight : ∀ g, f1.weight g = (if 0 < k then g (s, k) else 0) + f2.weight g
  mem : 0 < k → (s, k) ∈ f1.entries
  above : ∀ e ∈ f1.entries, lo ≤ e.1 → s ≤ e.1
  clear : k = 0 → ∀ e ∈ f1.entries, e.1 ≠ s

theorem mergeBefore_ok {ag ag' : Ag} {s n : Nat} {p : Nat × Nat} (hf : FreeOk ag.free)
    (h : mergeBefore s n ag = .ok p ag') :
    ∃ k f1, DropsBefore ag.free f1 s k ∧ p = (s - k, n + k) ∧ ag' = { ag with free := f1 } := by
  unfold mergeBefore at h
  simp only [get_bind_apply] at h
  cases hl : ag.free.lastBelow s with
  | none =>
    simp only [hl, pure_apply, EStateM.Result.ok.injEq] at h
    refine ⟨0, ag.free, ⟨Nat.zero_le _, by simp, by simp, by simp, ?_⟩,
      by simp [h.1], h.2.symm⟩
    intro e he hlt
    have := OrdMap.lastBelow_eq_none hl e he
    omega
  | some e =>
    obtain ⟨ps, pn⟩ := e
    obtain ⟨hmem, hlt, hlast⟩ := OrdMap.lastBelow_eq_some hl
    simp only [hl] at h
    obtain ⟨-, h⟩ := act_throwIf_bind_eq_ok.mp h
    obtain ⟨hle, h⟩ := act_throwIf_bind_eq_ok.mp h
    simp only at hlt hlast
    -- The last extent below ends nearest to `s`.
    have hbelow : ∀ x ∈ ag.free.entries, x.1 < s → x = (ps, pn) ∨ x.1 + x.2 ≤ ps := by
      intro x hx hxs
      rcases Nat.lt_or_eq_of_le (hlast x hx hxs) with hlt' | heq
      · exact Or.inr (hf.apart hx hmem hlt')
      · exact Or.inl (OrdMap.eq_of_fst_eq hx hmem heq)
    have hpn := hf.pos _ hmem
    simp only at hpn
    split at h
    · rename_i heq
      simp only [set_bind_apply, pure_apply, EStateM.Result.ok.injEq] at h
      refine ⟨pn, ag.free.erase ps, ⟨by omega, ?_, ?_, ?_, ?_⟩, ?_, h.2.symm⟩
      · intro x
        rw [OrdMap.mem_erase, show s - pn = ps by omega]
        simp [hpn]
      · intro g
        rw [if_pos hpn, show s - pn = ps by omega]
        exact OrdMap.weight_erase g hmem
      · intro _
        rwa [show s - pn = ps by omega]
      · intro x hx hxs
        rcases hbelow x hx hxs with rfl | hx'
        · exact ⟨by simp only; omega, fun h0 => by omega⟩
        · exact ⟨by omega, fun h0 => by omega⟩
      · rw [← h.1, show s - pn = ps by omega]
    · rename_i hne
      simp only [pure_apply, EStateM.Result.ok.injEq] at h
      refine ⟨0, ag.free, ⟨Nat.zero_le _, by simp, by simp, by simp, ?_⟩,
        by simp [h.1], h.2.symm⟩
      intro x hx hxs
      rcases hbelow x hx hxs with rfl | hx'
      · simp only
        omega
      · omega

theorem mergeAfter_ok {ag ag' : Ag} {s len n m : Nat} (hf : ∀ e ∈ ag.free.entries, 0 < e.2)
    (h : mergeAfter s len n ag = .ok m ag') :
    ∃ k f2, DropsAfter ag.free f2 s (s + len) k ∧ m = n + k ∧ ag' = { ag with free := f2 } := by
  unfold mergeAfter at h
  simp only [get_bind_apply] at h
  cases hl : (ag.free.entriesFrom s).head? with
  | none =>
    simp only [hl, pure_apply, EStateM.Result.ok.injEq] at h
    have hnone : ∀ e ∈ ag.free.entries, ¬s ≤ e.1 := by
      intro e he hs
      have hm := OrdMap.mem_entriesFrom.mpr ⟨he, hs⟩
      rw [List.head?_eq_none_iff.mp hl] at hm
      simp at hm
    have hclear : ∀ e ∈ ag.free.entries, e.1 ≠ s + len := fun e he => by
      have := hnone e he
      omega
    refine ⟨0, ag.free, ⟨fun e => ⟨fun he => ⟨he, hclear e he⟩, And.left⟩, by simp, by simp, ?_,
      fun _ => hclear⟩, by simp [h.1], h.2.symm⟩
    exact fun e he hs => absurd hs (hnone e he)
  | some e =>
    obtain ⟨ns, nn⟩ := e
    obtain ⟨hmem, hle⟩ := OrdMap.mem_entriesFrom.mp (List.mem_of_mem_head? hl)
    have hfirst : ∀ x ∈ ag.free.entries, s ≤ x.1 → ns ≤ x.1 := fun x hx hs =>
      OrdMap.le_of_head?_entriesFrom hl hx hs
    simp only [hl] at h
    obtain ⟨hge, h⟩ := act_throwIf_bind_eq_ok.mp h
    have hnn := hf _ hmem
    simp only at hnn hle
    split at h
    · rename_i heq
      simp only [set_bind_apply] at h
      obtain ⟨-, h⟩ := act_throwIf_bind_eq_ok.mp h
      simp only [pure_apply, EStateM.Result.ok.injEq] at h
      refine ⟨nn, ag.free.erase ns, ⟨?_, ?_, ?_, ?_, fun h0 => by omega⟩, h.1.symm, h.2.symm⟩
      · intro x
        rw [OrdMap.mem_erase, heq]
      · intro g
        rw [if_pos hnn, ← heq]
        exact OrdMap.weight_erase g hmem
      · intro _
        rwa [← heq]
      · intro x hx hs
        have := hfirst x hx hs
        omega
    · rename_i hne
      simp only [pure_apply, EStateM.Result.ok.injEq] at h
      have hclear : ∀ x ∈ ag.free.entries, x.1 ≠ s + len := fun x hx heq => by
        have := hfirst x hx (by omega)
        omega
      refine ⟨0, ag.free, ⟨fun x => ⟨fun hx => ⟨hx, hclear x hx⟩, And.left⟩, by simp, by simp, ?_,
        fun _ => hclear⟩, by simp [h.1], h.2.symm⟩
      intro x hx hs
      have := hfirst x hx hs
      omega

/-- Putting the merged run in makes one extent of the run and its neighbours. -/
theorem puts_of_drops {f f1 f2 : OrdMap Nat Nat} {s n j k : Nat} (hf : FreeOk f) (hn : 0 < n)
    (hb : DropsBefore f f1 s j) (ha : DropsAfter f1 f2 s (s + n) k) :
    Puts f (f2.insert (s - j) (n + j + k)) s n := by
  have hle := hb.le
  -- What is left lies clear of the run and of both neighbours.
  have hclear : ∀ x ∈ f2.entries, x ∈ f.entries ∧
      (x.1 + x.2 ≤ s - j ∧ (j = 0 → x.1 + x.2 < s) ∨ s + n + k ≤ x.1 ∧ x.1 ≠ s + n) := by
    intro x hx
    obtain ⟨hx1, hne⟩ := (ha.mem_iff x).mp hx
    obtain ⟨hx0, hnej⟩ := (hb.mem_iff x).mp hx1
    refine ⟨hx0, ?_⟩
    by_cases hlt : x.1 < s
    · obtain ⟨h1, h2⟩ := hb.below x hx0 hlt
      refine Or.inl ⟨?_, h2⟩
      by_cases hj : 0 < j
      · have hm := hb.mem hj
        rcases Nat.lt_or_ge x.1 (s - j) with hlt' | hge
        · exact hf.apart hx0 hm hlt'
        · have := hf.eq_of_common hx0 hm (b := x.1) ⟨le_refl _, by have := hf.pos x hx0; omega⟩
            ⟨hge, by omega⟩
          exact absurd (by rw [this]) (hnej hj)
      · omega
    · have habove := ha.above x hx1 (by omega)
      refine Or.inr ⟨?_, hne⟩
      by_cases hk : 0 < k
      · have hm := ((hb.mem_iff _).mp (ha.mem hk)).1
        have := hf.apart hm hx0 (by simp only; omega)
        simpa using this
      · omega
  have hfresh : ∀ x ∈ f2.entries, x.1 ≠ s - j := by
    intro x hx
    obtain ⟨hx0, hc⟩ := hclear x hx
    have := hf.pos x hx0
    omega
  have hw : ∀ g, f.weight g = (if 0 < j then g (s - j, j) else 0) +
      ((if 0 < k then g (s + n, k) else 0) + f2.weight g) := by
    intro g
    rw [hb.weight g, ha.weight g]
  have hw' : ∀ g, (f2.insert (s - j) (n + j + k)).weight g = g (s - j, n + j + k) + f2.weight g :=
    fun g => OrdMap.weight_insert g hfresh
  have hat : ∀ b, freeAt (f2.insert (s - j) (n + j + k)) b = freeAt f b + within s n b := by
    intro b
    simp only [freeAt]
    rw [hw', hw]
    unfold within
    split_ifs <;> omega
  -- The run itself is not free: an extent over one of its blocks was turned away.
  have hrun : ∀ b, 0 < within s n b → freeAt f b = 0 := by
    intro b hp
    rw [within_pos] at hp
    by_contra hne
    obtain ⟨e, he, heb⟩ := exists_of_freeAt_pos (Nat.pos_of_ne_zero hne)
    rcases Nat.lt_or_ge e.1 s with hlt | hge
    · have := (hb.below e he hlt).1
      omega
    · have he1 : e ∈ f1.entries := (hb.mem_iff e).mpr ⟨he, fun hj => by omega⟩
      have := ha.above e he1 hge
      omega
  refine ⟨⟨?_, ?_⟩, hat, ?_, ?_, ?_⟩
  · intro x hx
    rcases OrdMap.mem_insert.mp hx with rfl | ⟨hx, _⟩
    · simp only
      omega
    · exact hf.pos x (hclear x hx).1
  · intro b
    rw [hat]
    rcases Nat.eq_zero_or_pos (within s n b) with h0 | hp
    · have := hf.once b
      omega
    · have := hrun b hp
      have := within_le_one s n b
      omega
  · simp only [sum_values]
    rw [hw', hw]
    split_ifs <;> omega
  · rw [← OrdMap.weight_one, ← OrdMap.weight_one, hw', hw]
    split_ifs <;> omega
  · intro hsep x hx y hy
    rcases OrdMap.mem_insert.mp hx with rfl | ⟨hx, _⟩ <;>
      rcases OrdMap.mem_insert.mp hy with rfl | ⟨hy, _⟩
    · simp only
      omega
    · -- The run's end is the right neighbour's, or nothing starts there.
      obtain ⟨hy0, hc⟩ := hclear y hy
      have := hf.pos y hy0
      by_cases hk : 0 < k
      · have := hsep _ ((hb.mem_iff _).mp (ha.mem hk)).1 y hy0
        simp only at this ⊢
        omega
      · simp only
        omega
    · obtain ⟨hx0, hc⟩ := hclear x hx
      have := hf.pos x hx0
      by_cases hj : 0 < j
      · have := hsep x hx0 _ (hb.mem hj)
        simp only at this ⊢
        omega
      · simp only
        omega
    · exact hsep x (hclear x hx).1 y (hclear y hy).1

/-- A run that is freed becomes one extent with those that touch it. -/
theorem freeExtent_drops {ag ag' : Ag} {s n : Nat} {u : Unit} (hf : FreeOk ag.free)
    (h : freeExtent s n ag = .ok u ag') : 0 < n ∧ s + n ≤ ag.len ∧ ∃ j f1 k f2,
      DropsBefore ag.free f1 s j ∧ DropsAfter f1 f2 s (s + n) k ∧
      ag' = { ag with
        free := f2.insert (s - j) (n + j + k), freeTotal := ag.freeTotal + n, dirty := true } := by
  unfold freeExtent at h
  simp only [get_bind_apply] at h
  obtain ⟨hc, h⟩ := act_throwIf_bind_eq_ok.mp h
  obtain ⟨⟨s', n'⟩, ag1, h1, h⟩ := bind_eq_ok.mp h
  obtain ⟨m, ag2, h2, h⟩ := bind_eq_ok.mp h
  simp only [get_bind_apply, set_apply, EStateM.Result.ok.injEq] at h
  obtain ⟨j, f1, hb, hp, rfl⟩ := mergeBefore_ok hf h1
  obtain ⟨k, f2, ha, rfl, rfl⟩ := mergeAfter_ok (fun e he => hf.pos e ((hb.mem_iff e).mp he).1) h2
  simp only [Prod.mk.injEq] at hp
  obtain ⟨rfl, rfl⟩ := hp
  exact ⟨by omega, by omega, j, f1, k, f2, hb, ha, h.2.symm⟩

theorem freeExtent_ok {ag ag' : Ag} {s n : Nat} {u : Unit} (hf : FreeOk ag.free)
    (h : freeExtent s n ag = .ok u ag') :
    0 < n ∧ s + n ≤ ag.len ∧ ∃ free', Puts ag.free free' s n ∧
      ag' = { ag with free := free', freeTotal := ag.freeTotal + n, dirty := true } := by
  obtain ⟨hn, hlen, j, f1, k, f2, hb, ha, rfl⟩ := freeExtent_drops hf h
  exact ⟨hn, hlen, _, puts_of_drops hf hn hb ha, rfl⟩

/-! ## The space of a group -/

/-- The free map and its total agree, and lie in the group. -/
structure SpaceOk (ag : Ag) : Prop where
  freeOk : FreeOk ag.free
  total : ag.freeTotal = ag.free.values.sum
  inside : ∀ b, 0 < freeAt ag.free b → b < ag.len

/-- Every free extent ends within 32 bits. -/
def ExtentsFit (free : OrdMap Nat Nat) : Prop := ∀ x ∈ free.entries, x.1 + x.2 < 2 ^ 32

theorem SpaceOk.extentsFit {ag : Ag} (h : SpaceOk ag) (hlen : ag.len < 2 ^ 32) :
    ExtentsFit ag.free := by
  intro x hx
  have hpos := h.freeOk.pos x hx
  have := h.inside (x.1 + x.2 - 1) (freeAt_pos_of_mem hx (by omega))
  omega

theorem SpaceOk.of_same {ag ag' : Ag} (h : SpaceOk ag) (hfree : ag'.free = ag.free)
    (htotal : ag'.freeTotal = ag.freeTotal) (hlen : ag'.len = ag.len) : SpaceOk ag' := by
  refine ⟨hfree ▸ h.freeOk, ?_, ?_⟩
  · rw [htotal, hfree, h.total]
  · rw [hfree, hlen]
    exact h.inside

theorem SpaceOk.allocated {ag ag' : Ag} {s n : Nat} (h : SpaceOk ag) (ha : Allocated ag ag' s n) :
    SpaceOk ag' := by
  obtain ⟨free', htakes, rfl⟩ := ha.takes
  refine ⟨htakes.freeOk h.freeOk, ?_, fun b hb => h.inside b ?_⟩
  · have := htakes.sum
    have := h.total
    simp only
    omega
  · have := htakes.at_ b
    simp only at hb
    omega

theorem SpaceOk.freed {ag ag' : Ag} {s n : Nat} {u : Unit} (h : SpaceOk ag)
    (hrun : freeExtent s n ag = .ok u ag') : SpaceOk ag' := by
  obtain ⟨hn, hlen, free', hputs, rfl⟩ := freeExtent_ok h.freeOk hrun
  refine ⟨hputs.freeOk, ?_, fun b hb => ?_⟩
  · have := hputs.sum
    have := h.total
    simp only
    omega
  · simp only [hputs.at_] at hb ⊢
    rcases Nat.eq_zero_or_pos (freeAt ag.free b) with h0 | hpos
    · have := within_pos.mp (show 0 < within s n b by omega)
      omega
    · exact h.inside b hpos

end FioXfs.Alloc
