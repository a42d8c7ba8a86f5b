import FioXfs.Alloc.Load
import FioXfs.Alloc.Rebuilt
import FioXfs.Lib.Act
set_option autoImplicit false

/-!
# Inode chunks over runs

A chunk's record says which of its 64 inodes are there and which are free, and its blocks
are nobody's free space.  Taking an inode, giving one back and placing a new chunk keep
that so, in any order.
-/

namespace FioXfs.Alloc

open FioXfs.Lib

/-! ## The masks -/

namespace Chunk

variable {c : Chunk} {i j : Nat}

theorem testBit_take (hj : j < 64) :
    (c.take i).free.testBit j = (c.free.testBit j && decide (i ≠ j)) := by
  unfold take
  rw [Nat.one_shiftLeft, Nat.testBit_and, Nat.testBit_xor, Nat.testBit_two_pow,
    Nat.testBit_two_pow_sub_one]
  simp [hj]

theorem testBit_give : (c.give i).free.testBit j = (c.free.testBit j || decide (i = j)) := by
  unfold give
  rw [Nat.one_shiftLeft, Nat.testBit_or, Nat.testBit_two_pow]

@[simp] theorem hole_take : (c.take i).hole j = c.hole j := rfl

@[simp] theorem hole_give : (c.give i).hole j = c.hole j := rfl

theorem usable_iff : c.usable i = true ↔ c.free.testBit i = true ∧ c.hole i = false := by
  simp [usable]

theorem freeCount_pos : 0 < c.freeCount ↔ ∃ i < CHUNK_INODES, c.usable i = true := by
  unfold freeCount
  simp [List.countP_pos_iff, List.mem_range]

theorem firstFree_eq_some (h : c.firstFree = some i) : i < CHUNK_INODES ∧ c.usable i = true :=
  ⟨List.mem_range.mp (List.mem_of_find?_eq_some h), by simpa using List.find?_some h⟩

/-- A chunk that counts a free inode has a lowest one. -/
theorem exists_firstFree (h : 0 < c.freeCount) : ∃ i, c.firstFree = some i := by
  obtain ⟨i, hi, hu⟩ := freeCount_pos.mp h
  refine Option.isSome_iff_exists.mp ?_
  exact List.find?_isSome.mpr ⟨i, List.mem_range.mpr hi, hu⟩

end Chunk

/-! ## Sound records -/

/-- The AG inode numbers a record covers. -/
def InRecord (e : Nat × Chunk) (ino : Nat) : Prop := e.1 ≤ ino ∧ ino < e.1 + CHUNK_INODES

/-- The inode is really there. -/
def Present (chunks : OrdMap Nat Chunk) (ino : Nat) : Prop :=
  ∃ e ∈ chunks.entries, InRecord e ino ∧ e.2.hole (ino - e.1) = false

/-- The inode is really there and in use. -/
def InUse (chunks : OrdMap Nat Chunk) (ino : Nat) : Prop :=
  ∃ e ∈ chunks.entries, InRecord e ino ∧ e.2.hole (ino - e.1) = false ∧
    e.2.free.testBit (ino - e.1) = false

/-- The AG block an AG inode sits in. -/
def blockOf (sb : Superblock) (ino : Nat) : Nat := ino / 2 ^ sb.inopbLog

/-- A sound record: its start is a number of 32 bits at which a chunk may be, it marks its holes
free, counts what is there, and the blocks of what is there are not free space. -/
structure ChunkSound (sb : Superblock) (free : OrdMap Nat Nat) (e : Nat × Chunk) : Prop where
  short : e.1 < 2 ^ 32
  aligned : CHUNK_INODES ∣ e.1
  holes : ∀ i < CHUNK_INODES, e.2.hole i = true → e.2.free.testBit i = true
  count : e.2.count + 4 * (List.range 16).countP e.2.holemask.testBit = CHUNK_INODES
  taken : ∀ i < CHUNK_INODES, e.2.hole i = false → freeAt free (blockOf sb (e.1 + i)) = 0

/-- Every record is sound, and no two overlap. -/
structure ChunksSound (sb : Superblock) (ag : Ag) : Prop where
  sound : ∀ e ∈ ag.chunks.entries, ChunkSound sb ag.free e
  apart : ∀ a ∈ ag.chunks.entries, ∀ b ∈ ag.chunks.entries, a.1 < b.1 → a.1 + CHUNK_INODES ≤ b.1

section
variable {sb : Superblock} {ag ag' : Ag} {chunks : OrdMap Nat Chunk} {a b e : Nat × Chunk}
  {ino : Nat}

theorem apart_of_aligned (ha : CHUNK_INODES ∣ a.1) (hb : CHUNK_INODES ∣ b.1) (hlt : a.1 < b.1) :
    a.1 + CHUNK_INODES ≤ b.1 := by
  obtain ⟨m, hm⟩ := ha
  obtain ⟨n, hn⟩ := hb
  unfold CHUNK_INODES at *
  omega

theorem chunksSound_of_each (h : ∀ e ∈ ag.chunks.entries, ChunkSound sb ag.free e) :
    ChunksSound sb ag :=
  ⟨h, fun a ha b hb hlt => apart_of_aligned (h a ha).aligned (h b hb).aligned hlt⟩

/-- Records that share an inode are one. -/
theorem ChunksSound.eq_of_inRecord (h : ChunksSound sb ag) (ha : a ∈ ag.chunks.entries)
    (hb : b ∈ ag.chunks.entries) (hai : InRecord a ino) (hbi : InRecord b ino) : a = b := by
  obtain ⟨ha1, ha2⟩ := hai
  obtain ⟨hb1, hb2⟩ := hbi
  rcases Nat.lt_trichotomy a.1 b.1 with hlt | heq | hgt
  · have := h.apart a ha b hb hlt
    omega
  · exact OrdMap.eq_of_fst_eq ha hb heq
  · have := h.apart b hb a ha hgt
    omega

/-- The numbers of a sound record's inodes fit their 32 bits. -/
theorem ChunkSound.stop_le {free : OrdMap Nat Nat} (h : ChunkSound sb free e) :
    e.1 + CHUNK_INODES ≤ 2 ^ 32 := by
  obtain ⟨m, hm⟩ := h.aligned
  have := h.short
  unfold CHUNK_INODES at *
  omega

/-- An inode whose bit is clear is really there. -/
theorem ChunkSound.not_hole {free : OrdMap Nat Nat} (h : ChunkSound sb free e) {i : Nat}
    (hi : i < CHUNK_INODES) (hbit : e.2.free.testBit i = false) : e.2.hole i = false := by
  by_contra hc
  have := h.holes i hi (by simpa using hc)
  simp [hbit] at this

end

/-! ## The operations -/

section
variable {sb : Superblock} {ag ag' : Ag} {ino : Nat}

/-- `alloc_inode` takes the lowest inode of the first chunk that has one free and really
there, if its number fits. -/
theorem allocInode_cases : (allocInode ag = .ok none ag ∧
      ∀ e ∈ ag.chunks.entries, ¬0 < e.2.freeCount) ∨
    ∃ e ∈ ag.chunks.entries, ∃ i < CHUNK_INODES, e.2.usable i = true ∧
      allocInode ag =
        if 2 ^ 32 ≤ e.1 + i then
          .error (.panic "attempt to add with overflow")
            { ag with chunks := ag.chunks.insert e.1 (e.2.take i), dirty := true }
        else .ok (some (e.1 + i))
          { ag with chunks := ag.chunks.insert e.1 (e.2.take i), dirty := true } := by
  unfold allocInode
  simp only [get_bind_apply]
  cases hfind : ag.chunks.entries.find? fun e => decide (0 < e.2.freeCount) with
  | none =>
      refine Or.inl ⟨rfl, fun e he => ?_⟩
      simpa using List.find?_eq_none.mp hfind e he
  | some e =>
      have hpos : 0 < e.2.freeCount := by simpa using List.find?_some hfind
      obtain ⟨i, hi⟩ := Chunk.exists_firstFree hpos
      obtain ⟨hlt, hu⟩ := Chunk.firstFree_eq_some hi
      refine Or.inr ⟨e, List.mem_of_find?_eq_some hfind, i, hlt, hu, ?_⟩
      simp only [hi, set_bind_apply]
      split
      · rename_i hover
        rw [act_throwIf_bind_of hover]
      · rename_i hover
        rw [act_throwIf_bind_of_not hover, pure_apply]

/-- Sound records never overflow. -/
theorem allocInode_eq (h : ∀ e ∈ ag.chunks.entries, e.1 + CHUNK_INODES ≤ 2 ^ 32) :
    (allocInode ag = .ok none ag ∧ ∀ e ∈ ag.chunks.entries, ¬0 < e.2.freeCount) ∨
    ∃ e ∈ ag.chunks.entries, ∃ i < CHUNK_INODES, e.2.usable i = true ∧
      allocInode ag = .ok (some (e.1 + i))
        { ag with chunks := ag.chunks.insert e.1 (e.2.take i), dirty := true } := by
  refine allocInode_cases.imp_right ?_
  rintro ⟨e, he, i, hi, hu, hrun⟩
  rw [if_neg (by have := h e he; omega)] at hrun
  exact ⟨e, he, i, hi, hu, hrun⟩

/-- What a call that succeeds has done. -/
theorem allocInode_eq_ok {r : Option Nat} (h : allocInode ag = .ok r ag') :
    (r = none ∧ ag' = ag) ∨
    ∃ e ∈ ag.chunks.entries, ∃ i < CHUNK_INODES, e.2.usable i = true ∧ r = some (e.1 + i) ∧
      ag' = { ag with chunks := ag.chunks.insert e.1 (e.2.take i), dirty := true } := by
  rcases @allocInode_cases ag with ⟨hrun, -⟩ | ⟨e, he, i, hi, hu, hrun⟩
  · rw [hrun] at h
    cases h
    exact Or.inl ⟨rfl, rfl⟩
  · rw [hrun] at h
    split at h <;> cases h
    exact Or.inr ⟨e, he, i, hi, hu, rfl, rfl⟩

/-- The record that covers an inode is the last that starts by it. -/
theorem ChunksSound.lastUpTo (h : ChunksSound sb ag) {e : Nat × Chunk} (he : e ∈ ag.chunks.entries)
    (hi : InRecord e ino) : ag.chunks.lastUpTo ino = some e := by
  cases hl : ag.chunks.lastUpTo ino with
  | none => exact absurd hi.1 (Nat.not_le.mpr (OrdMap.lastUpTo_eq_none hl e he))
  | some x =>
      obtain ⟨hx, hle, hmax⟩ := OrdMap.lastUpTo_eq_some hl
      have hex := hmax e he hi.1
      rw [h.eq_of_inRecord hx he ⟨hle, by have := hi.2; omega⟩ hi]

/-- `free_inode` finds the one record that covers the inode. -/
theorem freeInode_eq (h : ChunksSound sb ag) {e : Nat × Chunk} (he : e ∈ ag.chunks.entries)
    (hi : InRecord e ino) (hlow : e.1 + CHUNK_INODES < 2 ^ 32) : freeInode ino ag =
      if e.2.free.testBit (ino - e.1) = true then
        .error (.corrupt s!"AG {ag.agno}: inode {ino} is already free") ag
      else .ok () { ag with
        chunks := ag.chunks.insert e.1 (e.2.give (ino - e.1)), dirty := true } := by
  unfold freeInode
  simp only [get_bind_apply, h.lastUpTo he hi]
  rw [act_throwIf_bind_of_not (by simpa using hlow), Option.filter_some_pos (by simpa using hi.2)]
  dsimp only
  split
  · rename_i hbit
    rw [act_throwIf_bind_of hbit]
  · rename_i hbit
    rw [act_throwIf_bind_of_not hbit]
    rfl

/-- At the last record there can be, the end looked at overflows. -/
theorem freeInode_panics (h : ChunksSound sb ag) {e : Nat × Chunk} (he : e ∈ ag.chunks.entries)
    (hi : InRecord e ino) (hhigh : 2 ^ 32 ≤ e.1 + CHUNK_INODES) :
    freeInode ino ag = .error (.panic "attempt to add with overflow") ag := by
  unfold freeInode
  simp only [get_bind_apply, h.lastUpTo he hi]
  rw [act_throwIf_bind_of (by simpa using hhigh)]

/-- What a call that succeeds has done: the inode is one of a chunk, which has it free
afterwards. -/
theorem freeInode_eq_ok (h : freeInode ino ag = .ok () ag') :
    ∃ e ∈ ag.chunks.entries, InRecord e ino ∧ e.2.free.testBit (ino - e.1) = false ∧
      ag' = { ag with chunks := ag.chunks.insert e.1 (e.2.give (ino - e.1)), dirty := true } := by
  unfold freeInode at h
  simp only [get_bind_apply] at h
  obtain ⟨-, h⟩ := act_throwIf_bind_eq_ok.mp h
  cases hf : (ag.chunks.lastUpTo ino).filter fun e => decide (ino < e.1 + CHUNK_INODES) with
  | none => simp [hf] at h
  | some e =>
      simp only [hf] at h
      obtain ⟨hbit, h⟩ := act_throwIf_bind_eq_ok.mp h
      simp only [set_apply, EStateM.Result.ok.injEq] at h
      obtain ⟨hlast, hin⟩ := Option.filter_eq_some_iff.mp hf
      obtain ⟨he, hle, -⟩ := OrdMap.lastUpTo_eq_some hlast
      exact ⟨e, he, ⟨hle, of_decide_eq_true hin⟩, by simpa using hbit, h.2.symm⟩

theorem freeInode_outside (hno : ∀ e ∈ ag.chunks.entries, ¬InRecord e ino) :
    ∃ err, freeInode ino ag = .error err ag := by
  unfold freeInode
  simp only [get_bind_apply]
  by_cases hover : ∃ e ∈ ag.chunks.lastUpTo ino, 2 ^ 32 ≤ e.1 + CHUNK_INODES
  · rw [act_throwIf_bind_of hover]
    exact ⟨_, rfl⟩
  have hnone : ((ag.chunks.lastUpTo ino).filter fun e => decide (ino < e.1 + CHUNK_INODES)) =
      none := by
    cases hl : ag.chunks.lastUpTo ino with
    | none => rfl
    | some x =>
        obtain ⟨hx, hle, -⟩ := OrdMap.lastUpTo_eq_some hl
        rw [Option.filter_some_neg]
        simpa using fun hlt => hno x hx ⟨hle, hlt⟩
  rw [act_throwIf_bind_of_not hover, hnone]
  exact ⟨_, rfl⟩

end

/-! ## What each keeps -/

section
variable {sb : Superblock} {ag ag' : Ag} {ino : Nat}

theorem ChunkSound.take {free : OrdMap Nat Nat} {e : Nat × Chunk} {i : Nat}
    (h : ChunkSound sb free e) (hu : e.2.usable i = true) :
    ChunkSound sb free (e.1, e.2.take i) where
  short := h.short
  aligned := h.aligned
  count := h.count
  taken := h.taken
  holes j hj hhole := by
    simp only [Chunk.hole_take] at hhole
    rw [Chunk.testBit_take hj, h.holes j hj hhole]
    have hne : i ≠ j := by
      rintro rfl
      simp [(Chunk.usable_iff.mp hu).2] at hhole
    simp [hne]

theorem ChunkSound.give {free : OrdMap Nat Nat} {e : Nat × Chunk} {i : Nat}
    (h : ChunkSound sb free e) : ChunkSound sb free (e.1, e.2.give i) where
  short := h.short
  aligned := h.aligned
  count := h.count
  taken := h.taken
  holes j hj hhole := by
    simp only [Chunk.hole_give] at hhole
    rw [Chunk.testBit_give, h.holes j hj hhole, Bool.true_or]

/-- Less free space keeps a record sound. -/
theorem ChunkSound.of_le {free free' : OrdMap Nat Nat} {e : Nat × Chunk}
    (h : ChunkSound sb free e) (hle : ∀ b, freeAt free' b ≤ freeAt free b) :
    ChunkSound sb free' e where
  short := h.short
  aligned := h.aligned
  count := h.count
  holes := h.holes
  taken i hi hhole := Nat.le_zero.mp (h.taken i hi hhole ▸ hle _)

/-- One record replaced by a sound one. -/
theorem chunksSound_insert {e : Nat × Chunk} {dirty : Bool} (h : ChunksSound sb ag)
    (he : ChunkSound sb ag.free e) :
    ChunksSound sb { ag with chunks := ag.chunks.insert e.1 e.2, dirty := dirty } := by
  refine chunksSound_of_each fun x hx => ?_
  rcases OrdMap.mem_insert.mp hx with rfl | ⟨hx, -⟩
  · exact he
  · exact h.sound x hx

/-- An inode in use stays so while another record, or another inode of its record,
changes. -/
theorem InUse.insert {chunks : OrdMap Nat Chunk} {e : Nat × Chunk} {c : Chunk}
    (h : InUse chunks ino) (he : e ∈ chunks.entries) (hhole : ∀ i, c.hole i = e.2.hole i)
    (hbit : InRecord e ino → e.2.free.testBit (ino - e.1) = false →
      c.free.testBit (ino - e.1) = false) : InUse (chunks.insert e.1 c) ino := by
  obtain ⟨x, hx, hin, hpres, hused⟩ := h
  by_cases heq : x.1 = e.1
  · obtain rfl := OrdMap.eq_of_fst_eq hx he heq
    exact ⟨(x.1, c), OrdMap.mem_insert.mpr (Or.inl rfl), hin, (hhole _).trans hpres,
      hbit hin hused⟩
  · exact ⟨x, OrdMap.mem_insert.mpr (Or.inr ⟨hx, heq⟩), hin, hpres, hused⟩

/-- An inode that can be taken is there and not in use. -/
theorem usable_free (h : ChunksSound sb ag) {e : Nat × Chunk} (he : e ∈ ag.chunks.entries) {i : Nat}
    (hi : i < CHUNK_INODES) (hu : e.2.usable i = true) :
    Present ag.chunks (e.1 + i) ∧ ¬InUse ag.chunks (e.1 + i) := by
  obtain ⟨hbit, hhole⟩ := Chunk.usable_iff.mp hu
  have hin : InRecord e (e.1 + i) := ⟨Nat.le_add_right _ _, Nat.add_lt_add_left hi _⟩
  have hidx : e.1 + i - e.1 = i := Nat.add_sub_cancel_left _ _
  refine ⟨⟨e, he, hin, by rwa [hidx]⟩, ?_⟩
  rintro ⟨x, hx, hxin, -, hxbit⟩
  obtain rfl := h.eq_of_inRecord he hx hin hxin
  rw [hidx, hbit] at hxbit
  cases hxbit

/-- What the group is between operations, with `out` the inodes handed out and not given
back since. -/
structure ChunksKept (sb : Superblock) (ag : Ag) (out : Set Nat) : Prop where
  space : SpaceOk ag
  len_le : ag.len ≤ sb.agBlocks
  agi : AGI_CRC + 4 ≤ ag.agi.length
  chunks : ChunksSound sb ag
  used : ∀ i ∈ out, InUse ag.chunks i

variable {out : Set Nat}

theorem ChunksKept.allocInode (h : ChunksKept sb ag out) :
    (allocInode ag = .ok none ag ∧ ∀ e ∈ ag.chunks.entries, ¬0 < e.2.freeCount) ∨
    ∃ i ag', allocInode ag = .ok (some i) ag' ∧ Present ag.chunks i ∧ ¬InUse ag.chunks i ∧
      ChunksKept sb ag' (insert i out) := by
  refine (allocInode_eq fun e he => (h.chunks.sound e he).stop_le).imp_right ?_
  rintro ⟨e, he, i, hi, hu, hrun⟩
  have hhole := (Chunk.usable_iff.mp hu).2
  have hin : InRecord e (e.1 + i) := ⟨Nat.le_add_right _ _, Nat.add_lt_add_left hi _⟩
  have hidx : e.1 + i - e.1 = i := Nat.add_sub_cancel_left _ _
  obtain ⟨hthere, hfree⟩ := usable_free h.chunks he hi hu
  refine ⟨_, _, hrun, hthere, hfree, h.space.of_same rfl rfl rfl,
    h.len_le, h.agi, chunksSound_insert (e := (e.1, e.2.take i)) h.chunks ((h.chunks.sound e he).take hu), ?_⟩
  rintro j (rfl | hj)
  · refine ⟨(e.1, e.2.take i), OrdMap.mem_insert.mpr (Or.inl rfl), hin, by simpa [hidx] using hhole, ?_⟩
    rw [hidx, Chunk.testBit_take hi]
    simp
  · refine (h.used j hj).insert he (fun _ => rfl) fun hjin hjbit => ?_
    rw [Chunk.testBit_take (by have := hjin.2; have := hjin.1; unfold CHUNK_INODES at *; omega), hjbit,
      Bool.false_and]

/-- The end of every record with an inode that is there fits 32 bits. -/
def StopsFit (chunks : OrdMap Nat Chunk) : Prop :=
  ∀ e ∈ chunks.entries, (∃ i < CHUNK_INODES, e.2.hole i = false) → e.1 + CHUNK_INODES < 2 ^ 32

theorem StopsFit.insert {chunks : OrdMap Nat Chunk} {e : Nat × Chunk} (h : StopsFit chunks)
    (he : (∃ i < CHUNK_INODES, e.2.hole i = false) → e.1 + CHUNK_INODES < 2 ^ 32) :
    StopsFit (chunks.insert e.1 e.2) := by
  intro x hx
  rcases OrdMap.mem_insert.mp hx with rfl | ⟨hx, -⟩
  · exact he
  · exact h x hx

theorem InUse.present {chunks : OrdMap Nat Chunk} (h : InUse chunks ino) : Present chunks ino := by
  obtain ⟨e, he, hin, hhole, -⟩ := h
  exact ⟨e, he, hin, hhole⟩

/-- `free_inode` is for inodes in use only. -/
theorem inUse_of_freeInode (h : ChunksSound sb ag) (hrun : freeInode ino ag = .ok () ag') :
    InUse ag.chunks ino := by
  obtain ⟨e, he, hin, hbit, -⟩ := freeInode_eq_ok hrun
  have hlt : ino - e.1 < CHUNK_INODES := by
    have := hin.1
    have := hin.2
    omega
  exact ⟨e, he, hin, (h.sound e he).not_hole hlt hbit, hbit⟩

/-- It succeeds on all of them when the ends of their records fit. -/
theorem freeInode_succeeds_iff (h : ChunksSound sb ag) (hfit : StopsFit ag.chunks) :
    (∃ ag', freeInode ino ag = .ok () ag') ↔ InUse ag.chunks ino := by
  refine ⟨fun ⟨_, hrun⟩ => inUse_of_freeInode h hrun, ?_⟩
  rintro ⟨e, he, hin, hhole, hbit⟩
  have hlt : ino - e.1 < CHUNK_INODES := by
    have := hin.1
    have := hin.2
    omega
  rw [freeInode_eq h he hin (hfit e he ⟨_, hlt, hhole⟩), if_neg (by simp [hbit])]
  exact ⟨_, rfl⟩

theorem ChunksKept.freeInode (h : ChunksKept sb ag out) :
    (∃ e, freeInode ino ag = .error e ag) ∨
    InUse ag.chunks ino ∧ ∃ ag', freeInode ino ag = .ok () ag' ∧
      ChunksKept sb ag' (out \ {ino}) := by
  by_cases hin : ∃ e ∈ ag.chunks.entries, InRecord e ino
  swap
  · exact Or.inl (freeInode_outside fun e he hei => hin ⟨e, he, hei⟩)
  obtain ⟨e, he, hei⟩ := hin
  by_cases hlow : e.1 + CHUNK_INODES < 2 ^ 32
  swap
  · exact Or.inl ⟨_, freeInode_panics h.chunks he hei (Nat.not_lt.mp hlow)⟩
  have hrun := freeInode_eq h.chunks he hei hlow
  by_cases hbit : e.2.free.testBit (ino - e.1) = true
  · rw [if_pos hbit] at hrun
    exact Or.inl ⟨_, hrun⟩
  · rw [if_neg hbit] at hrun
    refine Or.inr ⟨inUse_of_freeInode h.chunks hrun, _, hrun, h.space.of_same rfl rfl rfl, h.len_le,
      h.agi, chunksSound_insert (e := (e.1, e.2.give (ino - e.1))) h.chunks
        (h.chunks.sound e he).give, ?_⟩
    rintro j ⟨hj, hne⟩
    refine (h.used j hj).insert he (fun _ => rfl) fun hji hjbit => ?_
    have hidx : ino - e.1 ≠ j - e.1 := by
      have := hei.1
      have := hji.1
      have : j ≠ ino := hne
      omega
    rw [Chunk.testBit_give, hjbit, decide_eq_false hidx, Bool.or_self]

end

/-! ## New chunks -/

section
variable {sb : Superblock} {ag ag' : Ag} {out : Set Nat}

/-- The blocks of a chunk, and what they are aligned to. -/
def chunkBlocks (sb : Superblock) : Nat := CHUNK_INODES / sb.inodesPerBlock
def chunkAlign (sb : Superblock) : Nat := max (max sb.inodeAlign (chunkBlocks sb)) 1

/-- No aligned run of `len` blocks can be had. -/
def NoPlace (ag : Ag) (len align : Nat) : Prop :=
  ag.spare < len ∨ ∀ e ∈ ag.free.entries, alignedIn len align e = none

theorem alignedIn_eq_some {len align s : Nat} {e : Nat × Nat} (h : alignedIn len align e = some s) :
    align ∣ s ∧ s + len ≤ e.1 + e.2 := by
  unfold alignedIn at h
  simp only at h
  split at h
  · rename_i hle
    obtain rfl := Option.some.inj h
    exact ⟨Nat.dvd_mul_left _ _, hle⟩
  · cases h

theorem le_of_alignedIn {len align s : Nat} {e : Nat × Nat} (halign : 0 < align)
    (h : alignedIn len align e = some s) : e.1 ≤ s := by
  unfold alignedIn at h
  simp only [Option.ite_none_right_eq_some, Option.some.injEq] at h
  rw [← h.2]
  exact le_divCeil_mul halign

/-- `alloc_aligned` takes an aligned run whenever one can be had. -/
theorem allocAligned_eq {len align : Nat} (hf : FreeOk ag.free) (hlen : 0 < len)
    (halign : 0 < align) : (allocAligned len align ag = .ok none ag ∧ NoPlace ag len align) ∨
      ∃ s ag', allocAligned len align ag = .ok (some s) ag' ∧ align ∣ s ∧ Allocated ag ag' s len ∧
        ¬NoPlace ag len align := by
  by_cases hspare : ag.spare < len
  · refine Or.inl ⟨?_, Or.inl hspare⟩
    unfold allocAligned
    simp [hspare]
  have hrun : allocAligned len align ag = (ag.free.entries.findSome? (alignedIn len align)).elim
      (.ok none ag) fun s => (take s len >>= fun _ => pure (some s)) ag := by
    unfold allocAligned
    simp only [get_bind_apply]
    rw [if_neg hspare, act_throwIf_bind_of_not (by omega)]
    cases ag.free.entries.findSome? (alignedIn len align) <;> rfl
  cases ha : ag.free.entries.findSome? (alignedIn len align) with
  | none =>
      simp only [ha, Option.elim_none] at hrun
      exact Or.inl ⟨hrun, Or.inr (List.findSome?_eq_none_iff.mp ha)⟩
  | some s =>
      obtain ⟨x, hx, hxs⟩ := List.exists_of_findSome?_eq_some ha
      obtain ⟨hdvd, hle⟩ := alignedIn_eq_some hxs
      obtain ⟨u, ag', htake⟩ :=
        exists_of_isOk (take_succeeds hf (s := s) hx (le_of_alignedIn halign hxs) hlen hle)
      simp only [ha, Option.elim_some] at hrun
      rw [bind_of_ok htake, pure_apply] at hrun
      refine Or.inr ⟨s, ag', hrun, hdvd, allocAligned_ok hf hlen hrun, fun hno => ?_⟩
      rcases hno with hfew | hnowhere
      · exact hspare hfew
      · rw [hnowhere x hx] at hxs
        cases hxs

theorem chunkBlocks_pos (h : sb.Sound) (hper : sb.inodesPerBlock ≤ 64) : 0 < chunkBlocks sb :=
  Nat.div_pos hper h.inodesPerBlock_pos

/-- A chunk fills its blocks. -/
theorem chunkBlocks_mul (h : sb.Sound) (hper : sb.inodesPerBlock ≤ 64) :
    chunkBlocks sb * 2 ^ sb.inopbLog = CHUNK_INODES := by
  have hle : sb.inopbLog ≤ 6 := by
    rw [h.inopb_eq] at hper
    exact (Nat.pow_le_pow_iff_right (by norm_num : 1 < 2)).mp (hper : 2 ^ sb.inopbLog ≤ 2 ^ 6)
  have hdvd : 2 ^ sb.inopbLog ∣ CHUNK_INODES :=
    (Nat.pow_dvd_pow 2 hle : 2 ^ sb.inopbLog ∣ 2 ^ 6)
  unfold chunkBlocks
  rw [h.inopb_eq]
  exact Nat.div_mul_cancel hdvd

/-- The alignment of a chunk is a multiple of its blocks. -/
theorem chunkBlocks_dvd_align (hpos : 0 < chunkBlocks sb)
    (h : sb.inodeAlign ≤ chunkBlocks sb ∨ chunkBlocks sb ∣ sb.inodeAlign) :
    chunkBlocks sb ∣ chunkAlign sb := by
  unfold chunkAlign
  rw [max_eq_left (Nat.le_trans hpos (Nat.le_max_right _ _))]
  rcases h with hle | hdvd
  · rw [max_eq_right hle]
  · rcases Nat.le_total sb.inodeAlign (chunkBlocks sb) with hle | hge
    · rw [max_eq_right hle]
    · rwa [max_eq_left hge]

/-- The group with a new chunk at AG block `s`. -/
def withChunk (sb : Superblock) (ag : Ag) (s : Nat) : Ag :=
  { ag with
    chunks := ag.chunks.insert ((s <<< sb.inopbLog) % 2 ^ 32) ⟨0, CHUNK_INODES, 2 ^ 64 - 1⟩
    rmap := if sb.hasRmapbt then ag.rmap.insert ⟨s, OWN_INODES, 0, chunkBlocks sb⟩ () else ag.rmap
    dirty := true }

/-- `alloc_chunk` places a chunk whenever an aligned run can be had. -/
theorem allocChunk_eq (hf : FreeOk ag.free) (hpos : 0 < chunkBlocks sb) :
    (allocChunk sb ag = .ok none ag ∧ NoPlace ag (chunkBlocks sb) (chunkAlign sb)) ∨
    ∃ s ag1, allocChunk sb ag = .ok (some s) (withChunk sb ag1 s) ∧ chunkAlign sb ∣ s ∧
      Allocated ag ag1 s (chunkBlocks sb) ∧ ¬NoPlace ag (chunkBlocks sb) (chunkAlign sb) := by
  have halign : 0 < chunkAlign sb := Nat.le_max_right _ _
  unfold allocChunk
  rcases allocAligned_eq hf hpos halign with ⟨hrun, hno⟩ | ⟨s, ag1, hrun, hdvd, hal, hplace⟩
  · exact Or.inl ⟨bind_of_ok hrun, hno⟩
  · refine Or.inr ⟨s, ag1, (bind_of_ok hrun).trans ?_, hdvd, hal, hplace⟩
    unfold withChunk rmapAdd
    cases sb.hasRmapbt <;> rfl

/-- No chunk's first inode number is too long. -/
theorem chunkStart_eq (hs : sb.Sound) (hlog : sb.agblkLog + sb.inopbLog < 32) {s : Nat}
    (hslt : s < sb.agBlocks) : (s <<< sb.inopbLog) % 2 ^ 32 = s * 2 ^ sb.inopbLog := by
  rw [Nat.shiftLeft_eq]
  refine Nat.mod_eq_of_lt ?_
  calc s * 2 ^ sb.inopbLog < 2 ^ sb.agblkLog * 2 ^ sb.inopbLog :=
        Nat.mul_lt_mul_of_pos_right (Nat.lt_of_lt_of_le hslt hs.agBlocks_le) (Nat.two_pow_pos _)
    _ = 2 ^ (sb.agblkLog + sb.inopbLog) := (Nat.pow_add _ _ _).symm
    _ ≤ 2 ^ 32 := Nat.pow_le_pow_right (by norm_num) (by omega)

/-- A chunk's inodes sit in its blocks. -/
theorem blockOf_chunk (hs : sb.Sound) (hper : sb.inodesPerBlock ≤ 64) (s : Nat) {i : Nat}
    (hi : i < CHUNK_INODES) : blockOf sb (s * 2 ^ sb.inopbLog + i) = s + i / 2 ^ sb.inopbLog ∧
      i / 2 ^ sb.inopbLog < chunkBlocks sb := by
  constructor
  · unfold blockOf
    rw [Nat.add_comm, Nat.add_mul_div_right _ _ (Nat.two_pow_pos _), Nat.add_comm]
  · rwa [Nat.div_lt_iff_lt_mul (Nat.two_pow_pos _), chunkBlocks_mul hs hper]

/-- A new chunk lands clear of every inode that is there. -/
theorem ChunksKept.allocChunk (hs : sb.Sound) (hper : sb.inodesPerBlock ≤ 64)
    (halign : sb.inodeAlign ≤ chunkBlocks sb ∨ chunkBlocks sb ∣ sb.inodeAlign)
    (hlog : sb.agblkLog + sb.inopbLog < 32) (h : ChunksKept sb ag out) :
    (allocChunk sb ag = .ok none ag ∧ NoPlace ag (chunkBlocks sb) (chunkAlign sb)) ∨
    ∃ s ag', allocChunk sb ag = .ok (some s) ag' ∧ ChunksKept sb ag' out ∧
      (StopsFit ag.chunks → StopsFit ag'.chunks) := by
  have hpos := chunkBlocks_pos hs hper
  refine (allocChunk_eq h.space.freeOk hpos).imp_right ?_
  rintro ⟨s, ag1, hrun, hdvd, hal, -⟩
  obtain ⟨free', htakes, rfl⟩ := hal.takes
  have hle : ∀ b, freeAt free' b ≤ freeAt ag.free b := fun b => by
    have := htakes.at_ b
    omega
  -- The run was free, so it is inside the group.
  have hrunfree : ∀ b, s ≤ b → b < s + chunkBlocks sb → freeAt ag.free b = 1 := by
    intro b h1 h2
    have hat := htakes.at_ b
    have := h.space.freeOk.once b
    rw [within_eq_one.mpr ⟨h1, h2⟩] at hat
    omega
  have hslt : s < sb.agBlocks := Nat.lt_of_lt_of_le
    (h.space.inside s (by rw [hrunfree s (le_refl s) (by omega)]; omega)) h.len_le
  have hstart := chunkStart_eq hs hlog hslt
  have hmul := chunkBlocks_mul hs hper
  have hstop : s * 2 ^ sb.inopbLog + CHUNK_INODES < 2 ^ 32 := by
    have hlast := Nat.lt_of_lt_of_le
      (h.space.inside (s + chunkBlocks sb - 1) (by rw [hrunfree _ (by omega) (by omega)]; omega)) h.len_le
    calc s * 2 ^ sb.inopbLog + CHUNK_INODES = (s + chunkBlocks sb) * 2 ^ sb.inopbLog := by
          rw [Nat.add_mul, hmul]
      _ ≤ 2 ^ sb.agblkLog * 2 ^ sb.inopbLog :=
          Nat.mul_le_mul_right _ ((show s + chunkBlocks sb ≤ sb.agBlocks by omega).trans hs.agBlocks_le)
      _ = 2 ^ (sb.agblkLog + sb.inopbLog) := (Nat.pow_add _ _ _).symm
      _ < 2 ^ 32 := Nat.pow_lt_pow_right (by norm_num) hlog
  have hin : ∀ i < CHUNK_INODES, within s (chunkBlocks sb)
      (blockOf sb (s * 2 ^ sb.inopbLog + i)) = 1 := by
    intro i hi
    obtain ⟨heq, hlt⟩ := blockOf_chunk hs hper s hi
    rw [heq]
    exact within_eq_one.mpr ⟨Nat.le_add_right _ _, Nat.add_lt_add_left hlt _⟩
  refine ⟨s, _, hrun, ⟨(h.space.allocated hal).of_same rfl rfl rfl, h.len_le, h.agi, ?_, ?_⟩,
    fun hfit => ?_⟩
  · refine chunksSound_of_each fun e he => ?_
    simp only [withChunk, hstart] at he ⊢
    rcases OrdMap.mem_insert.mp he with rfl | ⟨he, -⟩
    · refine ⟨?_, ?_, fun i _ hhole => by simp [Chunk.hole] at hhole, by simp, fun i hi _ => ?_⟩
      · rw [← hstart]
        exact Nat.mod_lt _ (by norm_num)
      · -- An aligned block starts a chunk's worth of inodes.
        obtain ⟨k, hk⟩ := (chunkBlocks_dvd_align hpos halign).trans hdvd
        exact ⟨k, by rw [hk, ← hmul]; ring⟩
      · have := htakes.at_ (blockOf sb (s * 2 ^ sb.inopbLog + i))
        have := h.space.freeOk.once (blockOf sb (s * 2 ^ sb.inopbLog + i))
        have := hin i hi
        simp only at *
        omega
    · exact (h.chunks.sound e he).of_le hle
  · intro i hi
    obtain ⟨e, he, hei, hhole, hbit⟩ := h.used i hi
    simp only [withChunk, hstart]
    refine ⟨e, OrdMap.mem_insert.mpr (Or.inr ⟨he, fun heq => ?_⟩), hei, hhole, hbit⟩
    -- A record at the same start would have an inode in a free block.
    have hlt : i - e.1 < CHUNK_INODES := by
      have := hei.1
      have := hei.2
      omega
    have htaken := (h.chunks.sound e he).taken _ hlt hhole
    rw [heq] at htaken hlt
    obtain ⟨hbeq, hblt⟩ := blockOf_chunk hs hper s hlt
    rw [hbeq, hrunfree _ (Nat.le_add_right _ _) (Nat.add_lt_add_left hblt _)] at htaken
    cases htaken
  · simp only [withChunk, hstart]
    exact StopsFit.insert (e := (s * 2 ^ sb.inopbLog, _)) hfit fun _ => hstop

end

/-! ## Runs -/

/-- One call on the group, with the inodes handed out and not given back since. -/
inductive ChunkStep (sb : Superblock) : Ag × Set Nat → Ag × Set Nat → Prop where
  | allocInode {ag ag' : Ag} {out : Set Nat} {i : Nat} (h : allocInode ag = .ok (some i) ag') :
      ChunkStep sb (ag, out) (ag', insert i out)
  | noInode {ag ag' : Ag} {out : Set Nat} (h : allocInode ag = .ok none ag') :
      ChunkStep sb (ag, out) (ag', out)
  | allocChunk {ag ag' : Ag} {out : Set Nat} {r : Option Nat} (h : allocChunk sb ag = .ok r ag') :
      ChunkStep sb (ag, out) (ag', out)
  | freeInode {ag ag' : Ag} {out : Set Nat} {i : Nat} (h : freeInode i ag = .ok () ag') :
      ChunkStep sb (ag, out) (ag', out \ {i})
  | refused {ag ag' : Ag} {out : Set Nat} {i : Nat} {e : Error}
      (h : freeInode i ag = .error e ag') : ChunkStep sb (ag, out) (ag', out)

section
variable {sb : Superblock}

theorem ChunkStep.kept (hs : sb.Sound) (hper : sb.inodesPerBlock ≤ 64)
    (halign : sb.inodeAlign ≤ chunkBlocks sb ∨ chunkBlocks sb ∣ sb.inodeAlign)
    (hlog : sb.agblkLog + sb.inopbLog < 32) {p q : Ag × Set Nat} (hp : ChunksKept sb p.1 p.2)
    (hstep : ChunkStep sb p q) : ChunksKept sb q.1 q.2 := by
  cases hstep with
  | allocInode h =>
      rcases hp.allocInode with ⟨hrun, -⟩ | ⟨i, ag', hrun, -, -, hkept⟩ <;> rw [hrun] at h <;>
        cases h
      exact hkept
  | noInode h =>
      rcases hp.allocInode with ⟨hrun, -⟩ | ⟨i, ag', hrun, -⟩ <;> rw [hrun] at h <;> cases h
      exact hp
  | allocChunk h =>
      rcases hp.allocChunk hs hper halign hlog with ⟨hrun, -⟩ | ⟨s, ag', hrun, hkept, -⟩ <;>
        rw [hrun] at h <;> cases h
      · exact hp
      · exact hkept
  | freeInode h =>
      rcases hp.freeInode with ⟨e, hrun⟩ | ⟨-, ag', hrun, hkept⟩ <;> rw [hrun] at h <;> cases h
      exact hkept
  | refused h =>
      rcases hp.freeInode with ⟨e, hrun⟩ | ⟨-, ag', hrun, -⟩ <;> rw [hrun] at h <;> cases h
      exact hp

theorem ChunkStep.stopsFit (hs : sb.Sound) (hper : sb.inodesPerBlock ≤ 64)
    (halign : sb.inodeAlign ≤ chunkBlocks sb ∨ chunkBlocks sb ∣ sb.inodeAlign)
    (hlog : sb.agblkLog + sb.inopbLog < 32) {p q : Ag × Set Nat} (hp : ChunksKept sb p.1 p.2)
    (hstep : ChunkStep sb p q) (hfit : StopsFit p.1.chunks) : StopsFit q.1.chunks := by
  cases hstep with
  | allocInode h =>
      rcases allocInode_eq_ok h with ⟨hno, -⟩ | ⟨e, he, i, hi, hu, -, rfl⟩
      · cases hno
      · exact StopsFit.insert (e := (e.1, e.2.take i)) hfit fun hhole => hfit e he hhole
  | noInode h =>
      rcases allocInode_eq_ok h with ⟨-, rfl⟩ | ⟨e, he, i, hi, hu, hsome, -⟩
      · exact hfit
      · cases hsome
  | allocChunk h =>
      rcases hp.allocChunk hs hper halign hlog with ⟨hrun, -⟩ | ⟨s, ag', hrun, -, hkeeps⟩ <;>
        rw [hrun] at h <;> cases h
      · exact hfit
      · exact hkeeps hfit
  | freeInode h =>
      obtain ⟨e, he, -, -, rfl⟩ := freeInode_eq_ok h
      exact StopsFit.insert (e := (e.1, e.2.give _)) hfit fun hhole => hfit e he hhole
  | refused h =>
      rcases hp.freeInode with ⟨e, hrun⟩ | ⟨-, ag', hrun, -⟩ <;> rw [hrun] at h <;> cases h
      exact hfit

/-- A group as it is loaded starts the run. -/
theorem kept_of_loaded {dev : Device} {agno : Nat} {ag : Ag} (hload : load dev sb agno = .ok ag)
    (h : ChunksSound sb ag) : ChunksKept sb ag ∅ := by
  obtain ⟨run⟩ := load_ok hload
  exact ⟨run.spaceOk, (Superblock.agLen_le run.agLen).1,
    length_of_verify run.verified.2, h, by simp⟩

/-! ## An inode that cannot be freed -/

/-- Taking an inode leaves less marked free. -/
theorem weight_free_take {chunks : OrdMap Nat Chunk} {e : Nat × Chunk} {i : Nat}
    (he : e ∈ chunks.entries) (hi : i < CHUNK_INODES) (hu : e.2.usable i = true) :
    (chunks.insert e.1 (e.2.take i)).weight (·.2.free) < chunks.weight (·.2.free) := by
  have hlt : (e.2.take i).free < e.2.free := by
    refine Nat.lt_of_le_of_ne Nat.and_le_left fun heq => ?_
    have hbit := @Chunk.testBit_take e.2 i i hi
    rw [heq, (Chunk.usable_iff.mp hu).1] at hbit
    simp at hbit
  have := OrdMap.weight_replace (fun x : Nat × Chunk => x.2.free) he (e.2.take i)
  simp only at this
  omega

theorem Present.insert {chunks : OrdMap Nat Chunk} {e : Nat × Chunk} {c : Chunk} {i : Nat}
    (h : Present chunks i) (he : e ∈ chunks.entries) (hhole : ∀ i, c.hole i = e.2.hole i) :
    Present (chunks.insert e.1 c) i := by
  obtain ⟨x, hx, hin, hpres⟩ := h
  by_cases heq : x.1 = e.1
  · obtain rfl := OrdMap.eq_of_fst_eq hx he heq
    exact ⟨(x.1, c), OrdMap.mem_insert.mpr (Or.inl rfl), hin, (hhole _).trans hpres⟩
  · exact ⟨x, OrdMap.mem_insert.mpr (Or.inr ⟨hx, heq⟩), hin, hpres⟩

/-- An inode that is there is in use, or can be taken. -/
theorem inUse_or_usable {chunks : OrdMap Nat Chunk} {i : Nat} (h : Present chunks i) :
    InUse chunks i ∨ ∃ e ∈ chunks.entries, 0 < e.2.freeCount := by
  obtain ⟨e, he, hin, hhole⟩ := h
  cases hbit : e.2.free.testBit (i - e.1) with
  | false => exact Or.inl ⟨e, he, hin, hhole, hbit⟩
  | true =>
      refine Or.inr ⟨e, he, Chunk.freeCount_pos.mpr ⟨i - e.1, ?_, Chunk.usable_iff.mpr ⟨hbit, hhole⟩⟩⟩
      have := hin.1
      have := hin.2
      omega

/-- Any inode that is there is handed out in the end, if `alloc_inode` is called often enough. -/
theorem exists_inUse {i : Nat} : ∀ {n : Nat} {ag : Ag} {out : Set Nat}, ChunksKept sb ag out →
    ag.chunks.weight (·.2.free) < n → Present ag.chunks i →
    ∃ ag' out', Relation.ReflTransGen (ChunkStep sb) (ag, out) (ag', out') ∧ InUse ag'.chunks i := by
  intro n
  induction n with
  | zero => exact fun _ hn => absurd hn (Nat.not_lt_zero _)
  | succ n ih =>
      intro ag out hkept hn hthere
      rcases inUse_or_usable hthere with huse | ⟨x, hx, hpos⟩
      · exact ⟨ag, out, .refl, huse⟩
      rcases hkept.allocInode with ⟨-, hno⟩ | ⟨j, ag1, hrun, -, -, hkept1⟩
      · exact absurd hpos (hno x hx)
      rcases allocInode_eq_ok hrun with ⟨hnone, -⟩ | ⟨e, he, k, hk, hu, -, rfl⟩
      · cases hnone
      have hless := weight_free_take he hk hu
      obtain ⟨ag', out', hruns, huse⟩ := ih hkept1 (by simp only; omega)
        (hthere.insert he fun _ => Chunk.hole_take)
      exact ⟨ag', out', .head (.allocInode hrun) hruns, huse⟩

/-- An inode of the last record there can be is never freed. -/
theorem not_freed {ag : Ag} {i : Nat} (h : ChunksSound sb ag) (hthere : Present ag.chunks i)
    (hhigh : 2 ^ 32 ≤ i + CHUNK_INODES) : ¬∃ ag', freeInode i ag = .ok () ag' := by
  obtain ⟨e, he, hin, -⟩ := hthere
  rw [freeInode_panics h he hin]
  · rintro ⟨_, hrun⟩
    cases hrun
  · have hstop := (h.sound e he).stop_le
    obtain ⟨m, hm⟩ := (h.sound e he).aligned
    have := hin.2
    unfold CHUNK_INODES at *
    omega

/-! ## The promise -/

/-- What is promised of a group, with `out` the inodes handed out and not given back since: the
chunks are sound; `alloc_inode` and `alloc_chunk` do not fail; an inode handed out was there, free
and not handed out already; exactly the inodes in use can be freed; and the free inode tree that a
rebuild writes holds exactly the chunks with a free inode that is there. -/
structure ChunkPromise (sb : Superblock) (ag : Ag) (out : Set Nat) : Prop where
  sound : ChunksSound sb ag
  allocInode : ∃ r ag', allocInode ag = .ok r ag'
  allocChunk : ∃ r ag', allocChunk sb ag = .ok r ag'
  fresh : ∀ i ag', Alloc.allocInode ag = .ok (some i) ag' →
    Present ag.chunks i ∧ ¬InUse ag.chunks i ∧ i ∉ out
  freed : ∀ i, (∃ ag', freeInode i ag = .ok () ag') ↔ InUse ag.chunks i
  finobt : ∀ writes ag' dev name, rebuild sb ag = .ok writes ag' → sb.hasFinobt = true →
    Stands dev writes → ∃ blocks,
      collect (nodeOf (readTreeBlock dev sb ag.agno FINOBT name)) (be32 ag'.agi 332 - 1)
        (be32 ag'.agi 328) =
      some ((ag.chunks.entries.filter fun e => decide (0 < e.2.freeCount)).map
        fun e => (e.2.encode sb e.1).data, blocks)

theorem ChunksKept.promise {ag : Ag} {out : Set Nat} (hs : sb.Sound) (hper : sb.inodesPerBlock ≤ 64)
    (halign : sb.inodeAlign ≤ chunkBlocks sb ∨ chunkBlocks sb ∣ sb.inodeAlign)
    (hlog : sb.agblkLog + sb.inopbLog < 32) (h : ChunksKept sb ag out)
    (hfit : StopsFit ag.chunks) : ChunkPromise sb ag out where
  sound := h.chunks
  allocInode := by
    rcases h.allocInode with ⟨hrun, -⟩ | ⟨i, ag', hrun, -⟩ <;> exact ⟨_, _, hrun⟩
  allocChunk := by
    rcases h.allocChunk hs hper halign hlog with ⟨hrun, -⟩ | ⟨s, ag', hrun, -⟩ <;> exact ⟨_, _, hrun⟩
  fresh i ag' hi := by
    rcases h.allocInode with ⟨hno, -⟩ | ⟨j, ag1, hj, hpres, hfree, -⟩
    · rw [hno] at hi
      cases hi
    · rw [hj] at hi
      cases hi
      exact ⟨hpres, hfree, fun hout => hfree (h.used _ hout)⟩
  freed i := freeInode_succeeds_iff h.chunks hfit
  finobt writes ag' dev name hreb hfino hon := by
    obtain ⟨blocks, hcol⟩ := @finobt_reads sb ag dev name ag' writes hs h.space
      (h.len_le.trans hs.agBlocks_lt) h.agi hfino hreb hon
    refine ⟨blocks, hcol.trans ?_⟩
    rw [finobtRecs, List.map_map]
    rfl

/-- Over every run of calls on a loaded group with sound chunks the promise is kept exactly when
the end of every record with an inode that is there fits 32 bits: `free_inode` computes it. -/
theorem chunks_stay_sound {buf : Bytes} {dev : Device} {agno : Nat} {ag : Ag}
    (hsb : Superblock.parse buf = .ok sb) (hw : sb.checkWritable = .ok ())
    (hload : load dev sb agno = .ok ag) (hsound : ChunksSound sb ag)
    (halign : sb.inodeAlign ≤ chunkBlocks sb ∨ chunkBlocks sb ∣ sb.inodeAlign)
    (hlog : sb.agblkLog + sb.inopbLog < 32) :
    (∀ ag' out, Relation.ReflTransGen (ChunkStep sb) (ag, ∅) (ag', out) → ChunkPromise sb ag' out) ↔
      StopsFit ag.chunks := by
  have hs := Superblock.sound_of_parse hsb
  have hper := (Superblock.checkWritable_ok hw).2.2
  have hstart := kept_of_loaded hload hsound
  constructor
  · intro hprom e he ⟨i, hi, hhole⟩
    by_contra hover
    -- That inode is handed out in the end, and cannot be given back.
    have hin : InRecord e (e.1 + i) := ⟨Nat.le_add_right _ _, Nat.add_lt_add_left hi _⟩
    have hthere : Present ag.chunks (e.1 + i) := ⟨e, he, hin, by rwa [Nat.add_sub_cancel_left]⟩
    obtain ⟨ag', out, hruns, huse⟩ := exists_inUse hstart (Nat.lt_succ_self _) hthere
    have hkept := hprom ag' out hruns
    exact not_freed hkept.sound huse.present (by omega) ((hkept.freed _).mpr huse)
  · intro hfit ag' out hruns
    obtain ⟨hkept, hfit'⟩ := @run_invariant _ (ChunkStep sb)
      (fun p => ChunksKept sb p.1 p.2 ∧ StopsFit p.1.chunks)
      (fun p q hp hstep => ⟨hstep.kept hs hper halign hlog hp.1,
        hstep.stopsFit hs hper halign hlog hp.1 hp.2⟩) (ag, ∅) (ag', out) ⟨hstart, hfit⟩ hruns
    exact hkept.promise hs hper halign hlog hfit'

end

set_option maxRecDepth 100000 in
/-- On a new group a chunk is placed, its first inode taken and given back. -/
theorem chunks_stay_sound_fresh : ∃ ag1 ag2 ag3 : Ag,
    ChunkStep (freshSb 64 false) (freshAg 64 false, ∅) (ag1, ∅) ∧
    ChunkStep (freshSb 64 false) (ag1, ∅) (ag2, {64}) ∧
    ChunkStep (freshSb 64 false) (ag2, {64}) (ag3, {64} \ {64}) ∧
    ChunksSound (freshSb 64 false) ag3 ∧ Present ag3.chunks 64 ∧ ¬InUse ag3.chunks 64 := by
  have hparse : Superblock.parse (freshSector 64 false) = .ok (freshSb 64 false) := by
    decide +kernel
  have hload : load (freshDevice 64 false) (freshSb 64 false) 0 = .ok (freshAg 64 false) := by
    decide +kernel
  have h1 : allocChunk (freshSb 64 false) (freshAg 64 false) = .ok (some 32)
      { freshAg 64 false with
        free := .ofList [(8, 24)], freeTotal := 24, dirty := true
        chunks := .ofList [(64, ⟨0, 64, 2 ^ 64 - 1⟩)] } := by rfl
  have h2 : allocInode { freshAg 64 false with
        free := .ofList [(8, 24)], freeTotal := 24, dirty := true
        chunks := .ofList [(64, ⟨0, 64, 2 ^ 64 - 1⟩)] } = .ok (some 64)
      { freshAg 64 false with
        free := .ofList [(8, 24)], freeTotal := 24, dirty := true
        chunks := .ofList [(64, ⟨0, 64, 2 ^ 64 - 2⟩)] } := by rfl
  have h3 : freeInode 64 { freshAg 64 false with
        free := .ofList [(8, 24)], freeTotal := 24, dirty := true
        chunks := .ofList [(64, ⟨0, 64, 2 ^ 64 - 2⟩)] } = .ok ()
      { freshAg 64 false with
        free := .ofList [(8, 24)], freeTotal := 24, dirty := true
        chunks := .ofList [(64, ⟨0, 64, 2 ^ 64 - 1⟩)] } := by rfl
  have hs1 : ChunkStep (freshSb 64 false) (freshAg 64 false, ∅) (_, ∅) := .allocChunk h1
  have hs2 : ChunkStep (freshSb 64 false) (_, ∅) (_, insert 64 ∅) := .allocInode h2
  have hs3 : ChunkStep (freshSb 64 false) (_, insert 64 ∅) (_, insert 64 ∅ \ {64}) := .freeInode h3
  have hempty : ChunksSound (freshSb 64 false) (freshAg 64 false) :=
    ⟨fun e he => absurd he OrdMap.not_mem_empty, fun a ha => absurd ha OrdMap.not_mem_empty⟩
  have hmain := (chunks_stay_sound hparse (by decide) hload hempty (Or.inl (by decide)) (by decide)).mpr
    (fun e he => absurd he OrdMap.not_mem_empty) _ _
    (((Relation.ReflTransGen.single hs1).tail hs2).tail hs3)
  refine ⟨_, _, _, hs1, by simpa using hs2, by simpa using hs3, hmain.sound, ?_, fun huse => ?_⟩
  · exact ⟨(64, ⟨0, 64, 2 ^ 64 - 1⟩), by decide, ⟨by decide, by decide⟩, by decide⟩
  · obtain ⟨e, he, -, -, hbit⟩ := huse
    obtain rfl := List.mem_singleton.mp he
    exact absurd hbit (by decide)

/-- A group with a chunk at the last multiple of 64 below 2^32, its first inode in use. -/
def lastChunk : Chunk := ⟨0, CHUNK_INODES, 2 ^ 64 - 2⟩

def lastDevice : Device :=
  { data := (freshDevice 64 false).data.take (7 * 512) ++
      freshLeaf 64 false INOBT 7 [lastChunk.encode (freshSb 64 false) (2 ^ 32 - 64)]
    faults := [] }

def lastAg : Ag := { freshAg 64 false with chunks := .ofList [(2 ^ 32 - 64, lastChunk)] }

theorem chunkSound_last : ChunkSound (freshSb 64 false) lastAg.free (2 ^ 32 - 64, lastChunk) where
  short := by decide
  aligned := by decide
  holes i _ hhole := by simp [Chunk.hole, lastChunk] at hhole
  count := by decide
  taken i _ _ := by
    refine Nat.eq_zero_of_not_pos fun hpos => ?_
    obtain ⟨e, he, -, hlt⟩ := exists_of_freeAt_pos hpos
    obtain rfl := List.mem_singleton.mp he
    have hlog : (freshSb 64 false).inopbLog = 1 := by decide
    unfold blockOf at hlt
    rw [hlog] at hlt
    simp only at hlt
    omega

set_option maxRecDepth 100000 in
/-- The inode in use there is not freed. -/
theorem last_chunk_stuck : Superblock.parse (freshSector 64 false) = .ok (freshSb 64 false) ∧
    (freshSb 64 false).checkWritable = .ok () ∧
    load lastDevice (freshSb 64 false) 0 = .ok lastAg ∧ ChunksSound (freshSb 64 false) lastAg ∧
    (freshSb 64 false).inodeAlign ≤ chunkBlocks (freshSb 64 false) ∧
    (freshSb 64 false).agblkLog + (freshSb 64 false).inopbLog < 32 ∧
    InUse lastAg.chunks (2 ^ 32 - 64) ∧
    freeInode (2 ^ 32 - 64) lastAg = .error (.panic "attempt to add with overflow") lastAg ∧
    ¬ChunkPromise (freshSb 64 false) lastAg ∅ := by
  have hsound : ChunksSound (freshSb 64 false) lastAg := chunksSound_of_each fun e he => by
    obtain rfl := List.mem_singleton.mp he
    exact chunkSound_last
  have hmem : (2 ^ 32 - 64, lastChunk) ∈ lastAg.chunks.entries := List.mem_singleton.mpr rfl
  have hin : InRecord (2 ^ 32 - 64, lastChunk) (2 ^ 32 - 64) := ⟨by decide, by decide⟩
  have huse : InUse lastAg.chunks (2 ^ 32 - 64) := ⟨_, hmem, hin, by decide, by decide⟩
  exact ⟨by decide +kernel, by decide, by decide +kernel, hsound, by decide, by decide, huse,
    freeInode_panics hsound hmem hin (by decide), fun hprom =>
      not_freed hsound huse.present (by decide) ((hprom.freed _).mpr huse)⟩

end FioXfs.Alloc
