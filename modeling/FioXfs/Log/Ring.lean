import FioXfs.Log.Head
import Mathlib.Logic.Function.Basic
set_option autoImplicit false

/-!
# The log as it is written

A log starts as zeroes and is written record after record round its ring, every block
stamped with the cycle it is written in; when the writing stops, some of the blocks past
the last record may have been in flight.  However such a log came about, its state is
told by its last record.
-/

namespace FioXfs.Log

open FioXfs.Lib

/-! ## The last record decides -/

section
variable {log : Log} {h c at_ len : Nat}

theorem headerBefore_eq_ok (hin : log.Inside) (hbbs : 2 * log.totalRecBbs ≤ log.bbs)
    (hh : h < log.bbs) (hr : LastRecord log h c at_ len) :
    log.headerBefore h = .ok (at_, log.block at_) := by
  have hT := totalRecBbs_eq log
  have hlen := hr.len_pos
  have hat := hr.at_eq
  obtain ⟨r, hfound, hlast⟩ := @headerIn_eq_ok log hin 0 h h hh.le (by omega)
  unfold headerBefore
  rw [hfound, except_ok_bind]
  by_cases hfit : len ≤ h
  · rw [if_pos hfit] at hat
    rw [hlast.eq_some (x := at_) (Nat.zero_le _) (by omega) hr.starts (hr.data hfit)]
    rfl
  · -- The record's header stands before the end of the log.
    rw [if_neg hfit] at hat
    have hsmall := hr.len_le
    have hwrap := hr.data_wrapped (by omega)
    rw [hlast.eq_none fun i _ hi => hwrap.1 i hi]
    obtain ⟨r', hfound', hlast'⟩ := @headerIn_eq_ok log hin h log.bbs log.bbs (le_refl _)
      (by omega)
    rw [Option.map_none]
    dsimp only
    rw [hfound', except_ok_bind,
      hlast'.eq_some (x := at_) (by omega) (by omega) hr.starts hwrap.2]
    rfl

/-- The state of a stamped ring: clean when its last record is one operation that
unmounts, else dirty from that record's tail to the head. -/
theorem state_eq_ok (hin : log.Inside) (hbbs : 2 * log.totalRecBbs ≤ log.bbs)
    (hs : Stamped log h c) (hr : LastRecord log h c at_ len) :
    log.state = .ok (if be32 (log.block at_) 40 = 1 ∧ hasBit (getBe 1 (log.block
        ((at_ + log.hblks (log.block at_)) % log.bbs)) 9) UNMOUNT_TRANS = true then .clean
      else .dirty h (be64 (log.block at_) 24 % 2 ^ 32)) := by
  have hR := recBbs_pos log
  have hT := totalRecBbs_eq log
  have hh := hs.head_lt
  have hlen := hr.len_pos
  have hle := hr.len_le
  have hafter : h = (at_ + log.hblks (log.block at_) + bytesToBbs (be32 (log.block at_) 12)) %
      log.bbs := by
    have hat := hr.at_eq
    have heq := hr.len_eq
    by_cases hfit : len ≤ h
    · rw [if_pos hfit] at hat
      rw [show at_ + log.hblks (log.block at_) + bytesToBbs (be32 (log.block at_) 12) = h by omega,
        Nat.mod_eq_of_lt hh]
    · rw [if_neg hfit] at hat
      rw [show at_ + log.hblks (log.block at_) + bytesToBbs (be32 (log.block at_) 12) =
        h + log.bbs by omega, Nat.add_mod_right, Nat.mod_eq_of_lt hh]
  have hdata : log.unmounts at_ (log.hblks (log.block at_)) = .ok (hasBit (getBe 1 (log.block
      ((at_ + log.hblks (log.block at_)) % log.bbs)) 9) UNMOUNT_TRANS) := by
    unfold unmounts
    rw [read_eq_ok hin Nat.one_pos (Nat.mod_lt _ (by omega)), except_ok_bind, Nat.one_mul]
    rfl
  have hstate : log.stateAt h = .ok (if be32 (log.block at_) 40 = 1 ∧ hasBit (getBe 1 (log.block
        ((at_ + log.hblks (log.block at_)) % log.bbs)) 9) UNMOUNT_TRANS = true then .clean
      else .dirty h (be64 (log.block at_) 24 % 2 ^ 32)) := by
    unfold stateAt
    rw [headerBefore_eq_ok hin hbbs hh hr, except_ok_bind]
    dsimp only
    by_cases hone : be32 (log.block at_) 40 = 1
    · rw [if_pos ⟨hafter, hone⟩, hdata, except_ok_bind]
      simp only [hone, true_and]
      rfl
    · rw [if_neg (fun hboth => hone hboth.2), if_neg (fun hboth => hone hboth.1)]
      rfl
  unfold state
  rw [findHead_eq_ok hin hbbs hs hr, except_ok_bind]
  dsimp only
  by_cases hz : h = 0
  · -- At block 0 the log is not all zeroes: the cycle before this one stands there.
    have hhead := hs.head
    have hwrap := hs.wrapped hz
    rw [if_pos hz, cycle_eq_ok hin (by omega), except_ok_bind, if_neg (by rw [← hz]; omega), hstate]
  · rw [if_neg hz]
    simp only [pure, Except.pure, except_ok_bind]
    rw [if_neg Nat.one_ne_zero, hstate]

end

/-! ## How a ring is written -/

/-- The cycle the `g`th block written is stamped with, in a ring of `bbs` blocks. -/
def cycleAt (bbs g : Nat) : Nat := g / bbs + 1

/-- Blocks written one after another, the first of them as the `g`th of the log. -/
def writeBlocks (bbs : Nat) : (Nat → Bytes) → Nat → List Bytes → Nat → Bytes
  | ring, _, [] => ring
  | ring, g, b :: bs => writeBlocks bbs (Function.update ring (g % bbs) b) (g + 1) bs

/-- A log record: its header block, then more header blocks and its data. -/
structure LogRec where
  header : Bytes
  rest : List Bytes

namespace LogRec

def blocks (r : LogRec) : List Bytes := r.header :: r.rest

/-- The block its first operation stands in. -/
def firstData (r : LogRec) (log : Log) : Bytes := r.blocks.getD (log.hblks r.header) []

/-- Whether a record that starts as the `g`th block is well formed: every block stamped
with its cycle, and as many of them as the header says, within the largest record. -/
structure LaidAt (log : Log) (g : Nat) (r : LogRec) : Prop where
  magic : be32 r.header 0 = HEADER_MAGIC
  header_cycle : be32 r.header 4 = cycleAt log.bbs g
  rest_cycle : ∀ j (hj : j < r.rest.length), be32 r.rest[j] 0 = cycleAt log.bbs (g + (j + 1))
  length_eq : r.blocks.length = log.hblks r.header + bytesToBbs (be32 r.header 12)
  data_pos : 1 ≤ bytesToBbs (be32 r.header 12)
  length_le : r.blocks.length ≤ log.recBbs
  cycle_lt : cycleAt log.bbs (g + r.blocks.length - 1) < 2 ^ 31

theorem LaidAt.rest_not_magic {log : Log} {g : Nat} {r : LogRec} (h : r.LaidAt log g) {j : Nat}
    (hj : j < r.rest.length) : be32 r.rest[j] 0 ≠ HEADER_MAGIC := by
  have hlast := h.cycle_lt
  have hmono : cycleAt log.bbs (g + (j + 1)) ≤ cycleAt log.bbs (g + r.blocks.length - 1) := by
    refine Nat.succ_le_succ (Nat.div_le_div_right ?_)
    rw [blocks, List.length_cons]
    omega
  rw [h.rest_cycle j hj]
  unfold HEADER_MAGIC
  omega

end LogRec

/-- A block of zeroes. -/
def zeroBlock : Bytes := List.replicate BB 0

/-- What a log holds after `g` blocks, the last record of them being `r`: it starts as
zeroes, and records follow one another from block 0, round the ring. -/
inductive Written (log : Log) : Nat → (Nat → Bytes) → LogRec → Prop where
  | first {r : LogRec} : r.LaidAt log 0 →
      Written log r.blocks.length (writeBlocks log.bbs (fun _ => zeroBlock) 0 r.blocks) r
  | next {g : Nat} {ring : Nat → Bytes} {r r' : LogRec} : Written log g ring r →
      r'.LaidAt log g →
      Written log (g + r'.blocks.length) (writeBlocks log.bbs ring g r'.blocks) r'

/-- Some of the blocks past the next one, in flight, hold anything at all in the cycle
they would get next. -/
def Strayed (log : Log) (g : Nat) (ring ring' : Nat → Bytes) : Prop :=
  ∀ i, i < log.bbs → ring' i = ring i ∨
    ∃ k, 1 ≤ k ∧ k ≤ log.inFlight ∧ i = (g + k) % log.bbs ∧
      cycleOf (ring' i) = cycleAt log.bbs (g + k)

/-! ## What it leaves -/

/-- The stamps of a ring of which `g` blocks have been written. -/
def StampedTo (bbs g : Nat) (ring : Nat → Bytes) : Prop :=
  ∀ i, i < bbs → cycleOf (ring i) = if i < g % bbs then g / bbs + 1 else g / bbs

section
variable {bbs g i j : Nat} {ring : Nat → Bytes} {bs : List Bytes}

/-- The next block, in the same cycle or at the wrap. -/
theorem succ_div_mod (hpos : 0 < bbs) :
    (g % bbs + 1 < bbs ∧ (g + 1) / bbs = g / bbs ∧ (g + 1) % bbs = g % bbs + 1) ∨
      (g % bbs + 1 = bbs ∧ (g + 1) / bbs = g / bbs + 1 ∧ (g + 1) % bbs = 0) := by
  have hdm := Nat.div_add_mod g bbs
  have hlt := Nat.mod_lt g hpos
  rcases Nat.lt_or_ge (g % bbs + 1) bbs with h | h
  · obtain ⟨h1, h2⟩ := (@Nat.div_mod_unique bbs (g + 1) (g / bbs) (g % bbs + 1) hpos).mpr
      ⟨by omega, h⟩
    exact Or.inl ⟨h, h1, h2⟩
  · obtain ⟨h1, h2⟩ := (@Nat.div_mod_unique bbs (g + 1) (g / bbs + 1) 0 hpos).mpr
      ⟨by rw [Nat.mul_add]; omega, hpos⟩
    exact Or.inr ⟨by omega, h1, h2⟩

theorem stampedTo_update (hpos : 0 < bbs) (h : StampedTo bbs g ring) {b : Bytes}
    (hb : cycleOf b = cycleAt bbs g) :
    StampedTo bbs (g + 1) (Function.update ring (g % bbs) b) := by
  intro i hi
  have hold := h i hi
  have hlt := Nat.mod_lt g hpos
  by_cases hig : i = g % bbs
  · subst hig
    rw [Function.update_self, hb, cycleAt]
    rcases @succ_div_mod bbs g hpos with ⟨_, h2, h3⟩ | ⟨_, h2, h3⟩ <;> rw [h2, h3]
    · rw [if_pos (by omega)]
    · rw [if_neg (by omega)]
  · rw [Function.update_of_ne hig, hold]
    rcases @succ_div_mod bbs g hpos with ⟨_, h2, h3⟩ | ⟨_, h2, h3⟩ <;> rw [h2, h3]
    · by_cases hlt' : i < g % bbs
      · rw [if_pos hlt', if_pos (by omega)]
      · rw [if_neg hlt', if_neg (by omega)]
    · rw [if_pos (by omega), if_neg (by omega)]

theorem stampedTo_writeBlocks (hpos : 0 < bbs) :
    ∀ {bs : List Bytes} {g : Nat} {ring : Nat → Bytes}, StampedTo bbs g ring →
      (∀ j (hj : j < bs.length), cycleOf bs[j] = cycleAt bbs (g + j)) →
      StampedTo bbs (g + bs.length) (writeBlocks bbs ring g bs) := by
  intro bs
  induction bs with
  | nil => intro g ring h _; exact h
  | cons b bs ih =>
    intro g ring h hb
    have hstep := stampedTo_update hpos h (hb 0 (by simp))
    rw [List.length_cons, ← Nat.add_assoc, Nat.add_right_comm]
    refine ih hstep fun j hj => ?_
    have := hb (j + 1) (by simpa using hj)
    rw [List.getElem_cons_succ] at this
    rw [this]
    congr 1
    omega

/-- Two blocks less than a turn apart stand in different places. -/
theorem mod_ne_mod {d : Nat} (h0 : 0 < d) (hd : d < bbs) : (g + d) % bbs ≠ g % bbs := by
  intro h
  have := Nat.sub_mod_eq_zero_of_mod_eq h
  rw [Nat.add_sub_cancel_left, Nat.mod_eq_of_lt hd] at this
  omega

theorem writeBlocks_of_ne :
    ∀ {bs : List Bytes} {g : Nat} {ring : Nat → Bytes},
      (∀ j, j < bs.length → (g + j) % bbs ≠ i) → writeBlocks bbs ring g bs i = ring i := by
  intro bs
  induction bs with
  | nil => intro g ring _; rfl
  | cons b bs ih =>
    intro g ring h
    rw [writeBlocks, ih fun j hj => by
      rw [Nat.add_assoc, Nat.add_comm 1 j]
      exact h (j + 1) (by simpa using hj)]
    exact Function.update_of_ne (fun hi => h 0 (by simp) hi.symm) _ _

/-- Blocks written, fewer than a turn of them, stand where they were put. -/
theorem writeBlocks_at :
    ∀ {bs : List Bytes} {g j : Nat} {ring : Nat → Bytes} (hj : j < bs.length),
      bs.length ≤ bbs → writeBlocks bbs ring g bs ((g + j) % bbs) = bs[j] := by
  intro bs
  induction bs with
  | nil => intro g j ring hj _; simp at hj
  | cons b bs ih =>
    intro g j ring hj hle
    rw [List.length_cons] at hle hj
    cases j with
    | zero =>
      rw [Nat.add_zero, writeBlocks, writeBlocks_of_ne fun k hk => ?_, Function.update_self]
      · rfl
      · rw [Nat.add_assoc]
        exact mod_ne_mod (by omega) (by omega)
    | succ j =>
      have := @ih (g + 1) j (Function.update ring (g % bbs) b) (by omega) (by omega)
      rw [writeBlocks, show g + (j + 1) = g + 1 + j by omega, this, List.getElem_cons_succ]

end

section
variable {log : Log} {g : Nat} {ring : Nat → Bytes} {r : LogRec}

/-- Every block of a well-formed record has its cycle, which is no header's first word. -/
theorem LogRec.LaidAt.cycle_blocks (h : r.LaidAt log g) :
    ∀ j (hj : j < r.blocks.length), cycleOf r.blocks[j] = cycleAt log.bbs (g + j) := by
  intro j hj
  cases j with
  | zero =>
    change cycleOf r.header = _
    rw [cycleOf, if_pos h.magic, h.header_cycle, Nat.add_zero]
  | succ j =>
    have hj' : j < r.rest.length := by simpa [LogRec.blocks] using hj
    change cycleOf r.rest[j] = _
    rw [cycleOf, if_neg (h.rest_not_magic hj'), h.rest_cycle j hj']

theorem Written.stampedTo (hpos : 0 < log.bbs) (h : Written log g ring r) :
    StampedTo log.bbs g ring := by
  induction h with
  | @first r hlaid =>
    have hzero : StampedTo log.bbs 0 (fun _ => zeroBlock) := by
      intro i _
      rw [Nat.zero_mod, if_neg (Nat.not_lt_zero i), Nat.zero_div]
      change cycleOf zeroBlock = 0
      decide
    have := stampedTo_writeBlocks hpos hzero hlaid.cycle_blocks
    rwa [Nat.zero_add] at this
  | next _ hlaid ih => exact stampedTo_writeBlocks hpos ih hlaid.cycle_blocks

/-- The last record stands where it was written. -/
theorem Written.last (hbbs : log.recBbs ≤ log.bbs) (h : Written log g ring r) :
    ∃ s, g = s + r.blocks.length ∧ r.LaidAt log s ∧
      ∀ j (hj : j < r.blocks.length), ring ((s + j) % log.bbs) = r.blocks[j] := by
  cases h with
  | first hlaid =>
    exact ⟨0, (Nat.zero_add _).symm, hlaid, fun j hj =>
      writeBlocks_at hj (hlaid.length_le.trans hbbs)⟩
  | @next s _ _ _ _ hlaid =>
    exact ⟨s, rfl, hlaid, fun j hj => writeBlocks_at hj (hlaid.length_le.trans hbbs)⟩

/-- A block less than a turn on from the `g`th stands past its place or, once round the
end of the log, before it. -/
theorem add_mod_cases {bbs g k : Nat} (hk : k < bbs) :
    (g % bbs + k < bbs ∧ (g + k) % bbs = g % bbs + k ∧ (g + k) / bbs = g / bbs) ∨
      (bbs ≤ g % bbs + k ∧ (g + k) % bbs = g % bbs + k - bbs ∧ (g + k) / bbs = g / bbs + 1) := by
  have hdm := Nat.div_add_mod g bbs
  have hlt := Nat.mod_lt g (show 0 < bbs by omega)
  rcases Nat.lt_or_ge (g % bbs + k) bbs with h | h
  · obtain ⟨h1, h2⟩ := (@Nat.div_mod_unique bbs (g + k) (g / bbs) (g % bbs + k) (by omega)).mpr
      ⟨by omega, h⟩
    exact Or.inl ⟨h, h2, h1⟩
  · obtain ⟨h1, h2⟩ := (@Nat.div_mod_unique bbs (g + k) (g / bbs + 1) (g % bbs + k - bbs)
      (by omega)).mpr ⟨by rw [Nat.mul_add]; omega, by omega⟩
    exact Or.inr ⟨h, h2, h1⟩

/-- A log written and strayed over is stamped as a ring whose head is the next block. -/
theorem stamped_of_written {ring' : Nat → Bytes} (hbbs : 2 * log.totalRecBbs ≤ log.bbs)
    (hw : Written log g ring r) (hstray : Strayed log g ring ring')
    (hdev : ∀ i, i < log.bbs → log.block i = ring' i) :
    Stamped log (g % log.bbs) (g / log.bbs + 1) := by
  have hR := recBbs_pos log
  have hT := totalRecBbs_eq log
  have hW := inFlight_eq log
  have hpos : 0 < log.bbs := by omega
  have hstamp := hw.stampedTo hpos
  obtain ⟨s, hg, hlaid, -⟩ := hw.last (by omega)
  have hlast := hlaid.cycle_lt
  have hlen : 0 < r.blocks.length := Nat.succ_pos _
  -- A block's cycle: as stamped, or that of the stray in its place.
  have hcyc : ∀ i, i < log.bbs →
      log.cyc i = (if i < g % log.bbs then g / log.bbs + 1 else g / log.bbs) ∨
        ∃ k, 1 ≤ k ∧ k ≤ log.inFlight ∧ i = (g + k) % log.bbs ∧
          log.cyc i = (g + k) / log.bbs + 1 := by
    intro i hi
    rw [cyc, hdev i hi]
    rcases hstray i hi with h | h
    · rw [h, hstamp i hi]
      exact Or.inl rfl
    · exact Or.inr h
  refine ⟨Nat.mod_lt _ hpos, Nat.succ_pos _, ?_, fun hz => ?_, fun i hi => ?_, ?_, fun i hi hib => ?_⟩
  · -- One cycle more than that of the last block at most.
    have hpred : g / log.bbs ≤ (g - 1) / log.bbs + 1 := by
      rcases @succ_div_mod log.bbs (g - 1) hpos with ⟨_, h2, _⟩ | ⟨_, h2, _⟩ <;>
        rw [show g - 1 + 1 = g by omega] at h2
      · exact h2.le.trans (Nat.le_succ _)
      · exact h2.le
    have hbound : (g - 1) / log.bbs + 1 < 2 ^ 31 := by
      rw [hg]
      exact hlast
    generalize g / log.bbs = q at hpred ⊢
    omega
  · have hdm := Nat.div_add_mod g log.bbs
    have hne : g / log.bbs ≠ 0 := by
      intro hq
      rw [hq, hz] at hdm
      omega
    exact Nat.succ_le_succ (Nat.pos_of_ne_zero hne)
  · rcases hcyc i (by have := Nat.mod_lt g hpos; omega) with h | ⟨k, hk1, hk2, hik, h⟩
    · rw [if_pos hi] at h
      exact Or.inl h
    · rcases @add_mod_cases log.bbs g k (by omega) with ⟨_, h2, _⟩ | ⟨_, h2, h3⟩
      · omega
      · rw [h3] at h
        exact Or.inr ⟨by omega, h⟩
  · rcases hcyc _ (Nat.mod_lt g hpos) with h | ⟨k, hk1, hk2, hik, _⟩
    · rw [if_neg (Nat.lt_irrefl _)] at h
      exact h
    · exact absurd hik.symm (mod_ne_mod hk1 (by omega))
  · rcases hcyc i hib with h | ⟨k, hk1, hk2, hik, h⟩
    · rw [if_neg (by omega)] at h
      exact Or.inl h
    · rcases @add_mod_cases log.bbs g k (by omega) with ⟨_, h2, h3⟩ | ⟨_, h2, _⟩
      · rw [h3] at h
        exact Or.inr ⟨by omega, h⟩
      · omega

/-- The last record of a log written and strayed over is still whole. -/
theorem lastRecord_of_written {ring' : Nat → Bytes} (hbbs : 2 * log.totalRecBbs ≤ log.bbs)
    (hw : Written log g ring r) (hstray : Strayed log g ring ring')
    (hdev : ∀ i, i < log.bbs → log.block i = ring' i) :
    ∃ s, g = s + r.blocks.length ∧
      (∀ j (hj : j < r.blocks.length), log.block ((s + j) % log.bbs) = r.blocks[j]) ∧
      LastRecord log (g % log.bbs) (g / log.bbs + 1) (s % log.bbs) r.blocks.length := by
  have hR := recBbs_pos log
  have hT := totalRecBbs_eq log
  have hW := inFlight_eq log
  have hpos : 0 < log.bbs := by omega
  obtain ⟨s, hg, hlaid, hring⟩ := hw.last (by omega)
  have hlen : 0 < r.blocks.length := Nat.succ_pos _
  have hle := hlaid.length_le
  -- Nothing in flight reaches the record: it is less than a turn behind.
  have hblock : ∀ j (hj : j < r.blocks.length), log.block ((s + j) % log.bbs) = r.blocks[j] := by
    intro j hj
    rw [hdev _ (Nat.mod_lt _ hpos)]
    rcases hstray _ (Nat.mod_lt (s + j) hpos) with h | ⟨k, hk1, hk2, hik, _⟩
    · rw [h, hring j hj]
    · have hd : g + k = s + j + (r.blocks.length - j + k) := by omega
      rw [hd] at hik
      exact absurd hik.symm (mod_ne_mod (by omega) (by omega))
  have hheader : log.block (s % log.bbs) = r.header := hblock 0 hlen
  have hquiet : ∀ j, 0 < j → j < r.blocks.length → ¬log.starts ((s + j) % log.bbs) := by
    intro j h0 hj
    obtain ⟨j, rfl⟩ := Nat.exists_eq_succ_of_ne_zero (by omega : j ≠ 0)
    have hj' : j < r.rest.length := by simpa [LogRec.blocks] using hj
    rw [starts, hblock _ hj]
    change ¬(isHeader r.rest[j] = true)
    rw [isHeader, beq_iff_eq]
    exact hlaid.rest_not_magic hj'
  have hcases := @add_mod_cases log.bbs s r.blocks.length (by omega)
  have hs := Nat.mod_lt s hpos
  rw [← hg] at hcases
  -- Where the record's blocks stand, from its header on.
  have hat : ∀ i, s % log.bbs < i → i < log.bbs → i - s % log.bbs < r.blocks.length →
      ¬log.starts i := by
    intro i h1 h2 h3
    rcases @add_mod_cases log.bbs s (i - s % log.bbs) (by omega) with ⟨_, h4, _⟩ | ⟨h4, _, _⟩
    · rw [show i = (s + (i - s % log.bbs)) % log.bbs by omega]
      exact hquiet _ (by omega) h3
    · omega
  refine ⟨s, hg, hblock, hlen, hle, fun hone => ?_, ?_, ?_, fun hfit i h1 h2 => ?_, fun hwrap =>
    ⟨fun i hi => ?_, fun i h1 h2 => ?_⟩, ?_⟩
  · have hdm := Nat.div_add_mod g log.bbs
    have hz : g / log.bbs = 0 := by omega
    rw [hz, Nat.mul_zero, Nat.zero_add] at hdm
    omega
  · split_ifs <;> omega
  · rw [starts, hheader, isHeader, beq_iff_eq]
    exact hlaid.magic
  · exact hat i h1 (by have := Nat.mod_lt g hpos; omega) (by omega)
  · -- A block before the head, past the end of the log from the header.
    rcases @add_mod_cases log.bbs s (log.bbs - s % log.bbs + i) (by omega) with
      ⟨h4, _, _⟩ | ⟨_, h4, _⟩
    · omega
    · rw [show i = (s + (log.bbs - s % log.bbs + i)) % log.bbs by omega]
      exact hquiet _ (by omega) (by omega)
  · exact hat i h1 h2 (by omega)
  · rw [hheader, hlaid.length_eq, Nat.add_comm]

/-- The state of a log, however it was written: clean when its last record is one
operation that unmounts, else dirty, from that record's tail to where the next record
would go. -/
theorem state_of_written {ring' : Nat → Bytes} (hin : log.Inside)
    (hbbs : 2 * log.totalRecBbs ≤ log.bbs) (hw : Written log g ring r)
    (hstray : Strayed log g ring ring') (hdev : ∀ i, i < log.bbs → log.block i = ring' i) :
    log.state = .ok (if be32 r.header 40 = 1 ∧
        hasBit (getBe 1 (r.firstData log) 9) UNMOUNT_TRANS = true then .clean
      else .dirty (g % log.bbs) (be64 r.header 24 % 2 ^ 32)) := by
  obtain ⟨s, hg, hblock, hlast⟩ := lastRecord_of_written hbbs hw hstray hdev
  have hlen : 0 < r.blocks.length := Nat.succ_pos _
  obtain ⟨_, hg', hlaid, _⟩ := hw.last (by have := totalRecBbs_eq log; omega)
  have hheader : log.block (s % log.bbs) = r.header := hblock 0 hlen
  have hlt : log.hblks r.header < r.blocks.length := by
    have h1 := hlaid.length_eq
    have h2 := hlaid.data_pos
    omega
  have hdata : log.block ((s % log.bbs + log.hblks r.header) % log.bbs) = r.firstData log := by
    rw [Nat.mod_add_mod, hblock _ hlt, LogRec.firstData, List.getD_eq_getElem?_getD,
      List.getElem?_eq_getElem hlt, Option.getD_some]
  rw [state_eq_ok hin hbbs (stamped_of_written hbbs hw hstray hdev) hlast, hheader, hdata]

end

/-! ### A log that has wrapped -/

/-- A record of 48 blocks from the `g`th on, in a log of 1024; it unmounts. -/
def wrapRec (g : Nat) : LogRec where
  header := putFields 4 zeroBlock [(0, HEADER_MAGIC), (4, cycleAt 1024 g), (12, 47 * BB), (40, 1),
    (320, HEADER_CYCLE_SIZE)]
  rest := (List.range 47).map fun j =>
    putBe 1 (put32 zeroBlock 0 (cycleAt 1024 (g + (j + 1)))) 9 UNMOUNT_TRANS

/-- What the log holds after `k + 1` of them. -/
def wrapRing : Nat → Nat → Bytes
  | 0 => writeBlocks 1024 (fun _ => zeroBlock) 0 (wrapRec 0).blocks
  | k + 1 => writeBlocks 1024 (wrapRing k) (48 * (k + 1)) (wrapRec (48 * (k + 1))).blocks

/-- After 22 of them, the last across the end of the log, and with two headers in flight past it. -/
def strayRing (i : Nat) : Bytes := if i = 37 ∨ i = 332 then (wrapRec 1061).header else wrapRing 21 i

/-- A log of 1024 blocks that is all of its device. -/
def logOf (data : Bytes) : Log := { dev := ⟨data, []⟩, start := 0, bbs := 1024, align := BB, v2 := false }

def wrapLog : Log := logOf ((List.range 1024).map strayRing).flatten

section
variable {g k : Nat}

theorem length_blocks_wrapRec : (wrapRec g).blocks.length = 48 := by
  simp [LogRec.blocks, wrapRec]

/-- A block of their data. -/
theorem data_wrapRec {b : Bytes} {c : Nat} (hb : b.length = 512) (hc : c < 256 ^ 4) :
    (putBe 1 (put32 b 0 c) 9 UNMOUNT_TRANS).length = 512 ∧
      be32 (putBe 1 (put32 b 0 c) 9 UNMOUNT_TRANS) 0 = c ∧
      getBe 1 (putBe 1 (put32 b 0 c) 9 UNMOUNT_TRANS) 9 = UNMOUNT_TRANS := by
  have hput : (put32 b 0 c).length = 512 := by
    unfold put32
    rw [length_putBe (by omega), hb]
  exact ⟨by rw [length_putBe (by omega), hput],
    (getBe_putBe_disjoint (by omega) (by omega)).trans (getBe_putBe_same (by omega) hc),
    getBe_putBe_same (by omega) (by decide)⟩

/-- What a header of theirs has in its fields. -/
theorem header_wrapRec (hg : g < 2 ^ 20) : be32 (wrapRec g).header 0 = HEADER_MAGIC ∧
    be32 (wrapRec g).header 4 = cycleAt 1024 g ∧ be32 (wrapRec g).header 12 = 47 * BB ∧
    be32 (wrapRec g).header 40 = 1 := by
  have hlen : zeroBlock.length = 512 := List.length_replicate
  have hcycle : cycleAt 1024 g < 256 ^ 4 := by
    unfold cycleAt
    omega
  have hread : ∀ {o x : Nat}, (o, x) ∈ [(0, HEADER_MAGIC), (4, cycleAt 1024 g), (12, 47 * BB), (40, 1),
      (320, HEADER_CYCLE_SIZE)] → x < 256 ^ 4 → be32 (wrapRec g).header o = x := by
    intro o x hmem hx
    refine getBe_putFields (fun f hf => ?_) ?_ hmem hx
    · simp only [List.mem_cons, List.not_mem_nil, or_false] at hf
      rcases hf with rfl | rfl | rfl | rfl | rfl <;> simp [hlen]
    · simp
  exact ⟨hread (by simp) (by decide), hread (by simp) hcycle, hread (by simp) (by decide),
    hread (by simp) (by decide)⟩

theorem wrapRec_laidAt (hg : g + 48 ≤ 2 ^ 20) : (wrapRec g).LaidAt wrapLog g := by
  obtain ⟨hmagic, hcycle, hlen, -⟩ := @header_wrapRec g (by omega)
  have hdata : bytesToBbs (be32 (wrapRec g).header 12) = 47 := by
    rw [hlen]
    decide
  refine ⟨hmagic, hcycle, fun j hj => ?_, ?_, ?_, ?_, ?_⟩
  · have hlt : cycleAt 1024 (g + (j + 1)) < 256 ^ 4 := by
      have hj : j < 47 := by simpa [wrapRec] using hj
      unfold cycleAt
      omega
    have hat : (wrapRec g).rest[j] =
        putBe 1 (put32 zeroBlock 0 (cycleAt 1024 (g + (j + 1)))) 9 UNMOUNT_TRANS := by
      simp [wrapRec]
    rw [hat]
    exact (data_wrapRec List.length_replicate hlt).2.1
  · rw [length_blocks_wrapRec, hdata]
    rfl
  · omega
  · rw [length_blocks_wrapRec]
    decide
  · rw [length_blocks_wrapRec]
    change (g + 48 - 1) / 1024 + 1 < 2 ^ 31
    omega

theorem written_wrapRing : ∀ {k : Nat}, 48 * k + 48 ≤ 2 ^ 20 →
    Written wrapLog (48 * k + 48) (wrapRing k) (wrapRec (48 * k))
  | 0, _ => by
    have hfirst := Written.first (@wrapRec_laidAt 0 (by norm_num))
    rwa [length_blocks_wrapRec] at hfirst
  | k + 1, hk => by
    have hnext := (@written_wrapRing k (by omega)).next (wrapRec_laidAt (by omega))
    rwa [length_blocks_wrapRec] at hnext

/-- What holds of every block written holds of every block there is. -/
theorem writeBlocks_all {bbs : Nat} {P : Bytes → Prop} : ∀ {bs : List Bytes} {g : Nat} {ring : Nat → Bytes},
    (∀ i, P (ring i)) → (∀ b ∈ bs, P b) → ∀ i, P (writeBlocks bbs ring g bs i)
  | [], _, _, hring, _, i => hring i
  | b :: bs, g, ring, hring, hbs, i => by
    refine writeBlocks_all (fun j => ?_) (fun b' hb' => hbs b' (List.mem_cons_of_mem _ hb')) i
    by_cases hj : j = g % bbs
    · rw [hj, Function.update_self]
      exact hbs b List.mem_cons_self
    · rw [Function.update_of_ne hj]
      exact hring j

theorem length_of_wrapRec (hg : g + 48 ≤ 2 ^ 20) : ∀ b ∈ (wrapRec g).blocks, b.length = 512 := by
  have hzero : zeroBlock.length = 512 := List.length_replicate
  intro b hb
  rcases List.mem_cons.mp hb with rfl | hb
  · refine (length_putFields fun f hf => ?_).trans hzero
    simp only [List.mem_cons, List.not_mem_nil, or_false] at hf
    rcases hf with rfl | rfl | rfl | rfl | rfl <;> simp [hzero]
  · obtain ⟨j, hj, rfl⟩ := List.mem_map.mp hb
    have hj := List.mem_range.mp hj
    refine (data_wrapRec hzero ?_).1
    unfold cycleAt
    omega

theorem length_wrapRing : ∀ {k : Nat}, 48 * k + 48 ≤ 2 ^ 20 → ∀ i, (wrapRing k i).length = 512
  | 0, _, i => writeBlocks_all (fun _ => List.length_replicate) (length_of_wrapRec (by norm_num)) i
  | _ + 1, hk, i => writeBlocks_all (length_wrapRing (by omega)) (length_of_wrapRec (by omega)) i

theorem length_strayRing (i : Nat) : (strayRing i).length = 512 := by
  unfold strayRing
  split
  · exact length_of_wrapRec (by norm_num) _ List.mem_cons_self
  · exact length_wrapRing (by norm_num) i

/-- Blocks of one size, one after another. -/
theorem length_flatten_same {n : Nat} : ∀ {bs : List Bytes}, (∀ b ∈ bs, b.length = n) →
    bs.flatten.length = bs.length * n
  | [], _ => by simp
  | b :: bs, h => by
    rw [List.flatten_cons, List.length_append, h b List.mem_cons_self, List.length_cons, Nat.succ_mul,
      length_flatten_same fun b' hb' => h b' (List.mem_cons_of_mem _ hb'), Nat.add_comm]

theorem slice_flatten_same {n : Nat} : ∀ {bs : List Bytes} {i : Nat} (hi : i < bs.length),
    (∀ b ∈ bs, b.length = n) → slice bs.flatten (i * n) n = bs[i]
  | b :: bs, 0, _, h => by
    have hb := h b List.mem_cons_self
    rw [Nat.zero_mul, List.flatten_cons, slice_append_left (by omega), List.getElem_cons_zero, ← hb, slice_zero_length]
  | b :: bs, i + 1, hi, h => by
    have hb := h b List.mem_cons_self
    rw [Nat.succ_mul, List.flatten_cons, Nat.add_comm, ← hb, slice_append_right, hb, List.getElem_cons_succ]
    exact slice_flatten_same (by simpa using hi) fun b' hb' => h b' (List.mem_cons_of_mem _ hb')

theorem wrapLog_same : ∀ b ∈ (List.range 1024).map strayRing, b.length = 512 := by
  intro b hb
  obtain ⟨i, -, rfl⟩ := List.mem_map.mp hb
  exact length_strayRing i

theorem block_logOf {data : Bytes} {i : Nat} : (logOf data).block i = slice data (i * 512) 512 := by
  unfold block
  change slice data (0 + i * 512) 512 = _
  rw [Nat.zero_add]

theorem inside_logOf {data : Bytes} (h : data.length = 1024 * 512) : (logOf data).Inside :=
  ⟨(by decide : 0 < BB), dvd_zero BB, dvd_mul_left BB 1024, (Nat.zero_add _).trans_le h.ge⟩

theorem block_wrapLog {i : Nat} (hi : i < 1024) : wrapLog.block i = strayRing i := by
  have hslice := @slice_flatten_same 512 ((List.range 1024).map strayRing) i (by simpa using hi) wrapLog_same
  rw [List.getElem_map, List.getElem_range] at hslice
  exact block_logOf.trans hslice

/-- The blocks in flight have the cycle they get next. -/
theorem strayed_wrapLog : Strayed wrapLog (48 * 21 + 48) (wrapRing 21) strayRing := by
  have hcycle : cycleOf (wrapRec 1061).header = 2 := by
    obtain ⟨hmagic, hcycle, -⟩ := @header_wrapRec 1061 (by norm_num)
    rw [cycleOf, if_pos hmagic, hcycle]
    decide
  intro i _
  by_cases hi : i = 37 ∨ i = 332
  · right
    unfold strayRing
    rw [if_pos hi, hcycle]
    rcases hi with rfl | rfl
    · exact ⟨5, by decide, by decide, by decide, by decide⟩
    · exact ⟨300, by decide, by decide, by decide, by decide⟩
  · exact Or.inl (if_neg hi)

/-- The last record has wrapped, and a header of the next ones is past it: it is the last that counts. -/
theorem state_of_written_wrapped : isHeader (wrapLog.block 37) = true ∧ wrapLog.state = .ok .clean := by
  obtain ⟨hmagic, -⟩ := @header_wrapRec 1061 (by norm_num)
  obtain ⟨-, -, -, hops⟩ := @header_wrapRec 1008 (by norm_num)
  have hin : wrapLog.Inside := inside_logOf (by
    rw [length_flatten_same wrapLog_same, List.length_map, List.length_range])
  have hdata : getBe 1 ((wrapRec 1008).firstData wrapLog) 9 = UNMOUNT_TRANS :=
    (@data_wrapRec zeroBlock (cycleAt 1024 (1008 + (0 + 1))) List.length_replicate (by decide)).2.2
  have h := state_of_written hin (by decide) (@written_wrapRing 21 (by norm_num)) strayed_wrapLog
    fun i hi => block_wrapLog hi
  refine ⟨?_, h.trans (congrArg Except.ok (if_pos ⟨hops, ?_⟩))⟩
  · rw [block_wrapLog (by norm_num)]
    unfold strayRing isHeader
    rw [if_pos (Or.inl rfl), hmagic]
    decide
  · rw [hdata]
    decide

end

end FioXfs.Log
