import FioXfs.Alloc.Conserve
import FioXfs.Write.Groups
set_option autoImplicit false

/-!
# Books of who owns the blocks

Books are kept of the blocks that are given out in each group, and every step of the writer is
entered in them: what is read in, what an operation takes and gives back, and what changes no group.
A group in memory is then as its books say, and the headers on the device count every other.
-/

namespace FioXfs

open FioXfs.Lib FioXfs.Alloc Finset

/-! ## The books -/

/-- The blocks of each group owned by inodes, inode chunks, the headers, the log and the
refcount tree, and how many its inode trees have. -/
structure Book where
  own : Nat → Finset Nat
  trees : Nat → Nat

namespace Book

/-- The blocks given out in AG `agno`. -/
def given (book : Book) (agno : Nat) : Nat := (book.own agno).card + book.trees agno

/-- The books with AG `agno` entered anew. -/
def enter (book : Book) (agno : Nat) (own : Finset Nat) (trees : Nat) : Book :=
  ⟨Function.update book.own agno own, Function.update book.trees agno trees⟩

end Book

/-- A geometry whose groups hold their headers, below the end of 64-bit addresses. -/
structure Spacious (sb : Superblock) : Prop where
  sound : sb.Sound
  perBlock : sb.inodesPerBlock ≤ 64
  sector : 228 ≤ sb.sectorSize
  ends : sb.dataBlocks * sb.blockSize < 2 ^ 64
  groups : ∀ k < sb.agCount, ∃ len, sb.agLen k = .ok len ∧ 4 * sb.sectorSize ≤ len * sb.blockSize

/-- The same filesystem, but for what the counters say. -/
def SameShape (a b : Superblock) : Prop :=
  a = { b with icount := a.icount, ifree := a.ifree, freeBlocks := a.freeBlocks }

theorem SameShape.trans {a b c : Superblock} (h1 : SameShape a b) (h2 : SameShape b c) :
    SameShape a c := by
  unfold SameShape at *
  rw [h2] at h1
  exact h1

theorem SameShape.spacious {a b : Superblock} (h : SameShape a b) (hb : Spacious b) :
    Spacious a := by
  rw [h]
  exact
    { sound :=
        { blockLog_ge := hb.sound.blockLog_ge
          blockLog_le := hb.sound.blockLog_le
          blockSize_eq := hb.sound.blockSize_eq
          inopb_eq := hb.sound.inopb_eq
          inode_fill := hb.sound.inode_fill
          inodeSize_ge := hb.sound.inodeSize_ge
          inodeSize_le := hb.sound.inodeSize_le
          agCount_pos := hb.sound.agCount_pos
          agBlocks_pos := hb.sound.agBlocks_pos
          agBlocks_le := hb.sound.agBlocks_le
          agblkLog_le := hb.sound.agblkLog_le
          metaUuid_len := hb.sound.metaUuid_len }
      perBlock := hb.perBlock
      sector := hb.sector
      ends := hb.ends
      groups := hb.groups }

theorem SameShape.held {a b : Superblock} (h : SameShape a b) {k trees : Nat} {ag : Ag}
    {own : Finset Nat} (hb : Held b k ag own trees) : Held a k ag own trees := by
  rw [h]
  exact ⟨hb.parted, hb.agno_eq, hb.agLen, hb.agfLength, hb.agiLength, hb.trees_eq, hb.clean⟩

namespace Volume

/-- Every group held in memory is as its books say, and the headers on the device count
every other. -/
structure Booked (v : Volume) (book : Book) : Prop where
  spacious : Spacious v.sb
  loaded : ∀ k ag, v.ag? k = some ag →
    k < v.sb.agCount ∧ Held v.sb k ag (book.own k) (book.trees k)
  onDisk : ∀ k < v.sb.agCount, v.ag? k = none → ∃ agf agi len,
    readHeaders v.dev v.sb k = .ok (agf, agi) ∧ v.sb.agLen k = .ok len ∧
      agfFreeBlocks agf + book.given k + agRoots v.sb = len

/-- One step of the writer between flushes, with the books kept. -/
inductive Stepped : Volume × Book → Volume × Book → Prop where
  /-- A group is read whose free extents and owned blocks part it. -/
  | load {v v' : Volume} {book : Book} {k : Nat} {ag : Ag} (hin : k < v.sb.agCount)
      (hnew : v.ag? k = none) (hload : Alloc.load v.dev v.sb k = .ok ag)
      (hrun : loadAg k v = .ok () v')
      (hown : ∀ b, freeAt ag.free b + (ag.agfl ++ ag.oldTreeBlocks).count b +
        (if b ∈ book.own k then 1 else 0) = within 0 ag.len b)
      (htrees : book.trees k = inoNeed v.sb ag.chunks) : Stepped (v, book) (v', book)
  /-- An operation succeeds in a group held in memory. -/
  | group {v : Volume} {book : Book} {k : Nat} {ag ag' : Ag} {own : Finset Nat}
      (hag : v.ag? k = some ag) (hstep : AccStep v.sb (ag, book.own k) (ag', own)) :
      Stepped (v, book) (v.putAg k ag', book.enter k own (inoNeed v.sb ag'.chunks))
  /-- Anything that changes no group: not those in memory, nor another's headers. -/
  | elsewhere {v v' : Volume} {book : Book} (hsb : v'.sb = v.sb) (hags : ∀ k, v'.ag? k = v.ag? k)
      (hdev : ∀ k < v.sb.agCount, v.ag? k = none →
        readHeaders v'.dev v.sb k = readHeaders v.dev v.sb k) :
      Stepped (v, book) (v', book)

section
variable {v v' : Volume} {book book' : Book}

theorem Stepped.sb_eq {p q : Volume × Book} (h : Stepped p q) : q.1.sb = p.1.sb := by
  cases h with
  | load _ _ _ hrun => exact (loadAg_eq_ok hrun).2.1
  | group => rfl
  | elsewhere hsb => exact hsb

theorem Booked.stepped (h : Booked v book) (hstep : Stepped (v, book) (v', book')) :
    Booked v' book' := by
  have hs := h.spacious.sound
  cases hstep with
  | @load _ _ _ k ag hin hnew hload hrun hown htrees =>
      obtain ⟨hdev, hsb, -, hothers, ag1, hag1, hfrom⟩ := loadAg_eq_ok hrun
      obtain rfl : ag1 = ag := by
        rcases hfrom with hold | ⟨-, hfrom⟩
        · rw [hnew] at hold
          cases hold
        · rw [hload] at hfrom
          exact (Except.ok.inj hfrom).symm
      obtain ⟨agf, agi, len, hread, hlen, hcount⟩ := h.onDisk k hin hnew
      obtain ⟨run⟩ := load_ok hload
      have hheld : Held v.sb k ag1 (book.own k) (book.trees k) := by
        rw [htrees]
        refine held_of_loaded hs hload hown ?_
        have hsame := run.headers.symm.trans hread
        have hl := run.agLen.symm.trans hlen
        obtain ⟨rfl, rfl⟩ := Prod.mk.inj (Except.ok.inj hsame)
        rw [← htrees, Except.ok.inj hl]
        exact hcount
      refine ⟨by rw [hsb]; exact h.spacious, fun j ag hag => ?_, fun j hj hnone => ?_⟩
      · rw [hsb]
        by_cases hjk : j = k
        · subst hjk
          rw [hag1] at hag
          obtain rfl := Option.some.inj hag
          exact ⟨hin, hheld⟩
        · rw [hothers j hjk] at hag
          exact h.loaded j ag hag
      · have hjk : j ≠ k := by
          rintro rfl
          rw [hag1] at hnone
          cases hnone
        rw [hsb] at hj ⊢
        rw [hdev]
        exact h.onDisk j hj (by rw [← hothers j hjk, hnone])
  | @group _ _ k ag ag' own hag hstep =>
      have hw := isSome_of_ag? hag
      obtain ⟨hin, hheld⟩ := h.loaded k ag hag
      refine ⟨h.spacious, fun j ag1 hj => ?_, fun j hj hnone => ?_⟩
      · rw [ag?_putAg hw] at hj
        split at hj
        · rename_i hjk
          subst hjk
          obtain rfl := Option.some.inj hj
          simp only [Book.enter, Function.update_self]
          exact ⟨hin, AccStep.held hs (chunkBlocks_pos hs h.spacious.perBlock) hheld hstep⟩
        · rename_i hjk
          simp only [Book.enter, Function.update_of_ne hjk]
          exact h.loaded j ag1 hj
      · rw [ag?_putAg hw] at hnone
        split at hnone
        · cases hnone
        · rename_i hjk
          have hgiven : (book.enter k own (inoNeed v.sb ag'.chunks)).given j = book.given j := by
            simp only [Book.given, Book.enter, Function.update_of_ne hjk]
          rw [hgiven]
          exact h.onDisk j hj hnone
  | elsewhere hsb hags hdev =>
      refine ⟨by rw [hsb]; exact h.spacious, fun j ag hj => ?_, fun j hj hnone => ?_⟩
      · rw [hags] at hj
        rw [hsb]
        exact h.loaded j ag hj
      · rw [hags] at hnone
        rw [hsb] at hj ⊢
        rw [hdev j hj hnone]
        exact h.onDisk j hj hnone

theorem Booked.steps {p q : Volume × Book} (h : Booked p.1 p.2)
    (hrun : Relation.ReflTransGen Stepped p q) : Booked q.1 q.2 ∧ q.1.sb = p.1.sb :=
  @run_relates _ Stepped (fun p q => q.1.sb = p.1.sb) (fun p => Booked p.1 p.2) (fun _ => rfl)
    (fun _ _ _ h1 h2 => h2.trans h1) (fun _ _ hs hst => ⟨hs.stepped hst, hst.sb_eq⟩) _ _ h hrun

end

/-! ## Where a group's bytes are -/

section
variable {sb : Superblock} {k j len n : Nat}

/-- A run of bytes inside AG `k`. -/
def InGroup (sb : Superblock) (k : Nat) (w : Nat × Nat) : Prop :=
  k * sb.agBlocks * sb.blockSize ≤ w.1 ∧
    ∃ len, sb.agLen k = .ok len ∧ w.1 + w.2 ≤ (k * sb.agBlocks + len) * sb.blockSize

theorem agbToByte_eq (h : Spacious sb) {b : Nat} (hlen : sb.agLen k = .ok len) (hb : b ≤ len) :
    sb.agbToByte k b = (k * sb.agBlocks + b) * sb.blockSize :=
  h.sound.agbToByte_eq h.ends hlen hb

theorem inGroup_block (h : Spacious sb) {b : Nat} (hlen : sb.agLen k = .ok len) (hb : b < len) :
    InGroup sb k (sb.agbToByte k b, sb.blockSize) := by
  rw [agbToByte_eq h hlen hb.le]
  refine ⟨Nat.mul_le_mul_right _ (Nat.le_add_right _ _), len, hlen, ?_⟩
  calc (k * sb.agBlocks + b) * sb.blockSize + sb.blockSize
      = (k * sb.agBlocks + (b + 1)) * sb.blockSize := by ring
    _ ≤ (k * sb.agBlocks + len) * sb.blockSize := Nat.mul_le_mul_right _ (by omega)

theorem headerAt_eq (h : Spacious sb) (hlen : sb.agLen k = .ok len) :
    headerAt sb k n = k * sb.agBlocks * sb.blockSize + n * sb.sectorSize := by
  unfold headerAt
  rw [agbToByte_eq h hlen (Nat.zero_le _), Nat.add_zero]

theorem inGroup_header (h : Spacious sb) (hk : k < sb.agCount) (hn : n = 1 ∨ n = 2) :
    InGroup sb k (headerAt sb k n, sb.sect) ∧ sb.sect ≤ headerAt sb k n := by
  obtain ⟨len, hlen, hfit⟩ := h.groups k hk
  rw [headerAt_eq h hlen, Superblock.sect]
  have hmul : (k * sb.agBlocks + len) * sb.blockSize =
      k * sb.agBlocks * sb.blockSize + len * sb.blockSize := Nat.add_mul _ _ _
  refine ⟨⟨Nat.le_add_right _ _, len, hlen, ?_⟩, ?_⟩
  · rw [hmul]
    rcases hn with rfl | rfl <;> simp only <;> omega
  · rcases hn with rfl | rfl <;> omega

/-- What lies in one group does not meet what lies in another. -/
theorem InGroup.apart {w x : Nat × Nat} (hw : InGroup sb k w) (hx : InGroup sb j x) (hne : k ≠ j) :
    w.1 + w.2 ≤ x.1 ∨ x.1 + x.2 ≤ w.1 := by
  have hbelow : ∀ {a b : Nat} {y z : Nat × Nat}, InGroup sb a y → InGroup sb b z → a < b →
      y.1 + y.2 ≤ z.1 := by
    rintro a b y z ⟨-, l, hl, hy⟩ ⟨hz, -⟩ hab
    have hle := (Superblock.agLen_le hl).1
    calc y.1 + y.2 ≤ (a * sb.agBlocks + l) * sb.blockSize := hy
      _ ≤ b * sb.agBlocks * sb.blockSize := by
        refine Nat.mul_le_mul_right _ ?_
        calc a * sb.agBlocks + l ≤ (a + 1) * sb.agBlocks := by rw [Nat.succ_mul]; omega
          _ ≤ b * sb.agBlocks := Nat.mul_le_mul_right _ hab
      _ ≤ z.1 := hz
  rcases Nat.lt_or_gt_of_ne hne with h | h
  · exact Or.inl (hbelow hw hx h)
  · exact Or.inr (hbelow hx hw h)

/-- Headers read as before when the device reads as before where they are. -/
theorem readHeaders_congr {d d' : Device}
    (h : ∀ m, (m = 1 ∨ m = 2) → d'.readAt (headerAt sb k m) sb.sect = d.readAt (headerAt sb k m) sb.sect) :
    readHeaders d' sb k = readHeaders d sb k := by
  unfold readHeaders
  rw [h 1 (Or.inl rfl), h 2 (Or.inr rfl)]

end

end Volume

end FioXfs
