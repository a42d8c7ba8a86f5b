import FioXfs.Log
set_option autoImplicit false

/-!
# Finding the head of a log

What each search of the log finds in terms of its blocks, and from that where the head
of a well-stamped ring is found: at the block the next record would go to, whatever
was in flight past it.
-/

namespace FioXfs.Log

open FioXfs.Lib

/-! ## Reading blocks -/

/-- The log lies on its device, in whole reads. -/
structure Inside (log : Log) : Prop where
  align_pos : 0 < log.align
  start_dvd : log.align ∣ log.start
  size_dvd : log.align ∣ log.bbs * BB
  fits : log.start + log.bbs * BB ≤ log.dev.size

/-- Basic block `i`. -/
def block (log : Log) (i : Nat) : Bytes := slice log.dev.data (log.start + i * BB) BB

/-- The cycle block `i` is stamped with. -/
def cyc (log : Log) (i : Nat) : Nat := cycleOf (log.block i)

/-- Whether block `i` starts a record. -/
def starts (log : Log) (i : Nat) : Prop := isHeader (log.block i) = true

section
variable {log : Log}

/-- A read inside the log gives its blocks, whatever whole filesystem blocks it took. -/
theorem read_eq_ok (h : log.Inside) {first count : Nat} (hcount : 0 < count)
    (hin : first + count ≤ log.bbs) :
    log.read first count = .ok (slice log.dev.data (log.start + first * BB) (count * BB)) := by
  have hpos := h.align_pos
  have hfrom := Nat.div_mul_le_self (log.start + first * BB) log.align
  have hto : log.start + first * BB + count * BB ≤
      divCeil (log.start + first * BB + count * BB) log.align * log.align := le_divCeil_mul hpos
  -- The log's end is a multiple of the rounding, so the rounded read stays before it.
  have hend : divCeil (log.start + first * BB + count * BB) log.align * log.align ≤
      log.start + log.bbs * BB := by
    obtain ⟨c, hc⟩ := Nat.dvd_add h.start_dvd h.size_dvd
    rw [hc, Nat.mul_comm log.align c]
    refine Nat.mul_le_mul_right _ ((divCeil_le_iff hpos).mpr ?_)
    rw [Nat.mul_comm c, ← hc, Nat.add_assoc, ← Nat.add_mul]
    exact Nat.add_le_add_left (Nat.mul_le_mul_right _ hin) _
  have hfits := h.fits
  unfold read
  rw [except_throwIf_bind_of_not (by omega)]
  dsimp only
  generalize divCeil (log.start + first * BB + count * BB) log.align * log.align = b at *
  generalize (log.start + first * BB) / log.align * log.align = a at *
  rw [Device.readAt_eq_ok.mpr ⟨by omega, rfl⟩, except_ok_bind]
  change Except.ok _ = _
  rw [slice_slice (by omega)]
  congr 2 <;> omega

theorem blockIn_read {first count i : Nat} (h1 : first ≤ i) (h2 : i < first + count) :
    blockIn (slice log.dev.data (log.start + first * BB) (count * BB)) first i = log.block i := by
  have hle : (i - first) * BB + BB ≤ count * BB := by
    rw [← Nat.succ_mul]
    exact Nat.mul_le_mul_right _ (by omega)
  rw [blockIn, slice_slice hle, block, Nat.add_assoc, ← Nat.add_mul, Nat.add_sub_cancel' h1]

theorem cycle_eq_ok (h : log.Inside) {bb : Nat} (hbb : bb < log.bbs) :
    log.cycle bb = .ok (log.cyc bb) := by
  unfold cycle
  rw [read_eq_ok h Nat.one_pos hbb, except_ok_bind, Nat.one_mul]
  rfl

/-! ## The searches -/

theorem findCycleStart_eq_ok (h : log.Inside) {first last c : Nat} (hlast : last < log.bbs)
    (hlt : first < last) (h0 : log.cyc first ≠ c) (h1 : log.cyc last = c) :
    ∃ r, log.findCycleStart first last c = .ok r ∧ first < r ∧ r ≤ last ∧ log.cyc r = c ∧
      log.cyc (r - 1) ≠ c := by
  have hp : ∀ i, i ≤ last → (do return (← log.cycle i) == c : Result Bool) =
      .ok (log.cyc i == c) := by
    intro i hi
    rw [cycle_eq_ok h (by omega), except_ok_bind]
    rfl
  obtain ⟨r, hr, h2, h3, h4, h5⟩ := @bisect_eq_ok _ _ (fun i => log.cyc i == c) (last - first)
    first last hp hlt (by simpa using h0) (by simpa using h1) (le_refl _)
  exact ⟨r, hr, h2, h3, by simpa using h4, by simpa using h5⟩

theorem findCycleStart_le_mid (h : log.Inside) {first last c : Nat} (hlast : last < log.bbs)
    (hlt : first + 1 < last) (h0 : log.cyc first ≠ c) (h1 : log.cyc ((first + last) / 2) = c) :
    ∃ r, log.findCycleStart first last c = .ok r ∧ first < r ∧ r ≤ (first + last) / 2 ∧
      log.cyc r = c ∧ log.cyc (r - 1) ≠ c := by
  have hp : ∀ i, i ≤ last → (do return (← log.cycle i) == c : Result Bool) =
      .ok (log.cyc i == c) := by
    intro i hi
    rw [cycle_eq_ok h (by omega), except_ok_bind]
    rfl
  obtain ⟨r, hr, h2, h3, h4, h5⟩ := @bisect_le_mid _ _ (fun i => log.cyc i == c) (last - first)
    first last hp hlt (by simpa using h0) (by simpa using h1) (le_refl _)
  exact ⟨r, hr, h2, h3, by simpa using h4, by simpa using h5⟩

theorem findCycleLoop_eq_ok (h : log.Inside) {stop c : Nat} (hstop : stop ≤ log.bbs) :
    ∀ {fuel i : Nat}, stop - i ≤ fuel →
      ∃ r, log.findCycleLoop stop c fuel i = .ok r ∧ IsFirst (log.cyc · = c) i stop r := by
  intro fuel
  induction fuel with
  | zero =>
    intro i hfuel
    exact ⟨none, rfl, fun j h1 h2 => absurd h2 (by omega)⟩
  | succ fuel ih =>
    intro i hfuel
    rw [findCycleLoop]
    split
    · rename_i hi
      have hcount : 0 < min 2048 (stop - i) := by omega
      have hle : i + min 2048 (stop - i) ≤ stop := by omega
      generalize min 2048 (stop - i) = count at hcount hle ⊢
      dsimp only
      rw [read_eq_ok h hcount (by omega), except_ok_bind]
      have hfind : ((List.range count).find? fun j => cycleOf (blockIn (slice log.dev.data
          (log.start + i * BB) (count * BB)) i (i + j)) == c) =
          (List.range count).find? fun j => log.cyc (i + j) == c := by
        refine find?_congr fun j hj => ?_
        have hj := List.mem_range.mp hj
        rw [blockIn_read (by omega) (by omega), cyc]
      have hfirst := isFirst_find_range (p := fun k => log.cyc k == c) i count
      simp only [hfind]
      simp only [beq_iff_eq] at hfirst
      cases hf : (List.range count).find? fun j => log.cyc (i + j) == c with
      | some j =>
        rw [hf] at hfirst
        exact ⟨some (i + j), rfl, hfirst.append_left hle⟩
      | none =>
        rw [hf] at hfirst
        obtain ⟨r, hr, hrest⟩ := @ih (i + count) (by omega)
        exact ⟨r, hr, hfirst.append_right hrest (by omega)⟩
    · rename_i hi
      exact ⟨none, rfl, fun j h1 h2 => absurd h2 (by omega)⟩

theorem findCycle_eq_ok (h : log.Inside) {start n c : Nat} (hin : start + n ≤ log.bbs) :
    ∃ r, log.findCycle start n c = .ok r ∧ IsFirst (log.cyc · = c) start (start + n) r :=
  findCycleLoop_eq_ok h hin (by omega)

/-- The last header in a piece of the log, found in what was read of it. -/
theorem isLast_lastHeader {start last : Nat} (hlt : start < last) :
    IsLast log.starts start last (lastHeader (slice log.dev.data (log.start + start * BB)
      ((last - start) * BB)) start last) := by
  have hlast := @isLast_findDown (fun i => isHeader (blockIn (slice log.dev.data
    (log.start + start * BB) ((last - start) * BB)) start i)) (last - start) last (Nat.sub_le _ _)
  rw [show last - (last - start) = start by omega] at hlast
  have hblock : ∀ i, start ≤ i → i < last → (isHeader (blockIn (slice log.dev.data
      (log.start + start * BB) ((last - start) * BB)) start i) = true ↔ log.starts i) := by
    intro i h1 h2
    rw [blockIn_read h1 (by omega), starts]
  unfold lastHeader
  generalize findDown (fun i => isHeader (blockIn (slice log.dev.data (log.start + start * BB)
    ((last - start) * BB)) start i)) (last - start) last = r at hlast ⊢
  cases r with
  | none => exact fun i h1 h2 => (hblock i h1 h2).not.mp (hlast i h1 h2)
  | some x =>
    obtain ⟨h1, h2, h3, h4⟩ := hlast
    exact ⟨h1, h2, (hblock x h1 h2).mp h3, fun i h5 h6 =>
      (hblock i (by omega) h6).not.mp (h4 i h5 h6)⟩

/-- When the last header before `last` is that of a record that ends there, it stays. -/
theorem backUpToRecord_eq_some (h : log.Inside) {start last extra x : Nat} (hle : last ≤ log.bbs)
    (hx : start ≤ x) (hxl : x < last) (hstarts : log.starts x)
    (hrest : ∀ i, x < i → i < last → ¬log.starts i)
    (hlen : last - x + extra = bytesToBbs (be32 (log.block x) 12) + log.hblks (log.block x)) :
    log.backUpToRecord start last extra = .ok (some last) := by
  have hfound := (@isLast_lastHeader log start last (by omega)).eq_some hx hxl hstarts hrest
  unfold backUpToRecord
  rw [if_neg (by omega), read_eq_ok h (by omega) (by omega), except_ok_bind]
  dsimp only
  rw [hfound]
  dsimp only
  rw [blockIn_read hx (by omega), if_neg (not_not.mpr hlen)]
  rfl

/-- Before the first header there is nothing to back up to. -/
theorem backUpToRecord_eq_none (h : log.Inside) {last extra : Nat} (hle : last ≤ log.bbs)
    (hno : ∀ i, i < last → ¬log.starts i) : log.backUpToRecord 0 last extra = .ok none := by
  unfold backUpToRecord
  dsimp only
  split
  · rfl
  · have hfound := (@isLast_lastHeader log 0 last (by omega)).eq_none fun i _ hi => hno i hi
    rw [read_eq_ok h (by omega) (by omega), except_ok_bind, hfound]
    rfl

theorem headerIn_eq_ok (h : log.Inside) {lo : Nat} :
    ∀ {fuel stop : Nat}, stop ≤ log.bbs → stop - lo ≤ fuel →
      ∃ r, log.headerIn lo fuel stop = .ok (r.map fun i => (i, log.block i)) ∧
        IsLast log.starts lo stop r := by
  intro fuel
  induction fuel with
  | zero =>
    intro stop _ hfuel
    exact ⟨none, by rw [headerIn]; rfl, fun i h1 h2 => absurd h2 (by omega)⟩
  | succ fuel ih =>
    intro stop hstop hfuel
    rw [headerIn]
    split
    · rename_i hlt
      dsimp only
      have hlo : lo ≤ max (stop - CHUNK) lo := by omega
      have hbs : max (stop - CHUNK) lo < stop := by have := CHUNK_pos; omega
      generalize max (stop - CHUNK) lo = begin_ at hlo hbs ⊢
      rw [read_eq_ok h (by omega) (by omega), except_ok_bind]
      have hlast := @isLast_lastHeader log begin_ stop hbs
      cases hf : lastHeader (slice log.dev.data (log.start + begin_ * BB)
          ((stop - begin_) * BB)) begin_ stop with
      | some x =>
        rw [hf] at hlast
        refine ⟨some x, ?_, hlast.append_right hlo⟩
        dsimp only
        rw [blockIn_read hlast.1 (by have := hlast.2.1; omega)]
        rfl
      | none =>
        rw [hf] at hlast
        obtain ⟨r, hr, hrest⟩ := @ih begin_ (by omega) (by omega)
        exact ⟨r, hr, hlast.append_left hrest (by omega)⟩
    · rename_i hlt
      exact ⟨none, rfl, fun i h1 h2 => absurd h2 (by omega)⟩

end

/-! ## A stamped ring -/

/-- Blocks past the head that may have been in flight when the writing stopped. -/
def inFlight (log : Log) : Nat := log.totalRecBbs - log.recBbs - 1

/-- How a ring whose next block is `h`, in cycle `c`, is stamped: the blocks behind it in
this cycle and those from it on in the one before (zero when there was none), but for
those in flight, past it, which may have the cycle they would get next. -/
structure Stamped (log : Log) (h c : Nat) : Prop where
  head_lt : h < log.bbs
  cycle_pos : 1 ≤ c
  cycle_lt : c < 2 ^ 32
  wrapped : h = 0 → 2 ≤ c
  before : ∀ i, i < h →
    log.cyc i = c ∨ (log.bbs + i ≤ h + log.inFlight ∧ log.cyc i = c + 1)
  head : log.cyc h = c - 1
  after : ∀ i, h < i → i < log.bbs →
    log.cyc i = c - 1 ∨ (i ≤ h + log.inFlight ∧ log.cyc i = c)

/-- The record that ends at block `h`: its header at `at_`, and no other header among
its `len` blocks, which may wrap round the end of the log once it has been filled. -/
structure LastRecord (log : Log) (h c at_ len : Nat) : Prop where
  len_pos : 0 < len
  len_le : len ≤ log.recBbs
  first_pass : c = 1 → len ≤ h
  at_eq : at_ = if len ≤ h then h - len else h + log.bbs - len
  starts : log.starts at_
  data : len ≤ h → ∀ i, at_ < i → i < h → ¬log.starts i
  data_wrapped : h < len → (∀ i, i < h → ¬log.starts i) ∧
    ∀ i, at_ < i → i < log.bbs → ¬log.starts i
  len_eq : bytesToBbs (be32 (log.block at_) 12) + log.hblks (log.block at_) = len

section
variable {log : Log} {h c at_ len : Nat}

theorem recBbs_pos (log : Log) : 0 < log.recBbs := by
  unfold recBbs
  split <;> decide

theorem totalRecBbs_eq (log : Log) : log.totalRecBbs = 8 * log.recBbs := rfl

theorem inFlight_eq (log : Log) : log.inFlight + 1 = 7 * log.recBbs := by
  have h1 := totalRecBbs_eq log
  have h2 := recBbs_pos log
  unfold inFlight
  omega

theorem cycleBefore_of_pos {c : Nat} (h1 : 1 ≤ c) (h2 : c < 2 ^ 32) : cycleBefore c = c - 1 := by
  unfold cycleBefore
  omega

/-- The head is not in the middle of the last record, so it is left where it is. -/
theorem leaveRecord_eq_ok (hin : log.Inside) (hbbs : 2 * log.totalRecBbs ≤ log.bbs)
    (hh : h < log.bbs) (hr : LastRecord log h c at_ len) {head : Nat}
    (hhead : head = if h = 0 then log.bbs else h) : log.leaveRecord head = .ok head := by
  have hR := recBbs_pos log
  have hT := totalRecBbs_eq log
  have hlen := hr.len_pos
  have hle := hr.len_le
  have hat := hr.at_eq
  have hstarts := hr.starts
  have hdata := hr.data
  have hwrap := hr.data_wrapped
  have heq := hr.len_eq
  unfold leaveRecord
  dsimp only
  by_cases hz : h = 0
  · -- At the end of the log, which the record ends at too.
    rw [if_pos hz] at hhead
    rw [if_neg (by omega)] at hat
    rw [hhead, if_pos (by omega), backUpToRecord_eq_some hin (x := at_) (by omega) (by omega)
      (by omega) hstarts (fun i h1 h2 => (hwrap (by omega)).2 i h1 h2) (by omega)]
    rfl
  · rw [if_neg hz] at hhead
    subst hhead
    by_cases hbig : log.recBbs ≤ head
    · rw [if_pos (by omega)] at hat
      rw [if_pos hbig, backUpToRecord_eq_some hin (x := at_) (by omega) (by omega)
        (by omega) hstarts (hdata (by omega)) (by omega)]
      rfl
    · rw [if_neg hbig]
      by_cases hfit : len ≤ head
      · rw [if_pos hfit] at hat
        rw [backUpToRecord_eq_some hin (x := at_) (by omega) (by omega) (by omega) hstarts
          (hdata hfit) (by omega)]
        rfl
      · -- The record wraps round the end of the log.
        rw [if_neg hfit] at hat
        rw [backUpToRecord_eq_none hin (by omega) (hwrap (by omega)).1, except_ok_bind]
        dsimp only
        rw [except_throwIf_bind_of_not (by omega), backUpToRecord_eq_some hin (x := at_)
          (by omega) (by omega) (by omega) hstarts (hwrap (by omega)).2 (by omega)]
        rw [except_ok_bind]
        dsimp only
        rw [if_neg (not_not.mpr rfl)]
        rfl

/-- On the first pass the head is the first of the zeroes. -/
theorem findZeroed_eq_ok (hin : log.Inside) (hbbs : 2 * log.totalRecBbs ≤ log.bbs)
    (hs : Stamped log h 1) (hr : LastRecord log h 1 at_ len) (hfirst : log.cyc 0 ≠ 0)
    (hlast : log.cyc (log.bbs - 1) = 0) : log.findZeroed = .ok h := by
  have hR := recBbs_pos log
  have hT := totalRecBbs_eq log
  have hW := inFlight_eq log
  have hh := hs.head_lt
  have hlen := hr.len_pos
  have hle := hr.len_le
  have hfit := hr.first_pass rfl
  have hat := hr.at_eq
  rw [if_pos hfit] at hat
  -- Zeroes stand only from the head on.
  have hzero : ∀ i, i < h → log.cyc i ≠ 0 := by
    intro i hi
    rcases hs.before i hi with h1 | ⟨_, h1⟩ <;> omega
  obtain ⟨r, hr1, h1, h2, h3, h4⟩ := findCycleStart_eq_ok hin (by omega : log.bbs - 1 < log.bbs)
    (by omega : 0 < log.bbs - 1) hfirst hlast
  have hge : h ≤ r := by
    by_contra hlt
    exact hzero r (by omega) h3
  have hbound : r ≤ h + log.inFlight + 1 := by
    by_contra hgt
    rcases hs.after (r - 1) (by omega) (by omega) with h5 | ⟨h5, _⟩
    · exact h4 h5
    · omega
  obtain ⟨f, hf, hffirst⟩ := @findCycle_eq_ok log hin (r - min log.totalRecBbs r)
    (min log.totalRecBbs r) 0 (by omega)
  have hfound : f.getD r = h := by
    rcases Nat.lt_or_ge h r with hlt | hge'
    · rw [hffirst.eq_some (by omega) (by omega) hs.head fun i _ hi => hzero i hi]
      rfl
    · rw [hffirst.eq_none fun i _ hi => hzero i (by omega)]
      exact le_antisymm (by simpa using hge') hge
  unfold findZeroed
  rw [hr1, except_ok_bind]
  dsimp only
  rw [hf, except_ok_bind, hfound, backUpToRecord_eq_some hin (x := at_) (by omega) (by omega)
    (by omega) hr.starts (hr.data hfit) (by have := hr.len_eq; omega)]
  rfl

/-- In a ring all of one cycle the look back finds the hole, or nothing when the head is
at the end. -/
theorem lookBack_same (hin : log.Inside) (hbbs : 2 * log.totalRecBbs ≤ log.bbs)
    (hs : Stamped log h c) (hsame : log.cyc 0 = log.cyc (log.bbs - 1)) :
    log.lookBack log.bbs (cycleBefore (log.cyc (log.bbs - 1))) =
      .ok (if h = 0 then log.bbs else h) := by
  have hR := recBbs_pos log
  have hT := totalRecBbs_eq log
  have hW := inFlight_eq log
  have hh := hs.head_lt
  have hc := hs.cycle_pos
  have hc' := hs.cycle_lt
  unfold lookBack
  dsimp only
  rw [if_pos (by omega)]
  generalize hn : min log.totalRecBbs log.bbs = n
  obtain ⟨f, hf, hffirst⟩ := @findCycle_eq_ok log hin (log.bbs - n) n
    (cycleBefore (log.cyc (log.bbs - 1))) (by omega)
  rw [hf, except_ok_bind]
  change Except.ok _ = _
  congr 1
  by_cases hz : h = 0
  · have hc2 := hs.wrapped hz
    have hafter : ∀ i, log.inFlight < i → i < log.bbs → log.cyc i = c - 1 := by
      intro i h1 h2
      rcases hs.after i (by omega) h2 with h3 | ⟨h3, _⟩
      · exact h3
      · omega
    have hlast := hafter (log.bbs - 1) (by omega) (by omega)
    rw [hlast, cycleBefore_of_pos (by omega) (by omega)] at hffirst
    rw [if_pos hz, hffirst.eq_none fun i h1 h2 => by
      rw [hafter i (by omega) (by omega)]
      omega]
    rfl
  · -- The last block is of this cycle, in flight, and the hole stands at the head.
    have h0 := hs.before 0 (by omega)
    have hlast : log.cyc (log.bbs - 1) = c ∧ log.bbs - 1 ≤ h + log.inFlight := by
      rcases Nat.lt_or_ge h (log.bbs - 1) with hlt | hge
      · rcases hs.after (log.bbs - 1) hlt (by omega) with h1 | ⟨h1, h2⟩ <;> omega
      · have hhead := hs.head
        rw [show h = log.bbs - 1 by omega] at hhead
        omega
    rw [hlast.1, cycleBefore_of_pos hc hc'] at hffirst
    rw [if_neg hz, hffirst.eq_some (x := h) (by omega) (by omega) hs.head fun i h1 h2 => by
      rcases hs.before i h2 with h3 | ⟨h3, _⟩ <;> omega]
    rfl

/-- In a ring of two cycles the look back goes from where the search ended to the head:
either the last block is of the cycle before and the search ended past the head, or the
blocks in flight wrap and it ended among their first. -/
theorem lookBack_differ (hin : log.Inside) (hbbs : 2 * log.totalRecBbs ≤ log.bbs)
    (hs : Stamped log h c) (hdiffer : log.cyc 0 ≠ log.cyc (log.bbs - 1))
    (hlast : log.cyc (log.bbs - 1) ≠ 0) :
    ∃ e, log.findCycleStart 0 (log.bbs - 1) (log.cyc (log.bbs - 1)) = .ok e ∧
      log.lookBack e (log.cyc (log.bbs - 1)) = .ok h ∧ 0 < h := by
  have hR := recBbs_pos log
  have hT := totalRecBbs_eq log
  have hW := inFlight_eq log
  have hh := hs.head_lt
  have hc := hs.cycle_pos
  have hc' := hs.cycle_lt
  have hhead := hs.head
  have hh0 : 0 < h := by
    by_contra hz
    obtain rfl : h = 0 := by omega
    rcases hs.after (log.bbs - 1) (by omega) (by omega) with h1 | ⟨h1, _⟩ <;> omega
  have h0 := hs.before 0 hh0
  have hend : log.cyc (log.bbs - 1) = c - 1 ∨
      (log.bbs - 1 ≤ h + log.inFlight ∧ log.cyc (log.bbs - 1) = c) := by
    rcases Nat.lt_or_ge h (log.bbs - 1) with hlt | hge
    · exact hs.after _ hlt (by omega)
    · rw [show h = log.bbs - 1 by omega] at hhead
      exact Or.inl hhead
  by_cases hold : log.cyc (log.bbs - 1) = c - 1
  · obtain ⟨e, he, h1, h2, h3, h4⟩ := findCycleStart_eq_ok hin
      (by omega : log.bbs - 1 < log.bbs) (by omega : 0 < log.bbs - 1) hdiffer rfl
    refine ⟨e, he, ?_, hh0⟩
    rw [hold] at h3 h4 ⊢
    have hbefore : ∀ i, i < h → log.cyc i ≠ c - 1 := by
      intro i hi
      rcases hs.before i hi with h5 | ⟨_, h5⟩ <;> omega
    have hge : h ≤ e := by
      by_contra hlt
      exact hbefore e (by omega) h3
    have hbound : e ≤ h + log.inFlight + 1 := by
      by_contra hgt
      rcases hs.after (e - 1) (by omega) (by omega) with h5 | ⟨h5, _⟩
      · exact h4 h5
      · omega
    -- What a scan that reaches back over the head finds, when nothing older lies in it.
    have hscan : ∀ {start n : Nat} {f : Option Nat}, start ≤ h → start + n = e →
        IsFirst (log.cyc · = c - 1) start (start + n) f → f.getD e = h := by
      intro start n f hstart hn hf
      rcases Nat.lt_or_ge h e with hlt | hge'
      · rw [hf.eq_some (x := h) hstart (by omega) hhead fun i _ hi => hbefore i hi]
        rfl
      · rw [hf.eq_none fun i _ hi => hbefore i (by omega)]
        exact le_antisymm hge' hge
    unfold lookBack
    dsimp only
    generalize hn : min log.totalRecBbs log.bbs = n
    split
    · obtain ⟨f, hf, hffirst⟩ := @findCycle_eq_ok log hin (e - n) n (c - 1) (by omega)
      rw [hf, except_ok_bind, hscan (by omega) (by omega) hffirst]
      rfl
    · obtain ⟨f, hf, hffirst⟩ := @findCycle_eq_ok log hin (log.bbs - (n - e)) (n - e)
        (cycleBefore (c - 1)) (by omega)
      obtain ⟨f', hf', hffirst'⟩ := @findCycle_eq_ok log hin 0 e (c - 1) (by omega)
      have hnone : f = none := by
        refine hffirst.eq_none fun i hi1 hi2 => ?_
        rw [cycleBefore_of_pos (by omega) (by omega)]
        rcases hs.after i (by omega) (by omega) with h5 | ⟨_, h5⟩ <;> omega
      rw [hf, except_ok_bind, hnone]
      dsimp only
      rw [hf', except_ok_bind, hscan (Nat.zero_le h) (Nat.zero_add e) hffirst']
      rfl
  · -- The last block is in flight and so is the first: the search is in the lower half,
    -- all of this cycle past the blocks in flight, and its look back wraps.
    have hcur : log.cyc (log.bbs - 1) = c := by omega
    have hnear : log.bbs - 1 ≤ h + log.inFlight := by omega
    have hmid : log.cyc ((0 + (log.bbs - 1)) / 2) = log.cyc (log.bbs - 1) := by
      rw [hcur]
      rcases hs.before ((0 + (log.bbs - 1)) / 2) (by omega) with h5 | ⟨h5, _⟩
      · exact h5
      · omega
    obtain ⟨e, he, h1, h2, h3, h4⟩ := findCycleStart_le_mid hin
      (by omega : log.bbs - 1 < log.bbs) (by omega : 0 + 1 < log.bbs - 1) hdiffer hmid
    refine ⟨e, he, ?_, hh0⟩
    rw [hcur] at h4 ⊢
    have hlow : log.bbs + (e - 1) ≤ h + log.inFlight := by
      rcases hs.before (e - 1) (by omega) with h5 | ⟨h5, _⟩
      · exact absurd h5 h4
      · exact h5
    unfold lookBack
    dsimp only
    generalize hn : min log.totalRecBbs log.bbs = n
    rw [if_neg (by omega)]
    obtain ⟨f, hf, hffirst⟩ := @findCycle_eq_ok log hin (log.bbs - (n - e)) (n - e)
      (cycleBefore c) (by omega)
    rw [cycleBefore_of_pos hc hc'] at hffirst
    rw [hf, except_ok_bind, hffirst.eq_some (x := h) (by omega) (by omega) hhead fun i hi1 hi2 => by
      rcases hs.before i hi2 with h5 | ⟨h5, _⟩ <;> omega]
    rfl

/-- The head of a stamped ring is found. -/
theorem findHead_eq_ok (hin : log.Inside) (hbbs : 2 * log.totalRecBbs ≤ log.bbs)
    (hs : Stamped log h c) (hr : LastRecord log h c at_ len) : log.findHead = .ok (some h) := by
  have hR := recBbs_pos log
  have hT := totalRecBbs_eq log
  have hh := hs.head_lt
  have hc := hs.cycle_pos
  have hfirst : log.cyc 0 ≠ 0 := by
    rcases Nat.eq_zero_or_pos h with hz | hpos
    · have hhead := hs.head
      have hwrap := hs.wrapped hz
      rw [hz] at hhead
      omega
    · rcases hs.before 0 hpos with h1 | ⟨_, h1⟩ <;> omega
  unfold findHead
  dsimp only
  rw [cycle_eq_ok hin (by omega), except_ok_bind, if_neg hfirst, cycle_eq_ok hin (by omega),
    except_ok_bind]
  by_cases hlast : log.cyc (log.bbs - 1) = 0
  · -- A block of cycle zero: this is the first pass.
    have hone : c = 1 := by
      rcases Nat.lt_or_ge h (log.bbs - 1) with hlt | hge
      · rcases hs.after (log.bbs - 1) hlt (by omega) with h1 | ⟨_, h1⟩ <;> omega
      · have hhead := hs.head
        rw [show h = log.bbs - 1 by omega] at hhead
        omega
    subst hone
    rw [if_pos hlast, findZeroed_eq_ok hin hbbs hs hr hfirst hlast]
    rfl
  · rw [if_neg hlast]
    by_cases hsame : log.cyc 0 = log.cyc (log.bbs - 1)
    · rw [if_pos hsame]
      simp only [pure, Except.pure, except_ok_bind]
      rw [lookBack_same hin hbbs hs hsame, except_ok_bind, leaveRecord_eq_ok hin hbbs hh hr rfl,
        except_ok_bind]
      congr 2
      split_ifs <;> omega
    · obtain ⟨e, he, hback, hpos⟩ := lookBack_differ hin hbbs hs hsame hlast
      rw [if_neg hsame, he]
      simp only [pure, Except.pure, except_ok_bind]
      rw [hback, except_ok_bind, leaveRecord_eq_ok hin hbbs hh hr (by rw [if_neg (by omega)]),
        except_ok_bind, if_neg (by omega)]

end

end FioXfs.Log
