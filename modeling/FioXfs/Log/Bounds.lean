import FioXfs.Checked
import FioXfs.Log
set_option autoImplicit false

/-!
# Bounds of a log of any contents

`Log::state` with every difference, every index and every read checked: below zero, past the end
of the buffer or outside the log the program stops, and so it does when a loop goes on for longer
than the log has blocks.  Whatever the log holds, none of this happens.
-/

namespace FioXfs.Log

open FioXfs.Lib

/-! ## Checked steps -/

def checkedCycleOf (b : Bytes) : Result Nat := do
  let word ← readBe 4 b 0
  if word = HEADER_MAGIC then readBe 4 b 4 else return word

/-- Basic blocks `first..first + count`, which the log must have. -/
def checkedRead (log : Log) (first count : Nat) : Result Bytes := do
  failIf (count = 0 ∨ log.bbs < first + count) (.panic "read outside the log")
  let from_ := log.start + first * BB
  let to_ := from_ + count * BB
  let a := from_ / log.align * log.align
  let b := divCeil to_ log.align * log.align
  let len ← sub b a
  let buf ← log.dev.readAt a len
  let o ← sub from_ a
  let stop ← sub to_ a
  readUpTo buf o stop

def checkedCycle (log : Log) (bb : Nat) : Result Nat := do
  let b ← log.checkedRead bb 1
  checkedCycleOf b

/-- Header blocks of the record whose header is `h`. -/
def checkedHblks (log : Log) (h : Bytes) : Result Nat := do
  let size ← readBe 4 h 320
  if log.v2 then do
    let format ← readBe 4 h 8
    return if hasBit format 2 && decide (HEADER_CYCLE_SIZE < size) then
      divCeil size HEADER_CYCLE_SIZE
    else 1
  else return 1

/-- Block `i` of the blocks that `buf` holds from `first` on. -/
def checkedBlock (buf : Bytes) (first i : Nat) : Result Bytes := do
  let n ← sub i first
  readUpTo buf (n * BB) ((n + 1) * BB)

/-- The last header among the blocks `first..i`, which `buf` holds. -/
def checkedLastHeader (buf : Bytes) (first : Nat) : Nat → Nat → Result (Option Nat)
  | 0, i => if i = first then return none else throw Endless
  | fuel + 1, i =>
      if i = first then return none
      else do
        let i ← sub i 1
        let b ← checkedBlock buf first i
        let word ← readBe 4 b 0
        if word = HEADER_MAGIC then return some i
        else checkedLastHeader buf first fuel i

/-! ## The searches, step by step -/

/-- Binary search between `first` and `stop` for the first block in `cycle`. -/
def checkedCycleStart (log : Log) (cycle : Nat) : Nat → Nat → Nat → Result Nat
  | 0, first, stop =>
      if (first + stop) / 2 ≠ first ∧ (first + stop) / 2 ≠ stop then throw Endless
      else return stop
  | fuel + 1, first, stop =>
      let mid := (first + stop) / 2
      if mid ≠ first ∧ mid ≠ stop then do
        let c ← log.checkedCycle mid
        if c = cycle then checkedCycleStart log cycle fuel first mid
        else checkedCycleStart log cycle fuel mid stop
      else return stop

/-- The first of `left` blocks from block `j` of `buf` on that is stamped `cycle`. -/
def checkedStamp (buf : Bytes) (cycle : Nat) : Nat → Nat → Result (Option Nat)
  | 0, _ => return none
  | left + 1, j => do
      let b ← readFrom buf (j * BB)
      let c ← checkedCycleOf b
      if c = cycle then return some j else checkedStamp buf cycle left (j + 1)

/-- The loop of `find_cycle` from block `i`. -/
def checkedCycleLoop (log : Log) (stop cycle : Nat) : Nat → Nat → Result (Option Nat)
  | 0, i => if i < stop then throw Endless else return none
  | fuel + 1, i =>
      if i < stop then do
        let left ← sub stop i
        let count := min 2048 left
        let buf ← log.checkedRead i count
        match ← checkedStamp buf cycle count 0 with
        | some j => return some (i + j)
        | none => checkedCycleLoop log stop cycle fuel (i + count)
      else return none

/-- The first block in `start..start + n` stamped `cycle`. -/
def checkedFindCycle (log : Log) (start n cycle : Nat) : Result (Option Nat) :=
  log.checkedCycleLoop (start + n) cycle n start

/-- Back `last` up to the header of the record it is in the middle of. -/
def checkedBackUp (log : Log) (start last extra : Nat) : Result (Option Nat) :=
  let notFound : Result (Option Nat) :=
    if start = 0 then return none else throw (.corrupt "log: no record header before the head")
  if last ≤ start then notFound
  else do
    let n ← sub last start
    let buf ← log.checkedRead start n
    match ← checkedLastHeader buf start n last with
    | none => notFound
    | some i => do
        let h ← checkedBlock buf start i
        let back ← sub last i
        let len ← readBe 4 h 12
        let hblks ← log.checkedHblks h
        if back + extra ≠ bytesToBbs len + hblks then return some i else return some last

/-- The head of a log written part way round once. -/
def checkedZeroed (log : Log) : Result Nat := do
  let end_ ← sub log.bbs 1
  let last ← log.checkedCycleStart 0 end_ 0 end_
  let n := min log.totalRecBbs last
  let start ← sub last n
  let found ← log.checkedFindCycle start n 0
  match ← log.checkedBackUp start (found.getD last) 0 with
  | none => throw (.corrupt "log: no record header before the zeroed blocks")
  | some last => return last

/-- The head after looking back over what could have been in flight. -/
def checkedLookBack (log : Log) (head stop : Nat) : Result Nat := do
  let n := min log.totalRecBbs log.bbs
  if n ≤ head then do
    let start ← sub head n
    let found ← log.checkedFindCycle start n stop
    return found.getD head
  else do
    let rest ← sub n head
    let start ← sub log.bbs rest
    match ← log.checkedFindCycle start rest (cycleBefore stop) with
    | some b => return b
    | none => do
        let found ← log.checkedFindCycle 0 head stop
        return found.getD head

/-- The head, out of the middle of a record. -/
def checkedLeave (log : Log) (head : Nat) : Result Nat := do
  let notFound : Error := .corrupt "log: no record header before the head"
  let n := log.recBbs
  if n ≤ head then do
    let start ← sub head n
    match ← log.checkedBackUp start head 0 with
    | none => throw notFound
    | some head => return head
  else
    match ← log.checkedBackUp 0 head 0 with
    | some head => return head
    | none => do
        let rest ← sub n head
        failIf (log.bbs < rest) (.corrupt "log too small")
        let start ← sub log.bbs rest
        match ← log.checkedBackUp start log.bbs head with
        | none => throw notFound
        | some stop => return if stop ≠ log.bbs then stop else head

/-- Where the next log write would go. -/
def checkedFindHead (log : Log) : Result (Option Nat) := do
  let bbs := log.bbs
  let firstCycle ← log.checkedCycle 0
  if firstCycle = 0 then return none
  else do
    let end_ ← sub bbs 1
    let lastCycle ← log.checkedCycle end_
    if lastCycle = 0 then do
      let head ← log.checkedZeroed
      return some head
    else do
      let (head, stop) ←
        if firstCycle = lastCycle then pure (bbs, cycleBefore lastCycle)
        else do
          let head ← log.checkedCycleStart lastCycle end_ 0 end_
          pure (head, lastCycle)
      let head ← log.checkedLookBack head stop
      let head ← log.checkedLeave head
      return some (if head = bbs then 0 else head)

/-- The last record header in `lo..stop`. -/
def checkedHeaderIn (log : Log) (lo : Nat) : Nat → Nat → Result (Option (Nat × Bytes))
  | 0, stop => if lo < stop then throw Endless else return none
  | fuel + 1, stop =>
      if lo < stop then do
        let begin_ := max (stop - CHUNK) lo
        let n ← sub stop begin_
        let buf ← log.checkedRead begin_ n
        match ← checkedLastHeader buf begin_ n stop with
        | some i => do
            let h ← checkedBlock buf begin_ i
            return some (i, h)
        | none => checkedHeaderIn log lo fuel begin_
      else return none

/-- The last record header before `head`, searching back round the whole ring. -/
def checkedHeaderBefore (log : Log) (head : Nat) : Result (Nat × Bytes) := do
  match ← log.checkedHeaderIn 0 head head with
  | some r => return r
  | none =>
      match ← log.checkedHeaderIn head log.bbs log.bbs with
      | some r => return r
      | none => throw (.corrupt "log: no record header anywhere")

/-- Whether the record's one operation unmounts. -/
def checkedUnmounts (log : Log) (rblk hblks : Nat) : Result Bool := do
  let data ← log.checkedRead ((rblk + hblks) % log.bbs) 1
  let flags ← readBe 1 data 9
  return hasBit flags UNMOUNT_TRANS

/-- Clean, or dirty from where to where, with the head known. -/
def checkedStateAt (log : Log) (head : Nat) : Result LogState := do
  let (rblk, h) ← log.checkedHeaderBefore head
  let lsn ← readBe 8 h 24
  let hblks ← log.checkedHblks h
  let len ← readBe 4 h 12
  let after := (rblk + hblks + bytesToBbs len) % log.bbs
  let ops ← readBe 4 h 40
  let unmount ← if head = after ∧ ops = 1 then log.checkedUnmounts rblk hblks else pure false
  return if unmount then .clean else .dirty head (lsn % 2 ^ 32)

/-- Clean, or dirty from where to where. -/
def checkedState (log : Log) : Result LogState := do
  match ← log.checkedFindHead with
  | none => return .clean
  | some head => do
      let first ← if head = 0 then log.checkedCycle 0 else pure 1
      if first = 0 then return .clean else log.checkedStateAt head

section
variable {log : Log}

/-! ## Blocks read -/

theorem rounded_le (hal : 0 < log.align) (first count : Nat) :
    (log.start + first * BB) / log.align * log.align ≤ log.start + first * BB ∧
      log.start + first * BB + count * BB ≤
        divCeil (log.start + first * BB + count * BB) log.align * log.align :=
  ⟨Nat.div_mul_le_self _ _, le_divCeil_mul hal⟩

theorem ensures_read (hal : 0 < log.align) (first count : Nat) :
    Ensures Stopped (log.read first count) fun buf => buf.length = count * BB := by
  obtain ⟨hfrom, hto⟩ := rounded_le hal first count
  unfold read
  refine (ensures_throwIf (not_stopped_corrupt _)).bind fun _ _ => ?_
  refine (ensures_readAt _ _ _).bind fun buf hbuf => ensures_pure ?_
  rw [length_slice (by omega)]
  omega

/-- Every read asked for is of blocks of the log. -/
theorem checkedRead_eq (hal : 0 < log.align) {first count : Nat} (hcount : 0 < count)
    (hin : first + count ≤ log.bbs) : log.checkedRead first count = log.read first count := by
  obtain ⟨hfrom, hto⟩ := rounded_le hal first count
  unfold checkedRead read
  rw [except_throwIf_bind_of_not (by omega), except_throwIf_bind_of_not (by omega)]
  dsimp only
  rw [sub_ok (by omega), except_ok_bind]
  refine (ensures_readAt _ _ _).bind_congr fun buf hbuf => ?_
  rw [sub_ok hfrom, except_ok_bind, sub_ok (by omega), except_ok_bind,
    readUpTo_ok (by omega) (by omega), Nat.sub_sub_sub_cancel_right hfrom]
  rfl

theorem checkedCycleOf_eq {b : Bytes} (h : 8 ≤ b.length) : checkedCycleOf b = .ok (cycleOf b) := by
  unfold checkedCycleOf cycleOf
  rw [readBe_ok (by omega), except_ok_bind]
  split
  · exact readBe_ok h
  · rfl

theorem ensures_cycle (hal : 0 < log.align) (bb : Nat) :
    Ensures Stopped (log.cycle bb) fun _ => True :=
  (ensures_read hal bb 1).bind fun _ _ => ensures_pure trivial

theorem checkedCycle_eq (hal : 0 < log.align) {bb : Nat} (hbb : bb < log.bbs) :
    log.checkedCycle bb = log.cycle bb := by
  unfold checkedCycle cycle
  rw [checkedRead_eq hal Nat.one_pos hbb]
  refine (ensures_read hal bb 1).bind_congr fun b hb => ?_
  exact checkedCycleOf_eq (by rw [hb]; decide)

theorem checkedHblks_eq {h : Bytes} (hlen : h.length = BB) :
    log.checkedHblks h = .ok (log.hblks h) := by
  have h512 : h.length = 512 := hlen
  unfold checkedHblks hblks
  rw [readBe_ok (by omega), except_ok_bind]
  cases log.v2 with
  | false => rfl
  | true =>
    rw [if_pos rfl, readBe_ok (by omega), except_ok_bind]
    rfl

theorem length_blockIn {buf : Bytes} {first count i : Nat} (hbuf : buf.length = count * BB)
    (h1 : first ≤ i) (h2 : i < first + count) : (blockIn buf first i).length = BB := by
  have hle : (i - first + 1) * BB ≤ count * BB := Nat.mul_le_mul_right _ (by omega)
  rw [Nat.succ_mul] at hle
  exact length_slice (by omega)

theorem checkedBlock_eq {buf : Bytes} {first count i : Nat} (hbuf : buf.length = count * BB)
    (h1 : first ≤ i) (h2 : i < first + count) :
    checkedBlock buf first i = .ok (blockIn buf first i) := by
  have hle : (i - first + 1) * BB ≤ count * BB := Nat.mul_le_mul_right _ (by omega)
  unfold checkedBlock blockIn
  rw [sub_ok h1, except_ok_bind, readUpTo_ok (Nat.mul_le_mul_right _ (by omega)) (by omega),
    Nat.succ_mul, Nat.add_sub_cancel_left]

theorem checkedLastHeader_eq {buf : Bytes} {first count : Nat} (hbuf : buf.length = count * BB) :
    ∀ {n i : Nat}, i = first + n → n ≤ count →
      checkedLastHeader buf first n i =
        .ok (findDown (fun i => isHeader (blockIn buf first i)) n i) := by
  intro n
  induction n with
  | zero =>
    intro i hi _
    rw [checkedLastHeader, if_pos (by omega)]
    rfl
  | succ n ih =>
    intro i hi hn
    have h512 : (blockIn buf first (i - 1)).length = 512 :=
      length_blockIn hbuf (by omega) (by omega)
    have hblock : checkedBlock buf first (i - 1) = .ok (blockIn buf first (i - 1)) :=
      checkedBlock_eq hbuf (by omega) (by omega)
    rw [checkedLastHeader, if_neg (by omega), sub_ok (by omega), except_ok_bind, hblock,
      except_ok_bind, readBe_ok (by omega), except_ok_bind, findDown]
    by_cases hmagic : be32 (blockIn buf first (i - 1)) 0 = HEADER_MAGIC
    · rw [if_pos hmagic, if_pos (by simpa [isHeader] using hmagic)]
      rfl
    · rw [if_neg hmagic, if_neg (by simpa [isHeader] using hmagic)]
      exact ih (by omega) (by omega)

theorem lastHeader_bounds {buf : Bytes} {first stop i : Nat} (hle : first ≤ stop)
    (h : lastHeader buf first stop = some i) : first ≤ i ∧ i < stop := by
  have hlast := @isLast_findDown (fun i => isHeader (blockIn buf first i)) (stop - first) stop
    (Nat.sub_le _ _)
  rw [lastHeader] at h
  rw [h] at hlast
  exact ⟨by have := hlast.1; omega, hlast.2.1⟩

/-! ## The searches -/

theorem checkedCycleStart_eq (hal : 0 < log.align) {c : Nat} :
    ∀ {fuel first stop : Nat}, first ≤ stop → stop - first ≤ fuel → stop ≤ log.bbs →
      log.checkedCycleStart c fuel first stop =
        bisect (fun mid => do return (← log.cycle mid) == c) fuel first stop := by
  intro fuel
  induction fuel with
  | zero =>
    intro first stop hle hfuel _
    have hmid : ¬((first + stop) / 2 ≠ first ∧ (first + stop) / 2 ≠ stop) := by omega
    rw [checkedCycleStart, if_neg hmid, bisect]
  | succ fuel ih =>
    intro first stop hle hfuel hstop
    rw [checkedCycleStart, bisect]
    split
    · rename_i hmid
      rw [checkedCycle_eq hal (by omega), bind_assoc]
      refine bind_congr fun got => ?_
      rw [pure_bind]
      by_cases hc : got = c
      · rw [if_pos hc, if_pos (by simpa using hc)]
        exact ih (by omega) (by omega) (by omega)
      · rw [if_neg hc, if_neg (by simpa using hc)]
        exact ih (by omega) (by omega) hstop
    · rfl

theorem checkedFindCycleStart_eq (hal : 0 < log.align) {last : Nat} (hlast : last < log.bbs)
    (c : Nat) : log.checkedCycleStart c last 0 last = log.findCycleStart 0 last c :=
  checkedCycleStart_eq hal (Nat.zero_le _) (le_refl _) hlast.le

theorem ensures_findCycleStart (hal : 0 < log.align) {first last : Nat} (hle : first ≤ last)
    (c : Nat) : Ensures Stopped (log.findCycleStart first last c) fun r => r ≤ last :=
  (ensures_bisect (fun i => (ensures_cycle hal i).bind fun _ _ => ensures_pure trivial) hle).mono
    fun _ hr => hr.2

theorem cycleOf_drop (buf : Bytes) (o : Nat) : cycleOf (buf.drop o) = cycleOf (slice buf o BB) := by
  have hword : ∀ i, i + 4 ≤ BB → be32 (buf.drop o) i = be32 (slice buf o BB) i := by
    intro i hi
    unfold be32 getBe
    rw [slice_slice hi, slice, List.drop_drop, slice]
  unfold cycleOf
  rw [hword 0 (by decide), hword 4 (by decide)]

theorem checkedStamp_eq {buf : Bytes} {c count : Nat} (hbuf : buf.length = count * BB) (first : Nat) :
    ∀ {left j : Nat}, j + left = count → checkedStamp buf c left j =
      .ok ((List.range' j left).find? fun j => cycleOf (blockIn buf first (first + j)) == c) := by
  intro left
  induction left with
  | zero =>
    intro j _
    rfl
  | succ left ih =>
    intro j hj
    have hle : (j + 1) * BB ≤ count * BB := Nat.mul_le_mul_right _ (by omega)
    have hBB : BB = 512 := rfl
    rw [Nat.succ_mul] at hle
    have hblock : blockIn buf first (first + j) = slice buf (j * BB) BB := by
      rw [blockIn, Nat.add_sub_cancel_left]
    rw [checkedStamp, readFrom_ok (by omega), except_ok_bind,
      checkedCycleOf_eq (by rw [List.length_drop]; omega), except_ok_bind, List.range'_succ,
      List.find?_cons, hblock, ← cycleOf_drop]
    by_cases hc : cycleOf (buf.drop (j * BB)) = c
    · rw [if_pos hc, beq_iff_eq.mpr hc]
      rfl
    · rw [if_neg hc, beq_eq_false_iff_ne.mpr hc]
      exact ih (by omega)

theorem checkedCycleLoop_eq (hal : 0 < log.align) {stop c : Nat} (hstop : stop ≤ log.bbs) :
    ∀ {fuel i : Nat}, stop - i ≤ fuel →
      log.checkedCycleLoop stop c fuel i = log.findCycleLoop stop c fuel i := by
  intro fuel
  induction fuel with
  | zero =>
    intro i hfuel
    rw [checkedCycleLoop, if_neg (by omega), findCycleLoop]
  | succ fuel ih =>
    intro i hfuel
    rw [checkedCycleLoop, findCycleLoop]
    split
    · rename_i hi
      rw [sub_ok (by omega), except_ok_bind]
      dsimp only
      have hcount : 0 < min 2048 (stop - i) := by omega
      rw [checkedRead_eq hal hcount (by omega)]
      refine (ensures_read hal _ _).bind_congr fun buf hbuf => ?_
      rw [checkedStamp_eq hbuf i (Nat.zero_add _), except_ok_bind, List.range_eq_range']
      cases List.find? (fun j => cycleOf (blockIn buf i (i + j)) == c)
          (List.range' 0 (min 2048 (stop - i))) with
      | some j => rfl
      | none => exact ih (by omega)
    · rfl

theorem ensures_findCycleLoop (hal : 0 < log.align) {stop c : Nat} :
    ∀ {fuel i : Nat}, Ensures Stopped (log.findCycleLoop stop c fuel i)
      fun r => ∀ b ∈ r, b < stop := by
  intro fuel
  induction fuel with
  | zero =>
    intro i
    exact ensures_pure fun b hb => by cases hb
  | succ fuel ih =>
    intro i
    rw [findCycleLoop]
    refine ensures_ite (fun hi => ?_) fun _ => ensures_pure fun b hb => by cases hb
    refine (ensures_read hal _ _).bind fun buf _ => ?_
    split
    · rename_i j hj
      have hmem := List.mem_range.mp (List.mem_of_find?_eq_some hj)
      refine ensures_pure fun b hb => ?_
      obtain rfl := Option.some.inj hb
      omega
    · exact ih

theorem checkedFindCycle_eq (hal : 0 < log.align) {start n c : Nat} (hin : start + n ≤ log.bbs) :
    log.checkedFindCycle start n c = log.findCycle start n c :=
  checkedCycleLoop_eq hal hin (by omega)

/-- What a search for a cycle makes of a bound: what it finds, or else what there was. -/
theorem ensures_findCycle (hal : 0 < log.align) (start n c : Nat) :
    Ensures Stopped (log.findCycle start n c) fun r => ∀ b ∈ r, b < start + n :=
  ensures_findCycleLoop hal

theorem getD_le {r : Option Nat} {a b : Nat} (h : ∀ x ∈ r, x < b) (ha : a ≤ b) : r.getD a ≤ b := by
  cases r with
  | none => exact ha
  | some x => exact (h x rfl).le

theorem checkedBackUp_eq (hal : 0 < log.align) {start last extra : Nat} (hlast : last ≤ log.bbs) :
    log.checkedBackUp start last extra = log.backUpToRecord start last extra := by
  unfold checkedBackUp backUpToRecord
  dsimp only
  by_cases hlt : last ≤ start
  · rw [if_pos hlt, if_pos hlt]
  · rw [if_neg hlt, if_neg hlt, sub_ok (by omega), except_ok_bind, checkedRead_eq hal (by omega) (by omega)]
    refine (ensures_read hal _ _).bind_congr fun buf hbuf => ?_
    rw [checkedLastHeader_eq hbuf (by omega) (le_refl _), except_ok_bind]
    change _ = match lastHeader buf start last with
      | none => _
      | some i => _
    cases hfound : lastHeader buf start last with
    | none =>
      rw [lastHeader] at hfound
      rw [hfound]
    | some i =>
      obtain ⟨hi, hilast⟩ := lastHeader_bounds (by omega) hfound
      have hlen : (blockIn buf start i).length = BB := length_blockIn hbuf hi (by omega)
      have h512 : (blockIn buf start i).length = 512 := hlen
      rw [lastHeader] at hfound
      rw [hfound]
      dsimp only
      rw [checkedBlock_eq hbuf hi (by omega), except_ok_bind, sub_ok (by omega), except_ok_bind,
        readBe_ok (by omega), except_ok_bind, checkedHblks_eq hlen, except_ok_bind]

theorem ensures_backUp (hal : 0 < log.align) (start last extra : Nat) :
    Ensures Stopped (log.backUpToRecord start last extra) fun r => ∀ l ∈ r, l ≤ last := by
  have hnone : Ensures Stopped (if start = 0 then (return none : Result (Option Nat))
      else throw (.corrupt "log: no record header before the head")) fun r => ∀ l ∈ r, l ≤ last :=
    ensures_ite (fun _ => ensures_pure fun l hl => by cases hl)
      fun _ => ensures_error (not_stopped_corrupt _)
  unfold backUpToRecord
  refine ensures_ite (fun _ => hnone) fun hlt => ?_
  refine (ensures_read hal _ _).bind fun buf _ => ?_
  cases hfound : lastHeader buf start last with
  | none => exact hnone
  | some i =>
    obtain ⟨-, hi⟩ := lastHeader_bounds (by omega) hfound
    refine ensures_ite (fun _ => ensures_pure fun l hl => ?_) fun _ => ensures_pure fun l hl => ?_
    · obtain rfl := Option.some.inj hl
      exact hi.le
    · exact (Option.some.inj hl).ge

/-! ## The head -/

section
variable (hal : 0 < log.align)
include hal

theorem checkedZeroed_eq (hbbs : 1 ≤ log.bbs) : log.checkedZeroed = log.findZeroed := by
  unfold checkedZeroed findZeroed
  rw [sub_ok hbbs, except_ok_bind, checkedFindCycleStart_eq hal (by omega)]
  refine (ensures_findCycleStart hal (Nat.zero_le _) 0).bind_congr fun last hlast => ?_
  dsimp only
  rw [sub_ok (Nat.min_le_right _ _), except_ok_bind, checkedFindCycle_eq hal (by omega)]
  refine (ensures_findCycle hal _ _ _).bind_congr fun found hfound => ?_
  have hle : found.getD last ≤ last := by
    refine getD_le (fun b hb => ?_) (le_refl _)
    have := hfound b hb
    omega
  exact congrArg (· >>= _) (checkedBackUp_eq hal (by omega))

theorem ensures_findZeroed (hbbs : 1 ≤ log.bbs) :
    Ensures Stopped log.findZeroed fun head => head < log.bbs := by
  unfold findZeroed
  refine (ensures_findCycleStart hal (Nat.zero_le _) 0).bind fun last hlast => ?_
  refine (ensures_findCycle hal _ _ _).bind fun found hfound => ?_
  have hle : found.getD last ≤ last := by
    refine getD_le (fun b hb => ?_) (le_refl _)
    have := hfound b hb
    omega
  refine (ensures_backUp hal _ _ _).bind fun r hr => ?_
  cases r with
  | none => exact ensures_error (not_stopped_corrupt _)
  | some l =>
    refine ensures_pure ?_
    have := hr l rfl
    omega

theorem checkedLookBack_eq {head stop : Nat} (hhead : head ≤ log.bbs) :
    log.checkedLookBack head stop = log.lookBack head stop := by
  unfold checkedLookBack lookBack
  dsimp only
  by_cases hn : min log.totalRecBbs log.bbs ≤ head
  · rw [if_pos hn, if_pos hn, sub_ok hn, except_ok_bind, checkedFindCycle_eq hal (by omega)]
  · rw [if_neg hn, if_neg hn, sub_ok (by omega), except_ok_bind, sub_ok (by omega), except_ok_bind,
      checkedFindCycle_eq hal (by omega)]
    refine bind_congr fun found => ?_
    cases found with
    | some b => rfl
    | none =>
      dsimp only
      rw [checkedFindCycle_eq hal (by omega)]

theorem ensures_lookBack {head : Nat} (hhead : head ≤ log.bbs) (stop : Nat) :
    Ensures Stopped (log.lookBack head stop) fun r => r ≤ log.bbs := by
  unfold lookBack
  refine ensures_ite (fun hn => ?_) fun hn => ?_
  · refine (ensures_findCycle hal _ _ _).bind fun found hfound => ensures_pure ?_
    refine getD_le (fun b hb => ?_) hhead
    have := hfound b hb
    omega
  · refine (ensures_findCycle hal _ _ _).bind fun found hfound => ?_
    cases found with
    | some b =>
      refine ensures_pure ?_
      have := hfound b rfl
      omega
    | none =>
      refine (ensures_findCycle hal _ _ _).bind fun found hfound => ensures_pure ?_
      refine getD_le (fun b hb => ?_) hhead
      have := hfound b hb
      omega

theorem checkedLeave_eq {head : Nat} (hhead : head ≤ log.bbs) :
    log.checkedLeave head = log.leaveRecord head := by
  unfold checkedLeave leaveRecord
  dsimp only
  by_cases hn : log.recBbs ≤ head
  · rw [if_pos hn, if_pos hn, sub_ok hn, except_ok_bind]
    exact congrArg (· >>= _) (checkedBackUp_eq hal hhead)
  · rw [if_neg hn, if_neg hn, checkedBackUp_eq hal hhead]
    refine bind_congr fun r => ?_
    cases r with
    | some l => rfl
    | none =>
      dsimp only
      rw [sub_ok (by omega), except_ok_bind]
      by_cases hsmall : log.bbs < log.recBbs - head
      · rw [except_throwIf_bind_of hsmall, except_throwIf_bind_of hsmall]
      · rw [except_throwIf_bind_of_not hsmall, except_throwIf_bind_of_not hsmall, sub_ok (by omega),
          except_ok_bind]
        exact congrArg (· >>= _) (checkedBackUp_eq hal (le_refl _))

theorem ensures_leave {head : Nat} (hhead : head ≤ log.bbs) :
    Ensures Stopped (log.leaveRecord head) fun r => r ≤ log.bbs := by
  unfold leaveRecord
  refine ensures_ite (fun hn => ?_) fun hn => ?_
  · refine (ensures_backUp hal _ _ _).bind fun r hr => ?_
    cases r with
    | none => exact ensures_error (not_stopped_corrupt _)
    | some l => exact ensures_pure ((hr l rfl).trans hhead)
  · refine (ensures_backUp hal _ _ _).bind fun r hr => ?_
    cases r with
    | some l => exact ensures_pure ((hr l rfl).trans hhead)
    | none =>
      refine (ensures_throwIf (not_stopped_corrupt _)).bind fun _ _ => ?_
      refine (ensures_backUp hal _ _ _).bind fun r hr => ?_
      cases r with
      | none => exact ensures_error (not_stopped_corrupt _)
      | some stop =>
        refine ensures_pure ?_
        split
        · exact hr stop rfl
        · exact hhead

theorem checkedFindHead_eq (hbbs : 1 ≤ log.bbs) : log.checkedFindHead = log.findHead := by
  have hrest : ∀ {head : Nat} (stop : Nat), head ≤ log.bbs →
      (do
        let head ← log.checkedLookBack head stop
        let head ← log.checkedLeave head
        return some (if head = log.bbs then 0 else head) : Result (Option Nat)) =
      (do
        let head ← log.lookBack head stop
        let head ← log.leaveRecord head
        return some (if head = log.bbs then 0 else head)) := by
    intro head stop hhead
    rw [checkedLookBack_eq hal hhead]
    refine (ensures_lookBack hal hhead _).bind_congr fun head hhead => ?_
    rw [checkedLeave_eq hal hhead]
  unfold checkedFindHead findHead
  dsimp only
  rw [checkedCycle_eq hal hbbs]
  refine bind_congr fun first => ?_
  by_cases hfirst : first = 0
  · rw [if_pos hfirst, if_pos hfirst]
  rw [if_neg hfirst, if_neg hfirst, sub_ok hbbs, except_ok_bind, checkedCycle_eq hal (by omega)]
  refine bind_congr fun last => ?_
  by_cases hlast : last = 0
  · rw [if_pos hlast, if_pos hlast, checkedZeroed_eq hal hbbs]
  rw [if_neg hlast, if_neg hlast]
  by_cases heq : first = last
  · rw [if_pos heq, if_pos heq]
    exact hrest _ (le_refl _)
  · rw [if_neg heq, if_neg heq, checkedFindCycleStart_eq hal (by omega)]
    refine (ensures_findCycleStart hal (Nat.zero_le _) last).bind_congr fun head hhead => ?_
    exact hrest _ (by omega)

/-- A head found is a block of the log. -/
theorem ensures_findHead (hbbs : 1 ≤ log.bbs) :
    Ensures Stopped log.findHead fun r => ∀ head ∈ r, head < log.bbs := by
  have hrest : ∀ {head : Nat} (stop : Nat), head ≤ log.bbs → Ensures Stopped
      (do
        let head ← log.lookBack head stop
        let head ← log.leaveRecord head
        return some (if head = log.bbs then 0 else head) : Result (Option Nat))
      fun r => ∀ head ∈ r, head < log.bbs := by
    intro head stop hhead
    refine (ensures_lookBack hal hhead _).bind fun head hhead => ?_
    refine (ensures_leave hal hhead).bind fun head hhead => ensures_pure fun b hb => ?_
    rw [← Option.some.inj hb]
    split <;> omega
  unfold findHead
  refine (ensures_cycle hal 0).bind fun first _ => ?_
  refine ensures_ite (fun _ => ensures_pure fun head h => by cases h) fun _ => ?_
  refine (ensures_cycle hal _).bind fun last _ => ?_
  refine ensures_ite (fun _ => ?_) fun _ => ?_
  · refine (ensures_findZeroed hal hbbs).bind fun head hhead => ensures_pure fun b hb => ?_
    rwa [← Option.some.inj hb]
  · refine ensures_ite (fun _ => hrest _ (le_refl _)) fun _ => ?_
    refine (ensures_findCycleStart hal (Nat.zero_le _) last).bind fun head hhead => ?_
    exact hrest _ (by omega)

/-! ## The last record -/

/-- The header found is a block of the log. -/
theorem ensures_headerIn (lo : Nat) :
    ∀ {fuel stop : Nat}, Ensures Stopped (log.headerIn lo fuel stop)
      fun r => ∀ x ∈ r, x.2.length = BB := by
  intro fuel
  induction fuel with
  | zero =>
    intro stop
    exact ensures_pure fun x hx => by cases hx
  | succ fuel ih =>
    intro stop
    rw [headerIn]
    refine ensures_ite (fun hlo => ?_) fun _ => ensures_pure fun x hx => by cases hx
    refine (ensures_read hal _ _).bind fun buf hbuf => ?_
    cases hfound : lastHeader buf (max (stop - CHUNK) lo) stop with
    | none => exact ih
    | some i =>
      obtain ⟨hi, hstop⟩ := lastHeader_bounds (by omega) hfound
      refine ensures_pure fun x hx => ?_
      obtain rfl := Option.some.inj hx
      exact length_blockIn hbuf hi (by omega)

theorem checkedHeaderIn_eq {lo : Nat} :
    ∀ {fuel stop : Nat}, stop - lo ≤ fuel → stop ≤ log.bbs →
      log.checkedHeaderIn lo fuel stop = log.headerIn lo fuel stop := by
  intro fuel
  induction fuel with
  | zero =>
    intro stop hfuel _
    rw [checkedHeaderIn, if_neg (by omega), headerIn]
  | succ fuel ih =>
    intro stop hfuel hstop
    have hchunk := CHUNK_pos
    rw [checkedHeaderIn, headerIn]
    dsimp only
    by_cases hlo : lo < stop
    · rw [if_pos hlo, if_pos hlo, sub_ok (by omega), except_ok_bind,
        checkedRead_eq hal (by omega) (by omega)]
      refine (ensures_read hal _ _).bind_congr fun buf hbuf => ?_
      rw [checkedLastHeader_eq hbuf (by omega) (le_refl _), except_ok_bind]
      cases hfound : lastHeader buf (max (stop - CHUNK) lo) stop with
      | none =>
        rw [lastHeader] at hfound
        rw [hfound]
        exact ih (by omega) (by omega)
      | some i =>
        obtain ⟨hi, hilast⟩ := lastHeader_bounds (by omega) hfound
        rw [lastHeader] at hfound
        rw [hfound]
        dsimp only
        rw [checkedBlock_eq hbuf hi (by omega), except_ok_bind]
    · rw [if_neg hlo, if_neg hlo]

theorem ensures_headerBefore (head : Nat) :
    Ensures Stopped (log.headerBefore head) fun r => r.2.length = BB := by
  unfold headerBefore
  refine (ensures_headerIn hal 0).bind fun r hr => ?_
  cases r with
  | some x => exact ensures_pure (hr x rfl)
  | none =>
    refine (ensures_headerIn hal head).bind fun r hr => ?_
    cases r with
    | some x => exact ensures_pure (hr x rfl)
    | none => exact ensures_error (not_stopped_corrupt _)

theorem checkedHeaderBefore_eq {head : Nat} (hhead : head ≤ log.bbs) :
    log.checkedHeaderBefore head = log.headerBefore head := by
  unfold checkedHeaderBefore headerBefore
  rw [checkedHeaderIn_eq hal (by omega) hhead]
  refine bind_congr fun r => ?_
  cases r with
  | some x => rfl
  | none =>
    dsimp only
    exact congrArg (· >>= _) (checkedHeaderIn_eq hal (by omega) (le_refl _))

/-! ## The state -/

theorem checkedUnmounts_eq (hbbs : 1 ≤ log.bbs) (rblk hblks : Nat) :
    log.checkedUnmounts rblk hblks = log.unmounts rblk hblks := by
  unfold checkedUnmounts unmounts
  rw [checkedRead_eq hal Nat.one_pos (Nat.mod_lt _ hbbs)]
  refine (ensures_read hal _ _).bind_congr fun data hdata => ?_
  rw [readBe_ok (by rw [hdata]; decide), except_ok_bind]

theorem ensures_unmounts (rblk hblks : Nat) :
    Ensures Stopped (log.unmounts rblk hblks) fun _ => True :=
  (ensures_read hal _ _).bind fun _ _ => ensures_pure trivial

theorem checkedStateAt_eq (hbbs : 1 ≤ log.bbs) {head : Nat} (hhead : head ≤ log.bbs) :
    log.checkedStateAt head = log.stateAt head := by
  unfold checkedStateAt stateAt
  rw [checkedHeaderBefore_eq hal hhead]
  refine (ensures_headerBefore hal head).bind_congr fun r hlen => ?_
  have h512 : r.2.length = 512 := hlen
  dsimp only
  rw [readBe_ok (by omega), except_ok_bind, checkedHblks_eq hlen, except_ok_bind,
    readBe_ok (by omega), except_ok_bind, readBe_ok (by omega), except_ok_bind,
    checkedUnmounts_eq hal hbbs]

/-- Clean, or dirty up to a block of the log. -/
def Told (log : Log) (s : LogState) : Prop :=
  s = .clean ∨ ∃ head tail, s = .dirty head tail ∧ head < log.bbs

theorem ensures_stateAt {head : Nat} (hhead : head < log.bbs) :
    Ensures Stopped (log.stateAt head) log.Told := by
  have htold : ∀ (unmount : Bool) (tail : Nat),
      log.Told (if unmount then .clean else .dirty head tail) := by
    intro unmount tail
    cases unmount with
    | true => exact Or.inl rfl
    | false => exact Or.inr ⟨head, tail, rfl, hhead⟩
  unfold stateAt
  refine (ensures_headerBefore hal head).bind fun r _ => ?_
  refine ensures_ite (fun _ => ?_) fun _ => ensures_pure (htold false _)
  exact (ensures_unmounts hal _ _).bind fun unmount _ => ensures_pure (htold unmount _)

theorem checkedState_eq (hbbs : 1 ≤ log.bbs) : log.checkedState = log.state := by
  unfold checkedState state
  rw [checkedFindHead_eq hal hbbs]
  refine (ensures_findHead hal hbbs).bind_congr fun r hr => ?_
  cases r with
  | none => rfl
  | some head =>
    have hhead := hr head rfl
    dsimp only
    rw [checkedCycle_eq hal hbbs, checkedStateAt_eq hal hbbs hhead.le]

theorem ensures_state (hbbs : 1 ≤ log.bbs) : Ensures Stopped log.state log.Told := by
  unfold state
  refine (ensures_findHead hal hbbs).bind fun r hr => ?_
  cases r with
  | none => exact ensures_pure (Or.inl rfl)
  | some head =>
    have hrest : ∀ first : Nat, Ensures Stopped
        (if first = 0 then return .clean else log.stateAt head : Result LogState) log.Told :=
      fun first => ensures_ite (fun _ => ensures_pure (Or.inl rfl))
        fun _ => ensures_stateAt hal (hr head rfl)
    exact ensures_ite (fun _ => (ensures_cycle hal 0).bind fun first _ => hrest first)
      fun _ => hrest 1

end

/-- Reading a log of any contents takes no difference below zero, no index past the end of what
was read and no block outside the log, goes round no loop for longer than the log has blocks, and
ends with an error, with a clean log or with a head that is a block of the log. -/
theorem state_in_bounds (hal : 0 < log.align) (hbbs : 1 ≤ log.bbs) :
    InBounds log.checkedState log.state ∧ ∀ s, log.state = .ok s → log.Told s := by
  have hstate := ensures_state hal hbbs
  exact ⟨inBounds_of_eq (checkedState_eq hal hbbs) hstate, hstate.2⟩

end

/-- A log of one block, the header of a record of no bytes written in cycle 1. -/
def oneBlock : Log :=
  ⟨⟨putFields 4 (List.replicate BB 0) [(0, HEADER_MAGIC), (4, 1)], []⟩, 0, 1, BB, false⟩

set_option maxRecDepth 100000 in
theorem state_in_bounds_oneBlock :
    (0 < oneBlock.align ∧ 1 ≤ oneBlock.bbs ∧ oneBlock.state = .ok (.dirty 0 0)) ∧
      InBounds oneBlock.checkedState oneBlock.state ∧
      ∀ s, oneBlock.state = .ok s → oneBlock.Told s :=
  ⟨by decide +kernel, state_in_bounds (by decide) (by decide)⟩

end FioXfs.Log
