import FioXfs.Lib.Levels
import FioXfs.Lib.Search
import FioXfs.Superblock
set_option autoImplicit false

/-!
# The log (`log.rs`)

Was the filesystem cleanly unmounted?  The log is a ring of 512-byte basic blocks, each
starting with the cycle number it was written in, so its head is where that number
drops.  The head is searched for, and the last record before it looked at.
-/

namespace FioXfs

open FioXfs.Lib

/-- What the log says about how the filesystem was left. -/
inductive LogState where
  /-- Unmounted cleanly, or the log was never written. -/
  | clean
  /-- Not cleanly unmounted: changes from `tail` up to `head` may not be on disk. -/
  | dirty (head tail : Nat)
  /-- The log is on a device of its own. -/
  | external
  /-- The log could not be made sense of. -/
  | unreadable (why : String)
  deriving DecidableEq

/-- The log's basic blocks, read in whole filesystem blocks. -/
structure Log where
  dev : Device
  /-- Byte offset of the log on the device. -/
  start : Nat
  /-- Basic blocks in the log. -/
  bbs : Nat
  /-- Reads are rounded out to this, the filesystem block size. -/
  align : Nat
  v2 : Bool

namespace Log

/-- A record header's first word, never a cycle number. -/
def HEADER_MAGIC : Nat := 0xFEEDBABE
/-- An operation header flag: this transaction unmounts the filesystem. -/
def UNMOUNT_TRANS : Nat := 0x20
/-- Bytes in a basic block. -/
def BB : Nat := 512
/-- The cycle data one header block covers; bigger records add headers. -/
def HEADER_CYCLE_SIZE : Nat := 32 * 1024
/-- Log records in flight at once, at most. -/
def MAX_ICLOGS : Nat := 8

/-- The cycle a block was written in; a record header keeps it after its magic. -/
def cycleOf (b : Bytes) : Nat := if be32 b 0 = HEADER_MAGIC then be32 b 4 else be32 b 0

def bytesToBbs (n : Nat) : Nat := divCeil n BB

/-- `wrapping_sub(1)` on a cycle number. -/
def cycleBefore (c : Nat) : Nat := (c + (2 ^ 32 - 1)) % 2 ^ 32

/-- Whether a block starts a record. -/
def isHeader (b : Bytes) : Bool := be32 b 0 == HEADER_MAGIC

/-- Block `i` of blocks read from `first` on. -/
def blockIn (buf : Bytes) (first i : Nat) : Bytes := slice buf ((i - first) * BB) BB

/-- The last header among the blocks `first..stop`, which `buf` holds. -/
def lastHeader (buf : Bytes) (first stop : Nat) : Option Nat :=
  findDown (fun i => isHeader (blockIn buf first i)) (stop - first) stop

/-- The largest record, in basic blocks. -/
def recBbs (log : Log) : Nat := if log.v2 then 256 * 1024 / BB else 32 * 1024 / BB

/-- All the records that can be in flight. -/
def totalRecBbs (log : Log) : Nat := MAX_ICLOGS * log.recBbs

/-- Basic blocks `first..first + count`, which must not wrap. -/
def read (log : Log) (first count : Nat) : Result Bytes := do
  failIf (count = 0 ∨ log.bbs < first + count)
    (.corrupt s!"log read of {count} blocks at {first} outside the log")
  let from_ := log.start + first * BB
  let to_ := from_ + count * BB
  let a := from_ / log.align * log.align
  let b := divCeil to_ log.align * log.align
  let buf ← log.dev.readAt a (b - a)
  return slice buf (from_ - a) (to_ - from_)

def cycle (log : Log) (bb : Nat) : Result Nat := do
  return cycleOf (← log.read bb 1)

/-- Header blocks of the record whose header is `h`. -/
def hblks (log : Log) (h : Bytes) : Nat :=
  let size := be32 h 320
  if log.v2 && hasBit (be32 h 8) 2 && decide (HEADER_CYCLE_SIZE < size) then
    divCeil size HEADER_CYCLE_SIZE
  else 1

/-- Binary search between `first` and `last` for the first block in `cycle`. -/
def findCycleStart (log : Log) (first last cycle : Nat) : Result Nat :=
  bisect (fun mid => do return (← log.cycle mid) == cycle) (last - first) first last

/-- The loop of `findCycle` from block `i`, 2048 blocks at a time. -/
def findCycleLoop (log : Log) (stop cycle : Nat) : Nat → Nat → Result (Option Nat)
  | 0, _ => return none
  | fuel + 1, i =>
      if i < stop then do
        let count := min 2048 (stop - i)
        let buf ← log.read i count
        match (List.range count).find? fun j => cycleOf (blockIn buf i (i + j)) == cycle with
        | some j => return some (i + j)
        | none => findCycleLoop log stop cycle fuel (i + count)
      else return none

/-- The first block in `start..start + n` stamped `cycle`. -/
def findCycle (log : Log) (start n cycle : Nat) : Result (Option Nat) :=
  findCycleLoop log (start + n) cycle n start

/-- Back `last` up to the header of the record it is in the middle of, looking no
further back than `start`; `none` when the start of the log came first. -/
def backUpToRecord (log : Log) (start last extra : Nat) : Result (Option Nat) :=
  let notFound : Result (Option Nat) :=
    if start = 0 then return none else throw (.corrupt "log: no record header before the head")
  if last ≤ start then notFound
  else do
    let buf ← log.read start (last - start)
    match lastHeader buf start last with
    | none => notFound
    | some i =>
        let h := blockIn buf start i
        if last - i + extra ≠ bytesToBbs (be32 h 12) + log.hblks h then return some i
        else return some last

/-- The head of a log written part way round once: where the zeroes start. -/
def findZeroed (log : Log) : Result Nat := do
  let last ← log.findCycleStart 0 (log.bbs - 1) 0
  let n := min log.totalRecBbs last
  let start := last - n
  let found ← log.findCycle start n 0
  match ← log.backUpToRecord start (found.getD last) 0 with
  | none => throw (.corrupt "log: no record header before the zeroed blocks")
  | some last => return last

/-- Records are written out of order: look back over everything that could have been in
flight for a block the search skipped. -/
def lookBack (log : Log) (head stop : Nat) : Result Nat := do
  let n := min log.totalRecBbs log.bbs
  if n ≤ head then do
    let found ← log.findCycle (head - n) n stop
    return found.getD head
  else do
    let start := log.bbs - (n - head)
    match ← log.findCycle start (n - head) (cycleBefore stop) with
    | some b => return b
    | none => do
        let found ← log.findCycle 0 head stop
        return found.getD head

/-- The head must not be in the middle of a record, which may wrap round the end of the
log. -/
def leaveRecord (log : Log) (head : Nat) : Result Nat := do
  let notFound : Error := .corrupt "log: no record header before the head"
  let n := log.recBbs
  if n ≤ head then
    match ← log.backUpToRecord (head - n) head 0 with
    | none => throw notFound
    | some head => return head
  else
    match ← log.backUpToRecord 0 head 0 with
    | some head => return head
    | none => do
        failIf (log.bbs < n - head) (.corrupt "log too small")
        match ← log.backUpToRecord (log.bbs - (n - head)) log.bbs head with
        | none => throw notFound
        | some stop => return if stop ≠ log.bbs then stop else head

/-- Where the next log write would go; `none` for a log that is all zeroes. -/
def findHead (log : Log) : Result (Option Nat) := do
  let bbs := log.bbs
  let firstCycle ← log.cycle 0
  if firstCycle = 0 then return none
  else do
    let lastCycle ← log.cycle (bbs - 1)
    if lastCycle = 0 then do
      let head ← log.findZeroed
      return some head
    else do
      -- With the whole log in one cycle the head is at the end, unless a hole of the
      -- previous cycle says otherwise.
      let (head, stop) ←
        if firstCycle = lastCycle then pure (bbs, cycleBefore lastCycle)
        else do
          let head ← log.findCycleStart 0 (bbs - 1) lastCycle
          pure (head, lastCycle)
      let head ← log.lookBack head stop
      let head ← log.leaveRecord head
      return some (if head = bbs then 0 else head)

/-- Blocks looked at together by `headerIn`. -/
@[irreducible] def CHUNK : Nat := 256

theorem CHUNK_pos : 0 < CHUNK := by
  unfold CHUNK
  norm_num

/-- The last record header in `lo..stop`, searched `CHUNK` blocks at a time. -/
def headerIn (log : Log) (lo : Nat) : Nat → Nat → Result (Option (Nat × Bytes))
  | 0, _ => return none
  | fuel + 1, stop =>
      if lo < stop then do
        let begin_ := max (stop - CHUNK) lo
        let buf ← log.read begin_ (stop - begin_)
        match lastHeader buf begin_ stop with
        | some i => return some (i, blockIn buf begin_ i)
        | none => headerIn log lo fuel begin_
      else return none

/-- The last record header before `head`, searching back round the whole ring. -/
def headerBefore (log : Log) (head : Nat) : Result (Nat × Bytes) := do
  match ← log.headerIn 0 head head with
  | some r => return r
  | none =>
      match ← log.headerIn head log.bbs log.bbs with
      | some r => return r
      | none => throw (.corrupt "log: no record header anywhere")

/-- Whether the data of the record at `rblk`, whose one operation it is, unmounts. -/
def unmounts (log : Log) (rblk hblks : Nat) : Result Bool := do
  let data ← log.read ((rblk + hblks) % log.bbs) 1
  return hasBit (getBe 1 data 9) UNMOUNT_TRANS

/-- Clean, or dirty from where to where, with the head known. -/
def stateAt (log : Log) (head : Nat) : Result LogState := do
  let (rblk, h) ← log.headerBefore head
  let tail := be64 h 24 % 2 ^ 32
  let hblks := log.hblks h
  let after := (rblk + hblks + bytesToBbs (be32 h 12)) % log.bbs
  let unmount ← if head = after ∧ be32 h 40 = 1 then log.unmounts rblk hblks else pure false
  return if unmount then .clean else .dirty head tail

/-- Clean, or dirty from where to where. -/
def state (log : Log) : Result LogState := do
  match ← log.findHead with
  | none => return .clean
  | some head => do
      let first ← if head = 0 then log.cycle 0 else pure 1
      if first = 0 then return .clean else log.stateAt head

end Log

/-- Find out how the filesystem on `dev` was left: the source's `log::state`. -/
def logState (dev : Device) (sb : Superblock) : Result LogState :=
  if sb.hasExternalLog then .ok .external
  else do
    failIf (sb.logBlocks = 0) (.corrupt "internal log of no blocks")
    let start ← sb.fsbToByte sb.logStart
    -- An internal log lies inside one AG, so its blocks are contiguous.
    let _ ← sb.fsbToByte (sb.logStart + sb.logBlocks - 1)
    Log.state
      { dev := dev, start := start, bbs := sb.logBlocks <<< (sb.blockLog - 9)
        align := sb.blockSize, v2 := sb.hasLogv2 }

end FioXfs
