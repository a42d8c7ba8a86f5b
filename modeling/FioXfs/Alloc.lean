import FioXfs.Btree
import FioXfs.Lib.OrdMap
import FioXfs.Lib.Walk
set_option autoImplicit false

/-!
# Allocation groups (`alloc.rs`)

An allocation group held in memory while it is written: its free extents, its
inode chunks, its reverse mappings and the blocks of its trees as they were read.
Extents and chunks are taken from and given back to this copy; `rebuild` lays the
trees out afresh.
-/

namespace FioXfs.Alloc

open FioXfs.Lib FioXfs.Btree

/-! ## Constants -/

/-- The AG headers. -/
def OWN_FS : Nat := 2 ^ 64 - 3
/-- The internal log. -/
def OWN_LOG : Nat := 2 ^ 64 - 4
/-- Free-space and reverse-mapping B+tree blocks, and the AGFL. -/
def OWN_AG : Nat := 2 ^ 64 - 5
/-- Inode B+tree blocks. -/
def OWN_INOBT : Nat := 2 ^ 64 - 6
/-- Inode chunks. -/
def OWN_INODES : Nat := 2 ^ 64 - 7

/-- The block is a bmap B+tree block. -/
def RMAP_BMBT : Nat := 2 ^ 62
/-- The extent is unwritten. -/
def RMAP_UNWRITTEN : Nat := 2 ^ 61
/-- One past the largest offset. -/
def OFF_LIMIT : Nat := 2 ^ 54

def AGF_MAGIC : Nat := 0x58414746
def AGI_MAGIC : Nat := 0x58414749
def AGFL_MAGIC : Nat := 0x5841464c
def AGF_CRC : Nat := 216
def AGI_CRC : Nat := 312
def AGFL_CRC : Nat := 32

def ABTB : Nat := 0x41423342
def ABTC : Nat := 0x41423343
def IBT3 : Nat := 0x49414233
def FIB3 : Nat := 0x46494233
def RMB3 : Nat := 0x524d4233

/-- Inodes in a chunk. -/
def CHUNK_INODES : Nat := 64

/-- The longest extent a bmap record can describe. -/
def MAX_EXTENT : Nat := 2 ^ 21 - 1

/-! ## Reverse mappings -/

/-- One reverse mapping: `len` blocks from `start` belong to `owner`, at `offset`
(with its flags) in the owner's fork when the owner is an inode. -/
structure Rmap where
  start : Nat
  owner : Nat
  offset : Nat
  len : Nat
  deriving DecidableEq

namespace Rmap

/-- The fields in the order they are compared. -/
def key (r : Rmap) : ℕ ×ₗ ℕ ×ₗ ℕ ×ₗ ℕ := toLex (r.start, toLex (r.owner, toLex (r.offset, r.len)))

theorem key_injective : Function.Injective key := by
  intro a b h
  cases a; cases b
  simp only [key, toLex_inj, Prod.mk.injEq] at h
  obtain ⟨h1, h2, h3, h4⟩ := h
  subst h1; subst h2; subst h3; subst h4
  rfl

instance : LinearOrder Rmap := LinearOrder.lift' key key_injective

theorem lt_of_start_lt {a b : Rmap} (h : a.start < b.start) : a < b := by
  change key a < key b
  exact Prod.Lex.toLex_lt_toLex.mpr (Or.inl h)

/-- One past the last block. -/
def stop (r : Rmap) : Nat := r.start + r.len

/-- The source's `end`, a sum of 32 bits. -/
def end_ (r : Rmap) : Result Nat := do
  failIf (2 ^ 32 ≤ r.stop) (.panic "attempt to add with overflow")
  return r.stop

/-- Whether the owner is an inode: the sign bit is clear. -/
def inodeOwned (r : Rmap) : Bool := r.owner / 2 ^ 63 == 0

/-- The flags beside the offset. -/
def flags (r : Rmap) : Nat := r.offset / OFF_LIMIT

/-- Whether the mapping is of bmap B+tree blocks. -/
def isBmbt (r : Rmap) : Bool := r.offset.testBit 62

/-- Whether `next`, which has the same owner, continues a record that ends where it does. -/
def joins (r next : Rmap) : Bool :=
  if r.owner != next.owner || r.stop != next.start || decide (2 ^ 32 - 1 < r.len + next.len) then
    false
  else if !r.inodeOwned then true
  else if r.flags != next.flags then false
  else if r.isBmbt then true
  else r.offset % OFF_LIMIT + r.len == next.offset % OFF_LIMIT

/-- Whether `next` continues this record, so that the kernel would keep them as one.  The end is
looked at only when the owner is the same. -/
def mergesWith (r next : Rmap) : Result Bool := do
  if r.owner ≠ next.owner then return false
  let _ ← r.end_
  return r.joins next

/-- The record's data and its two keys, for a record that ends within 32 bits. -/
def record (r : Rmap) : Rec :=
  let keyOff := r.offset - if r.offset.testBit 61 then RMAP_UNWRITTEN else 0
  let adj := r.len - 1
  let highOff :=
    if r.inodeOwned && !r.isBmbt then
      (keyOff % OFF_LIMIT + adj) ||| (keyOff / OFF_LIMIT * OFF_LIMIT)
    else keyOff
  { data := toBe 4 r.start ++ toBe 4 r.len ++ toBe 8 r.owner ++ toBe 8 r.offset
    low := toBe 4 r.start ++ toBe 8 r.owner ++ toBe 8 keyOff
    high := toBe 4 (r.start + adj) ++ toBe 8 r.owner ++ toBe 8 highOff }

/-- The record as the tree stores it. -/
def encode (r : Rmap) : Result Rec := do
  failIf (r.len = 0) (.panic "attempt to subtract with overflow")
  failIf (2 ^ 32 ≤ r.start + (r.len - 1)) (.panic "attempt to add with overflow")
  return r.record

/-- The record stored in 24 bytes. -/
def decode (b : Bytes) : Rmap := ⟨be32 b 0, be64 b 8, be64 b 16, be32 b 4⟩

end Rmap

/-- Order of reverse-mapping keys: start, owner, offset without its flags. -/
def rmapKeyCmp (a b : Bytes) : Ordering :=
  (compare (be32 a 0) (be32 b 0)).then
    ((compare (be64 a 4) (be64 b 4)).then
      (compare (be64 a 12 % OFF_LIMIT) (be64 b 12 % OFF_LIMIT)))

/-- Order of byte strings. -/
def bytesCmp (a b : Bytes) : Ordering := compareOfLessAndEq a b

def BNO : AgSpec := ⟨ABTB, 8, 8, false, bytesCmp⟩
def CNT : AgSpec := ⟨ABTC, 8, 8, false, bytesCmp⟩
def INOBT : AgSpec := ⟨IBT3, 16, 4, false, bytesCmp⟩
def FINOBT : AgSpec := ⟨FIB3, 16, 4, false, bytesCmp⟩
def RMAP : AgSpec := ⟨RMB3, 24, 20, true, rmapKeyCmp⟩

/-! ## Inode chunks -/

/-- An inode chunk: 64 inodes from its start, some perhaps not there, some free. -/
structure Chunk where
  /-- Bit `i` set: inodes `4i..4i+4` are not allocated on disk. -/
  holemask : Nat
  /-- Inodes present. -/
  count : Nat
  /-- Bit `i` set: inode `i` is free (holes are marked free too). -/
  free : Nat
  deriving DecidableEq

namespace Chunk

/-- Whether inode `i` falls in a hole. -/
def hole (c : Chunk) (i : Nat) : Bool := c.holemask.testBit (i / 4)

/-- Whether inode `i` is free and really there. -/
def usable (c : Chunk) (i : Nat) : Bool := c.free.testBit i && !c.hole i

/-- Free inodes that are really there. -/
def freeCount (c : Chunk) : Nat := (List.range CHUNK_INODES).countP c.usable

/-- The lowest of them. -/
def firstFree (c : Chunk) : Option Nat := (List.range CHUNK_INODES).find? c.usable

/-- The chunk with inode `i` in use. -/
def take (c : Chunk) (i : Nat) : Chunk :=
  { c with free := c.free &&& ((1 <<< i) ^^^ (2 ^ 64 - 1)) }

/-- The chunk with inode `i` free. -/
def give (c : Chunk) (i : Nat) : Chunk := { c with free := c.free ||| (1 <<< i) }

/-- The inode tree's record of a chunk. -/
def encode (c : Chunk) (sb : Superblock) (startino : Nat) : Rec :=
  let counts :=
    if sb.hasSparseInodes then toBe 2 c.holemask ++ toBe 1 c.count ++ toBe 1 c.freeCount
    else toBe 4 c.freeCount
  { data := toBe 4 startino ++ counts ++ toBe 8 c.free
    low := toBe 4 startino
    high := toBe 4 startino }

/-- The chunk in a record. -/
def decode (sb : Superblock) (b : Bytes) : Chunk :=
  if sb.hasSparseInodes then ⟨be16 b 4, getBe 1 b 6, be64 b 8⟩ else ⟨0, 64, be64 b 8⟩

end Chunk

/-! ## The group -/

/-- An allocation group being written. -/
structure Ag where
  /-- Its number. -/
  agno : Nat
  /-- Blocks in it. -/
  len : Nat
  agf : Bytes
  agi : Bytes
  /-- Free extents: start to length. -/
  free : OrdMap Nat Nat
  /-- Blocks in `free`. -/
  freeTotal : Nat
  /-- Free blocks ordinary allocations leave alone. -/
  reserve : Nat
  /-- The AGFL's blocks, which are neither free here nor in a tree. -/
  agfl : List Nat
  /-- Every block of the trees as they were read: free when rebuilt. -/
  oldTreeBlocks : List Nat
  /-- Inode chunks by first AG inode. -/
  chunks : OrdMap Nat Chunk
  /-- Reverse mappings, when the filesystem keeps them. -/
  rmap : OrdSet Rmap
  /-- Whether anything changed. -/
  dirty : Bool
  deriving DecidableEq

/-! ## Reading it -/

/-- A block of an AG B+tree, checked: its records or its children. -/
def readTreeBlock (dev : Device) (sb : Superblock) (agno : Nat) (spec : AgSpec) (name : String)
    (agbno want : Nat) : Result (Node Nat Bytes) := do
  let bs := sb.blockSize
  let buf ← dev.readAt (sb.agbToByte agno agbno) bs
  failIf (be32 buf 0 ≠ spec.magic ∨ Crc.verify buf 52 = false)
    (.corrupt s!"{name}: block {agbno} magic or checksum")
  let level := be16 buf 4
  let n := be16 buf 6
  failIf (level ≠ want) (.corrupt s!"{name}: block {agbno} at level {level}, expected {want}")
  if level = 0 then do
    failIf (n > spec.leafMax bs) (.corrupt s!"{name}: block {agbno} holds {n} records")
    return .leaf ((List.range n).map fun i => slice buf (SHORT_HDR + i * spec.recLen) spec.recLen)
  else do
    failIf (n > spec.nodeMax bs) (.corrupt s!"{name}: block {agbno} holds {n} entries")
    return .node ((List.range n).map fun i => be32 buf (spec.ptrsAt bs + i * 4))

/-- The most blocks a tree is followed through. -/
def WALK_LIMIT : Nat := 2 ^ 24

/-- The walk's loop: each turn reads one block, and past `WALK_LIMIT` blocks it stops,
which is all the fuel it can use. -/
def walkLoop (dev : Device) (sb : Superblock) (agno : Nat) (spec : AgSpec) (name : String)
    (agLen : Nat) : Nat → List (Nat × Nat) → List Bytes → List Nat →
      Result (List Bytes × List Nat) :=
  walkStack
    (fun agbno blocks => failIf (agLen ≤ agbno ∨ WALK_LIMIT < blocks.length)
      (.corrupt s!"{name}: block {agbno}"))
    (readTreeBlock dev sb agno spec name) (fun agbno => .corrupt s!"{name}: block {agbno}")

/-- Every record and block of an AG B+tree. -/
def walkTree (dev : Device) (sb : Superblock) (agno : Nat) (spec : AgSpec) (root levels : Nat) :
    Result (List Bytes × List Nat) := do
  let name := s!"AG {agno} tree {hex spec.magic}"
  failIf (levels = 0 ∨ levels > 9) (.corrupt s!"{name}: {levels} levels")
  let agLen ← sb.agLen agno
  walkLoop dev sb agno spec name agLen (WALK_LIMIT + 2) [(root, levels - 1)] [] []

/-- Byte offset of the AG's `n`th header sector. -/
def headerAt (sb : Superblock) (agno n : Nat) : Nat := sb.agbToByte agno 0 + n * sb.sectorSize

/-- Read an AG's headers: its AGF and AGI, checked. -/
def readHeaders (dev : Device) (sb : Superblock) (agno : Nat) : Result (Bytes × Bytes) := do
  let agf ← dev.readAt (headerAt sb agno 1) sb.sect
  let agi ← dev.readAt (headerAt sb agno 2) sb.sect
  failIf (be32 agf 0 ≠ AGF_MAGIC ∨ Crc.verify agf AGF_CRC = false ∨ be32 agf 8 ≠ agno)
    (.corrupt s!"AG {agno}: AGF")
  failIf (be32 agi 0 ≠ AGI_MAGIC ∨ Crc.verify agi AGI_CRC = false ∨ be32 agi 8 ≠ agno)
    (.corrupt s!"AG {agno}: AGI")
  return (agf, agi)

/-- Free blocks the AGF accounts for, as the superblock counts them. -/
def agfFreeBlocks (agf : Bytes) : Nat := be32 agf 52 + be32 agf 48 + be32 agf 60

/-- Inodes allocated and free, as the AGI counts them. -/
def agiInodes (agi : Bytes) : Nat × Nat := (be32 agi 16, be32 agi 28)

/-- The free extents in the by-block tree's records, which must lie in order inside
the AG. -/
def loadFree (agno len : Nat) :
    List Bytes → Nat → OrdMap Nat Nat → Result (OrdMap Nat Nat)
  | [], _, free => return free
  | r :: recs, lastEnd, free => do
      let start := be32 r 0
      let n := be32 r 4
      failIf (n = 0 ∨ start < lastEnd ∨ len < start + n)
        (.corrupt s!"AG {agno}: free extent {start}+{n}")
      loadFree agno len recs (start + n) (free.insert start n)

/-- The AGFL's loop round its ring of `size` slots, from slot `i` to slot `last`. -/
def agflLoop (buf : Bytes) (size last : Nat) : Nat → Nat → List Nat
  | 0, _ => []
  | fuel + 1, i =>
      let b := be32 buf (36 + i * 4)
      if i = last then [b] else b :: agflLoop buf size last fuel ((i + 1) % size)

/-- The blocks on the AGFL. -/
def loadAgfl (dev : Device) (sb : Superblock) (agno : Nat) (agf : Bytes) :
    Result (List Nat) := do
  let buf ← dev.readAt (headerAt sb agno 3) sb.sect
  failIf (be32 buf 0 ≠ AGFL_MAGIC ∨ Crc.verify buf AGFL_CRC = false) (.corrupt s!"AG {agno}: AGFL")
  let size := (sb.sect - 36) / 4
  let first := be32 agf 40
  let last := be32 agf 44
  let count := be32 agf 48
  if count = 0 then return []
  failIf (size ≤ first ∨ size ≤ last) (.corrupt s!"AG {agno}: AGFL from {first} to {last}")
  let agfl := agflLoop buf size last size first
  failIf (agfl.length ≠ count)
    (.corrupt s!"AG {agno}: AGFL holds {agfl.length} blocks, the AGF says {count}")
  return agfl

/-- What a tree of `old` blocks keeps back for its successor. -/
def reserveFor (old len : Nat) : Nat := min (old * 2 + 32) (len / 8)

/-- The reverse-mapping tree, when the filesystem has one. -/
def walkRmap (dev : Device) (sb : Superblock) (agno : Nat) (agf : Bytes) :
    Result (List Bytes × List Nat) :=
  if sb.hasRmapbt then walkTree dev sb agno RMAP (be32 agf 24) (be32 agf 36) else .ok ([], [])

/-- The free inode tree, when the filesystem has one. -/
def walkFinobt (dev : Device) (sb : Superblock) (agno : Nat) (agi : Bytes) :
    Result (List Bytes × List Nat) :=
  if sb.hasFinobt then do
    failIf (agi.length < 336) (.panic "range end index out of range for slice")
    walkTree dev sb agno FINOBT (be32 agi 328) (be32 agi 332)
  else .ok ([], [])

/-- Read everything about AG `agno` that a writer keeps up to date. -/
def load (dev : Device) (sb : Superblock) (agno : Nat) : Result Ag := do
  let (agf, agi) ← readHeaders dev sb agno
  let len := be32 agf 12
  let agLen ← sb.agLen agno
  failIf (len ≠ agLen) (.corrupt s!"AG {agno}: AGF length {len}")
  let (bnoRecs, bnoBlocks) ← walkTree dev sb agno BNO (be32 agf 16) (be32 agf 28)
  let free ← loadFree agno len bnoRecs 0 .empty
  failIf (free.values.sum ≠ be32 agf 52)
    (.corrupt s!"AG {agno}: free space disagrees with the AGF")
  let (_, cntBlocks) ← walkTree dev sb agno CNT (be32 agf 20) (be32 agf 32)
  let (rmapRecs, rmapBlocks) ← walkRmap dev sb agno agf
  let rmap : OrdSet Rmap := .ofList (rmapRecs.map fun r => (Rmap.decode r, ()))
  let (inoRecs, inoBlocks) ← walkTree dev sb agno INOBT (be32 agi 20) (be32 agi 24)
  let chunks : OrdMap Nat Chunk := .ofList (inoRecs.map fun r => (be32 r 0, Chunk.decode sb r))
  let (_, finoBlocks) ← walkFinobt dev sb agno agi
  let agfl ← loadAgfl dev sb agno agf
  let oldTreeBlocks := bnoBlocks ++ cntBlocks ++ rmapBlocks ++ inoBlocks ++ finoBlocks
  return {
    agno := agno
    len := len
    agf := agf
    agi := agi
    free := free
    freeTotal := free.values.sum
    reserve := reserveFor oldTreeBlocks.length len
    agfl := agfl
    oldTreeBlocks := oldTreeBlocks
    chunks := chunks
    rmap := rmap
    dirty := false }

/-! ## Free space -/

namespace Ag

/-- Blocks an ordinary allocation may still take. -/
def spare (ag : Ag) : Nat := ag.freeTotal - ag.reserve

end Ag

/-- Take `start..start+len` out of the free extent that holds it. -/
def take (start len : Nat) : Act Ag Unit := do
  let ag ← get
  match ag.free.lastUpTo start with
  | none => throw (.panic "taking a block that is not free")
  | some (fs, fl) => do
      failIf (fs + fl < start + len) (.panic "taking blocks that are not free")
      let free := ag.free.erase fs
      let free := if fs < start then free.insert fs (start - fs) else free
      let free :=
        if start + len < fs + fl then free.insert (start + len) (fs + fl - start - len) else free
      set { ag with free := free, freeTotal := ag.freeTotal - len, dirty := true }

/-- The extent `alloc` takes from: the first long enough at or after `near`, then
before it, else the longest there is. -/
def pickExtent (free : OrdMap Nat Nat) (want near : Nat) : Option (Nat × Nat) :=
  match (free.entriesFrom near ++ free.entriesBelow near).find? fun e => decide (want ≤ e.2) with
  | some e => some (e.1, want)
  | none => (lastMaxBy (·.2) free.entries).map fun e => (e.1, min e.2 want)

/-- Up to `want` contiguous blocks, at or after `near` when possible. -/
def alloc (want near : Nat) : Act Ag (Option (Nat × Nat)) := do
  let ag ← get
  let want := min (min want MAX_EXTENT) (min ag.spare (2 ^ 32 - 1))
  if want = 0 then return none
  match pickExtent ag.free want near with
  | none => return none
  | some (s, n) => do
      take s n
      return some (s, n)

/-- A block of a free extent that is not `not`. -/
def blockExcept (not : Nat) (e : Nat × Nat) : Option Nat :=
  if e.1 ≠ not then some e.1 else if 1 < e.2 then some (e.1 + 1) else none

/-- One free block that is not `not`. -/
def allocBlockExcept (not : Nat) : Act Ag (Option Nat) := do
  let ag ← get
  if ag.spare = 0 then return none
  match ag.free.entries.findSome? (blockExcept not) with
  | none => return none
  | some b => do
      take b 1
      return some b

/-- The first multiple of `align` at which `len` blocks of a free extent start. -/
def alignedIn (len align : Nat) (e : Nat × Nat) : Option Nat :=
  let a := divCeil e.1 align * align
  if a + len ≤ e.1 + e.2 then some a else none

/-- `len` contiguous blocks starting at a multiple of `align`. -/
def allocAligned (len align : Nat) : Act Ag (Option Nat) := do
  let ag ← get
  if ag.spare < len then return none
  failIf (align = 0 ∧ ag.free.entries ≠ []) (.panic "attempt to divide by zero")
  match ag.free.entries.findSome? (alignedIn len align) with
  | none => return none
  | some start => do
      take start len
      return some start

/-- Merge the extent before `start`, when it touches: the run to insert so far. -/
def mergeBefore (start len : Nat) : Act Ag (Nat × Nat) := do
  let ag ← get
  match ag.free.lastBelow start with
  | none => return (start, len)
  | some (ps, pn) => do
      failIf (2 ^ 32 ≤ ps + pn) (.panic "attempt to add with overflow")
      failIf (ps + pn > start) (.corrupt s!"AG {ag.agno}: freeing {start}+{len}, already free")
      if ps + pn = start then do
        set { ag with free := ag.free.erase ps }
        return (ps, len + pn)
      else return (start, len)

/-- Merge the extent after the run, when it touches: the length to insert. -/
def mergeAfter (start len n : Nat) : Act Ag Nat := do
  let ag ← get
  match (ag.free.entriesFrom start).head? with
  | none => return n
  | some (ns, nn) => do
      failIf (ns < start + len) (.corrupt s!"AG {ag.agno}: freeing {start}+{len}, already free")
      if ns = start + len then do
        set { ag with free := ag.free.erase ns }
        failIf (2 ^ 32 ≤ n + nn) (.panic "attempt to add with overflow")
        return n + nn
      else return n

/-- Give blocks back. -/
def freeExtent (start len : Nat) : Act Ag Unit := do
  let ag ← get
  failIf (len = 0 ∨ ag.len < start + len) (.corrupt s!"AG {ag.agno}: freeing {start}+{len}")
  let (s, n) ← mergeBefore start len
  let n ← mergeAfter start len n
  let ag ← get
  set { ag with free := ag.free.insert s n, freeTotal := ag.freeTotal + len, dirty := true }

/-! ## Reverse mappings -/

/-- Record that `start..start+len` belongs to `owner` at `offset`. -/
def rmapAdd (sb : Superblock) (start len owner offset : Nat) : Act Ag Unit :=
  if sb.hasRmapbt then
    modify fun ag => { ag with rmap := ag.rmap.insert ⟨start, owner, offset, len⟩ (), dirty := true }
  else pure ()

/-- The offset of what is left of `r` when its first `by_` blocks are cut off. -/
def shiftOffset (r : Rmap) (by_ : Nat) : Nat :=
  if r.inodeOwned && !r.isBmbt then r.offset + by_ else r.offset

/-- Cut `start..stop` out of one record that `owner` holds, counting the blocks. -/
def cutRmap (start stop owner : Nat) (acc : OrdSet Rmap × Nat) (r : Rmap) : OrdSet Rmap × Nat :=
  if r.owner ≠ owner ∨ r.stop ≤ start ∨ stop ≤ r.start then acc
  else
    let cutS := max r.start start
    let cutE := min r.stop stop
    let set := acc.1.erase r
    let set :=
      if r.start < cutS then set.insert ⟨r.start, owner, r.offset, cutS - r.start⟩ () else set
    let set :=
      if cutE < r.stop then
        set.insert ⟨cutE, owner, shiftOffset r (cutE - r.start), r.stop - cutE⟩ ()
      else set
    (set, acc.2 + (cutE - cutS))

/-- The records that may cover part of `start..stop`. -/
def rmapHits (rmap : OrdSet Rmap) (start stop : Nat) : List Rmap :=
  let probe : Rmap := ⟨start, 0, 0, 0⟩
  (rmap.lastBelow probe).toList.map (·.1) ++
    ((rmap.entriesFrom probe).map (·.1)).takeWhile fun r => decide (r.start < stop)

/-- The loop over those records, counting the blocks cut.  The end of a record is looked at only
when the owner holds it. -/
def cutHits (start stop owner : Nat) : List Rmap → Nat → Act Ag Nat
  | [], removed => return removed
  | r :: hits, removed => do
      failIf (r.owner = owner ∧ 2 ^ 32 ≤ r.stop) (.panic "attempt to add with overflow")
      let ag ← get
      let cut := cutRmap start stop owner (ag.rmap, removed) r
      set { ag with rmap := cut.1 }
      cutHits start stop owner hits cut.2

/-- Forget `owner`'s mapping of `start..start+len`, splitting any record that covers
more. -/
def rmapRemove (sb : Superblock) (start len owner : Nat) : Act Ag Unit := do
  if !sb.hasRmapbt then return ()
  failIf (2 ^ 32 ≤ start + len) (.panic "attempt to add with overflow")
  let ag ← get
  let removed ← cutHits start (start + len) owner (rmapHits ag.rmap start (start + len)) 0
  failIf (removed ≠ len)
    (.corrupt s!"AG {ag.agno}: reverse mappings of {start}+{len} for owner {hex owner} cover {removed} blocks")
  modify fun ag => { ag with dirty := true }

/-- One more record at the end of a merged list. -/
def mergeStep (out : List Rmap) (r : Rmap) : Result (List Rmap) :=
  match out.getLast? with
  | some last => do
      if ← last.mergesWith r then
        return out.dropLast ++ [{ last with len := last.len + r.len }]
      else return out ++ [r]
  | none => return out ++ [r]

/-- The records merged wherever the kernel would keep them as one. -/
def mergedRmap (rmap : OrdSet Rmap) : Result (List Rmap) := rmap.keys.foldlM mergeStep []

/-! ## Inodes -/

/-- A free inode in an existing chunk, marked in use. -/
def allocInode : Act Ag (Option Nat) := do
  let ag ← get
  match ag.chunks.entries.find? fun e => decide (0 < e.2.freeCount) with
  | none => return none
  | some (start, chunk) =>
      match chunk.firstFree with
      | none => return none
      | some i => do
          set { ag with chunks := ag.chunks.insert start (chunk.take i), dirty := true }
          failIf (2 ^ 32 ≤ start + i) (.panic "attempt to add with overflow")
          return some (start + i)

/-- Allocate a new, wholly free inode chunk; returns its first AG block. -/
def allocChunk (sb : Superblock) : Act Ag (Option Nat) := do
  let blocks := CHUNK_INODES / sb.inodesPerBlock
  let align := max (max sb.inodeAlign blocks) 1
  match ← allocAligned blocks align with
  | none => return none
  | some agbno => do
      let start := (agbno <<< sb.inopbLog) % 2 ^ 32
      modify fun ag => { ag with chunks := ag.chunks.insert start ⟨0, CHUNK_INODES, 2 ^ 64 - 1⟩ }
      rmapAdd sb agbno blocks OWN_INODES 0
      modify fun ag => { ag with dirty := true }
      return some agbno

/-- Mark an AG inode free.  The end of the last chunk that starts by it is a sum of 32 bits. -/
def freeInode (agino : Nat) : Act Ag Unit := do
  let ag ← get
  let last := ag.chunks.lastUpTo agino
  failIf (∃ e ∈ last, 2 ^ 32 ≤ e.1 + CHUNK_INODES) (.panic "attempt to add with overflow")
  match last.filter fun e => decide (agino < e.1 + CHUNK_INODES) with
  | none => throw (.corrupt s!"AG {ag.agno}: inode {agino} is in no chunk")
  | some (start, chunk) => do
      failIf (chunk.free.testBit (agino - start))
        (.corrupt s!"AG {ag.agno}: inode {agino} is already free")
      set { ag with chunks := ag.chunks.insert start (chunk.give (agino - start)), dirty := true }

/-! ## Writing it out -/

/-- Take `n` blocks from the end of the longest free extents. -/
def carveLoop : Nat → Nat → List (Nat × Nat) → Act Ag (List (Nat × Nat))
  | _, 0, runs => return runs
  | 0, _ + 1, _ => throw (.panic "carving an empty extent without end")
  | fuel + 1, n + 1, runs => do
      let ag ← get
      match lastMaxBy (fun e => toLex (e.2, e.1)) ag.free.entries with
      | none => throw (.noSpace s!"AG {ag.agno}: no room for its B+trees")
      | some (s, len) => do
          let cut := min len (n + 1)
          let at_ := s + len - cut
          take at_ cut
          carveLoop fuel (n + 1 - cut) (runs ++ [(at_, cut)])

/-- The runs carved, in order. -/
def carve (n : Nat) : Act Ag (List (Nat × Nat)) := do
  let runs ← carveLoop n n []
  return runs.insertionSort fun a b => toLex a ≤ toLex b

/-- Free every block of a list. -/
def freeAll : List Nat → Act Ag Unit
  | [] => pure ()
  | b :: bs => do
      freeExtent b 1
      freeAll bs

/-- Record every run of a list as `owner`'s. -/
def rmapAddAll (sb : Superblock) (owner : Nat) : List (Nat × Nat) → Act Ag Unit
  | [] => pure ()
  | (s, n) :: runs => do
      rmapAdd sb s n owner 0
      rmapAddAll sb owner runs

/-- Blocks the free-space and reverse-mapping trees take. -/
def agNeed (sb : Superblock) (freeRecs rmapRecs : Nat) : Nat :=
  BNO.blocks freeRecs sb.blockSize + CNT.blocks freeRecs sb.blockSize +
    if sb.hasRmapbt then RMAP.blocks rmapRecs sb.blockSize else 0

/-- Blocks the inode trees take. -/
def inoNeed (sb : Superblock) (chunks : OrdMap Nat Chunk) : Nat :=
  INOBT.blocks chunks.entries.length sb.blockSize +
    if sb.hasFinobt then
      FINOBT.blocks (chunks.values.countP fun c => decide (0 < c.freeCount)) sb.blockSize
    else 0

/-- The old trees' blocks given back, and the mappings of what the AG and the inode
trees own worked out again: the AGFL is what is left of them. -/
def giveBack (sb : Superblock) : Act Ag Unit := do
  let ag ← get
  set { ag with oldTreeBlocks := [] }
  freeAll ag.oldTreeBlocks
  modify fun ag =>
    { ag with rmap := ag.rmap.filter fun e => e.1.owner != OWN_AG && e.1.owner != OWN_INOBT }
  rmapAddAll sb OWN_AG (ag.agfl.map (·, 1))

/-- One try at carving both runs from the base state and recording their owners. -/
def tryCarve (sb : Superblock) (base : Ag) (inoBlocks agBlocks : Nat) :
    Act Ag (List (Nat × Nat) × List (Nat × Nat)) := do
  modify fun ag =>
    { ag with free := base.free, freeTotal := base.freeTotal, rmap := base.rmap }
  let inoRun ← carve inoBlocks
  let agRun ← carve agBlocks
  rmapAddAll sb OWN_AG agRun
  rmapAddAll sb OWN_INOBT inoRun
  return (agRun, inoRun)

/-- Carve, count again, and carve again until the size holds. -/
def settle (sb : Superblock) (base : Ag) (inoBlocks : Nat) :
    Nat → Nat → Act Ag (List (Nat × Nat) × List (Nat × Nat))
  | 0, _ => do
      let ag ← get
      throw (.corrupt s!"AG {ag.agno}: B+tree sizes do not settle")
  | tries + 1, agBlocks => do
      let runs ← tryCarve sb base inoBlocks agBlocks
      let ag ← get
      let merged ← liftE (mergedRmap ag.rmap)
      let need := agNeed sb ag.free.entries.length merged.length
      if need = agBlocks then return runs
      settle sb base inoBlocks tries need

/-- The blocks of a list of runs. -/
def expand (runs : List (Nat × Nat)) : List Nat := runs.flatMap fun r => List.range' r.1 r.2

/-- The by-block tree's record of a free extent. -/
def freeRec (e : Nat × Nat) : Rec :=
  let d := toBe 4 e.1 ++ toBe 4 e.2
  ⟨d, d, d⟩

/-- The by-length tree's order. -/
def cntLe (a b : Rec) : Prop :=
  toLex (be32 a.data 4, be32 a.data 0) ≤ toLex (be32 b.data 4, be32 b.data 0)

instance : DecidableRel cntLe := fun _ _ => inferInstanceAs (Decidable (_ ≤ _))

/-- The trees of an AG, built. -/
structure Trees where
  bno : Built
  cnt : Built
  rmap : Option Built
  inobt : Built
  finobt : Option Built

/-- A tree only some filesystems have. -/
def buildIf (c : Bool) (built : Result Built) : Result (Option Built) :=
  if c then some <$> built else .ok none

/-- Build every tree of the AG in the blocks carved for them. -/
def buildTrees (sb : Superblock) (ag : Ag) (agList inoList : List Nat) : Result Trees := do
  let bnoRecs := ag.free.entries.map freeRec
  let cntRecs := bnoRecs.insertionSort cntLe
  let rmapRecs ← (← mergedRmap ag.rmap).mapM Rmap.encode
  let nb := BNO.blocks bnoRecs.length sb.blockSize
  let nc := CNT.blocks cntRecs.length sb.blockSize
  failIf (agList.length < nb + nc) (.panic "range end index out of range for slice")
  let bno ← buildAg sb ag.agno BNO bnoRecs (agList.take nb)
  let cnt ← buildAg sb ag.agno CNT cntRecs ((agList.drop nb).take nc)
  let rmap ← buildIf sb.hasRmapbt (buildAg sb ag.agno RMAP rmapRecs (agList.drop (nb + nc)))
  let inoRecs := ag.chunks.entries.map fun e => e.2.encode sb e.1
  let finoRecs :=
    (ag.chunks.entries.filter fun e => decide (0 < e.2.freeCount)).map fun e => e.2.encode sb e.1
  let ni := INOBT.blocks inoRecs.length sb.blockSize
  failIf (inoList.length < ni) (.panic "range end index out of range for slice")
  let inobt ← buildAg sb ag.agno INOBT inoRecs (inoList.take ni)
  let finobt ← buildIf sb.hasFinobt (buildAg sb ag.agno FINOBT finoRecs (inoList.drop ni))
  return ⟨bno, cnt, rmap, inobt, finobt⟩

/-- Every block of the trees, in the order they are written. -/
def Trees.blocks (t : Trees) : List (Nat × Bytes) :=
  t.bno.blocks ++ t.cnt.blocks ++ (t.rmap.elim [] (·.blocks)) ++ t.inobt.blocks ++
    (t.finobt.elim [] (·.blocks))

/-- The AGF pointing at the new trees. -/
def newAgf (ag : Ag) (t : Trees) : Bytes :=
  let agf := put32 ag.agf 16 t.bno.root
  let agf := put32 agf 20 t.cnt.root
  let agf := put32 agf 28 t.bno.levels
  let agf := put32 agf 32 t.cnt.levels
  let agf := t.rmap.elim agf fun r => put32 agf 24 r.root
  let agf := t.rmap.elim agf fun r => put32 agf 36 r.levels
  let agf := t.rmap.elim agf fun r => put32 agf 80 r.blocks.length
  let btreeblks := (t.bno.blocks.length - 1) + (t.cnt.blocks.length - 1) +
    t.rmap.elim 0 fun r => r.blocks.length - 1
  let agf := put32 agf 52 ag.free.values.sum
  let agf := put32 agf 56 (ag.free.values.foldl max 0)
  let agf := put32 agf 60 btreeblks
  Crc.stamp agf AGF_CRC

/-- The AGI pointing at the new trees. -/
def newAgi (sb : Superblock) (ag : Ag) (t : Trees) : Bytes :=
  let agi := put32 ag.agi 16 (ag.chunks.values.map (·.count)).sum
  let agi := put32 agi 20 t.inobt.root
  let agi := put32 agi 24 t.inobt.levels
  let agi := put32 agi 28 (ag.chunks.values.map (·.freeCount)).sum
  let agi :=
    match ag.chunks.keys.getLast? with
    | some last => if be32 agi 32 = NULL_AGBLOCK then put32 agi 32 last else agi
    | none => agi
  let agi := t.finobt.elim agi fun f => put32 agi 328 f.root
  let agi := t.finobt.elim agi fun f => put32 agi 332 f.levels
  let agi := if sb.hasInobtcount then put32 agi 336 t.inobt.blocks.length else agi
  let agi :=
    if sb.hasInobtcount then put32 agi 340 (t.finobt.elim 0 fun f => f.blocks.length) else agi
  Crc.stamp agi AGI_CRC

/-- The first size tried: from the record counts before carving, and two mappings more
for the runs. -/
def firstNeed (sb : Superblock) (base : Ag) : Result Nat := do
  let merged ← mergedRmap base.rmap
  return agNeed sb base.free.entries.length (merged.length + 2)

/-- Lay the trees out afresh and return every block and header to write. -/
def rebuild (sb : Superblock) : Act Ag (List (Nat × Bytes)) := do
  giveBack sb
  let base ← get
  let first ← liftE (firstNeed sb base)
  let (agRun, inoRun) ← settle sb base (inoNeed sb base.chunks) 32 first
  let agList := expand agRun
  let inoList := expand inoRun
  let ag ← get
  let t ← liftE (buildTrees sb ag agList inoList)
  failIf ((sb.hasFinobt ∧ ag.agi.length < 336) ∨ (sb.hasInobtcount ∧ ag.agi.length < 344))
    (.panic "range end index out of range for slice")
  failIf (2 ^ 32 ≤ (ag.chunks.values.map (·.count)).sum ∨
      2 ^ 32 ≤ (ag.chunks.values.map (·.freeCount)).sum) (.panic "attempt to add with overflow")
  let agf := newAgf ag t
  let agi := newAgi sb ag t
  let old := agList ++ inoList
  set { ag with
    agf := agf
    agi := agi
    oldTreeBlocks := old
    reserve := reserveFor old.length ag.len
    dirty := false }
  return t.blocks.map (fun b => (sb.agbToByte ag.agno b.1, b.2)) ++
    [(headerAt sb ag.agno 1, agf), (headerAt sb ag.agno 2, agi)]

end FioXfs.Alloc
