import FioXfs.Alloc.Space
set_option autoImplicit false

/-!
# What loading a group checks

`load` taken apart, and what its checks say about the free map: extents in order,
not empty, not overlapping, inside the group, as many blocks as the AGF counts.
-/

namespace FioXfs.Alloc

open FioXfs.Lib FioXfs.Btree

/-! ## Free extents -/

/-- Extents in order, each ending before the next starts. -/
theorem freeOk_of_pairwise {free : OrdMap Nat Nat} (hpos : ∀ e ∈ free.entries, 0 < e.2)
    (h : free.entries.Pairwise fun a b => a.1 + a.2 ≤ b.1) : FreeOk free := by
  refine ⟨hpos, fun b => ?_⟩
  unfold freeAt OrdMap.weight
  clear hpos
  generalize free.entries = es at h
  induction es with
  | nil => simp
  | cons e es ih =>
    obtain ⟨hhead, hrest⟩ := List.pairwise_cons.mp h
    rw [List.map_cons, List.sum_cons]
    rcases Nat.eq_zero_or_pos (within e.1 e.2 b) with h0 | hp
    · have := ih hrest
      omega
    · have hz : (es.map fun x => within x.1 x.2 b).sum = 0 := by
        refine List.sum_eq_zero fun x hx => ?_
        obtain ⟨y, hy, rfl⟩ := List.mem_map.mp hx
        have h1 := hhead y hy
        have h2 := within_pos.mp hp
        exact within_eq_zero.mpr (by omega)
      rw [hz]
      have := within_le_one e.1 e.2 b
      omega

/-- The extent in a by-block record. -/
def extentOf (r : Bytes) : Nat × Nat := (be32 r 0, be32 r 4)

/-- The checks each record passes: not empty, not before `lastEnd`, not past `len`. -/
def InOrder (len : Nat) : Nat → List (Nat × Nat) → Prop
  | _, [] => True
  | lastEnd, e :: es => 0 < e.2 ∧ lastEnd ≤ e.1 ∧ e.1 + e.2 ≤ len ∧ InOrder len (e.1 + e.2) es

theorem InOrder.mem {len : Nat} : ∀ {es : List (Nat × Nat)} {lastEnd : Nat},
    InOrder len lastEnd es → ∀ e ∈ es, 0 < e.2 ∧ lastEnd ≤ e.1 ∧ e.1 + e.2 ≤ len := by
  intro es
  induction es with
  | nil => simp
  | cons e es ih =>
    intro lastEnd h x hx
    obtain ⟨h1, h2, h3, h4⟩ := h
    rcases List.mem_cons.mp hx with rfl | hx
    · exact ⟨h1, h2, h3⟩
    · have := ih h4 x hx
      omega

theorem InOrder.pairwise {len : Nat} : ∀ {es : List (Nat × Nat)} {lastEnd : Nat},
    InOrder len lastEnd es → es.Pairwise fun a b => a.1 + a.2 ≤ b.1 := by
  intro es
  induction es with
  | nil => simp
  | cons e es ih =>
    intro lastEnd h
    exact List.pairwise_cons.mpr ⟨fun x hx => (h.2.2.2.mem x hx).2.1, ih h.2.2.2⟩

/-- `loadFree` accepts exactly the records in order, and keeps them all. -/
theorem loadFree_ok {agno len : Nat} : ∀ {recs : List Bytes} {lastEnd : Nat}
    {free free' : OrdMap Nat Nat}, (∀ e ∈ free.entries, e.1 < lastEnd) →
    (loadFree agno len recs lastEnd free = .ok free' ↔
      InOrder len lastEnd (recs.map extentOf) ∧
        free'.entries = free.entries ++ recs.map extentOf) := by
  intro recs
  induction recs with
  | nil =>
    intro lastEnd free free' _
    simp only [loadFree, pure, Except.pure, Except.ok.injEq, List.map_nil, List.append_nil, InOrder,
      true_and]
    exact ⟨fun h => by rw [h], fun h => OrdMap.ext_entries h.symm⟩
  | cons r recs ih =>
    intro lastEnd free free' hlast
    simp only [loadFree, except_bind_eq_ok, except_throwIf_eq_ok, exists_const, List.map_cons]
    by_cases hc : be32 r 4 = 0 ∨ be32 r 0 < lastEnd ∨ len < be32 r 0 + be32 r 4
    · simp only [hc, not_true_eq_false, false_and, false_iff]
      rintro ⟨⟨h1, h2, h3, _⟩, _⟩
      simp only [extentOf] at h1 h2 h3
      omega
    · have hent : (free.insert (be32 r 0) (be32 r 4)).entries = free.entries ++ [extentOf r] :=
        OrdMap.entries_insert_last fun x hx => by have := hlast x hx; omega
      rw [ih fun x hx => by
        rw [hent] at hx
        rcases List.mem_append.mp hx with hx | hx
        · have := hlast x hx
          omega
        · rw [List.mem_singleton.mp hx]
          simp only [extentOf]
          omega]
      simp only [hc, not_false_eq_true, true_and, InOrder, hent, List.append_assoc,
        List.singleton_append, extentOf]
      constructor
      · rintro ⟨h1, h2⟩
        exact ⟨⟨by omega, by omega, by omega, h1⟩, h2⟩
      · rintro ⟨⟨_, _, _, h1⟩, h2⟩
        exact ⟨h1, h2⟩

/-! ## Taking `load` apart -/

/-- Everything a successful load read. -/
structure LoadRun (dev : Device) (sb : Superblock) (agno : Nat) (ag : Ag) where
  bnoRecs : List Bytes
  bnoBlocks : List Nat
  cntRecs : List Bytes
  cntBlocks : List Nat
  rmapRecs : List Bytes
  rmapBlocks : List Nat
  inoRecs : List Bytes
  inoBlocks : List Nat
  finoRecs : List Bytes
  finoBlocks : List Nat
  agno_eq : ag.agno = agno
  headers : readHeaders dev sb agno = .ok (ag.agf, ag.agi)
  len_eq : ag.len = be32 ag.agf 12
  agLen : sb.agLen agno = .ok ag.len
  bno : walkTree dev sb agno BNO (be32 ag.agf 16) (be32 ag.agf 28) = .ok (bnoRecs, bnoBlocks)
  free : loadFree agno ag.len bnoRecs 0 .empty = .ok ag.free
  total : ag.freeTotal = ag.free.values.sum
  counted : ag.free.values.sum = be32 ag.agf 52
  cnt : walkTree dev sb agno CNT (be32 ag.agf 20) (be32 ag.agf 32) = .ok (cntRecs, cntBlocks)
  rmap : walkRmap dev sb agno ag.agf = .ok (rmapRecs, rmapBlocks)
  rmap_eq : ag.rmap = .ofList (rmapRecs.map fun r => (Rmap.decode r, ()))
  ino : walkTree dev sb agno INOBT (be32 ag.agi 20) (be32 ag.agi 24) = .ok (inoRecs, inoBlocks)
  chunks_eq : ag.chunks = .ofList (inoRecs.map fun r => (be32 r 0, Chunk.decode sb r))
  fino : walkFinobt dev sb agno ag.agi = .ok (finoRecs, finoBlocks)
  agfl : loadAgfl dev sb agno ag.agf = .ok ag.agfl
  old : ag.oldTreeBlocks = bnoBlocks ++ cntBlocks ++ rmapBlocks ++ inoBlocks ++ finoBlocks
  reserve : ag.reserve = reserveFor ag.oldTreeBlocks.length ag.len
  clean : ag.dirty = false

theorem load_ok {dev : Device} {sb : Superblock} {agno : Nat} {ag : Ag}
    (h : load dev sb agno = .ok ag) : Nonempty (LoadRun dev sb agno ag) := by
  unfold load at h
  simp only [except_bind_eq_ok, except_throwIf_eq_ok, exists_const] at h
  obtain ⟨⟨agf, agi⟩, h1, al, h2, h3, ⟨bnoRecs, bnoBlocks⟩, h4, free, h5, h6,
    ⟨cntRecs, cntBlocks⟩, h7, ⟨rmapRecs, rmapBlocks⟩, h8, ⟨inoRecs, inoBlocks⟩, h9,
    ⟨finoRecs, finoBlocks⟩, h10, agfl, h11, h12⟩ := h
  cases h12
  rw [not_not] at h3 h6
  exact ⟨⟨bnoRecs, bnoBlocks, cntRecs, cntBlocks, rmapRecs, rmapBlocks, inoRecs, inoBlocks,
    finoRecs, finoBlocks, rfl, h1, rfl, h3 ▸ h2, h4, h5, rfl, h6, h7, h8, rfl, h9, rfl, h10, h11,
    rfl, rfl, rfl⟩⟩

theorem LoadRun.inOrder {dev : Device} {sb : Superblock} {agno : Nat} {ag : Ag}
    (run : LoadRun dev sb agno ag) : InOrder ag.len 0 ag.free.entries := by
  obtain ⟨h1, h2⟩ := (loadFree_ok (by simp [OrdMap.empty])).mp run.free
  rw [h2]
  simpa [OrdMap.empty] using h1

theorem LoadRun.freeOk {dev : Device} {sb : Superblock} {agno : Nat} {ag : Ag}
    (run : LoadRun dev sb agno ag) : FreeOk ag.free :=
  freeOk_of_pairwise (fun e he => (run.inOrder.mem e he).1) run.inOrder.pairwise

/-- The free map of a loaded group lies in it. -/
theorem LoadRun.spaceOk {dev : Device} {sb : Superblock} {agno : Nat} {ag : Ag}
    (run : LoadRun dev sb agno ag) : SpaceOk ag := by
  refine ⟨run.freeOk, run.total, fun b hb => ?_⟩
  obtain ⟨e, he, -, hlt⟩ := exists_of_freeAt_pos hb
  exact Nat.lt_of_lt_of_le hlt (run.inOrder.mem e he).2.2

/-- The headers of a loaded group have passed their checks. -/
theorem LoadRun.verified {dev : Device} {sb : Superblock} {agno : Nat} {ag : Ag}
    (run : LoadRun dev sb agno ag) :
    Crc.verify ag.agf AGF_CRC = true ∧ Crc.verify ag.agi AGI_CRC = true := by
  have h := run.headers
  unfold readHeaders at h
  simp only [except_bind_eq_ok, except_throwIf_eq_ok] at h
  obtain ⟨agf, -, agi, -, _, h1, _, h2, h3⟩ := h
  obtain ⟨rfl, rfl⟩ := Prod.mk.inj (Except.ok.inj h3)
  simp only [not_or, Bool.not_eq_false] at h1 h2
  exact ⟨h1.2.1, h2.2.1⟩

theorem length_of_verify {buf : Bytes} {off : Nat} (h : Crc.verify buf off = true) :
    off + 4 ≤ buf.length := by
  unfold Crc.verify at h
  split at h
  · cases h
  · omega

/-! ## A group as it is made -/

/-- Its headers: all but the first eight blocks are free, and no inode is there. -/
def freshAgf (len : Nat) (rmapbt : Bool) : Bytes :=
  let b : Bytes := List.replicate 512 0
  let b := put32 b 0 AGF_MAGIC
  let b := put32 b 12 len
  let b := put32 b 16 4
  let b := put32 b 20 5
  let b := put32 b 24 (if rmapbt then 6 else 0)
  let b := put32 b 28 1
  let b := put32 b 32 1
  let b := put32 b 36 (if rmapbt then 1 else 0)
  let b := put32 b 52 (len - 8)
  Crc.stamp b AGF_CRC

def freshAgi (len : Nat) : Bytes :=
  let b : Bytes := List.replicate 512 0
  let b := put32 b 0 AGI_MAGIC
  let b := put32 b 12 len
  let b := put32 b 20 7
  let b := put32 b 24 1
  let b := put32 b 32 NULL_AGBLOCK
  Crc.stamp b AGI_CRC

def freshAgfl : Bytes := Crc.stamp (put32 (List.replicate 512 0) 0 AGFL_MAGIC) AGFL_CRC

/-- The mappings of the headers and of the trees' blocks. -/
def freshRmap : List Rmap := [⟨0, OWN_FS, 0, 4⟩, ⟨4, OWN_AG, 0, 3⟩, ⟨7, OWN_INOBT, 0, 1⟩]

/-- A root leaf of one of its trees. -/
def freshLeaf (len : Nat) (rmapbt : Bool) (spec : AgSpec) (at_ : Nat) (recs : List Rec) : Bytes :=
  (agLeaf (freshSb len rmapbt) 0 spec NULL_AGBLOCK NULL_AGBLOCK at_ recs).2

/-- The device, up to the first free block. -/
def freshDevice (len : Nat) (rmapbt : Bool) : Device :=
  { data := freshSector len rmapbt ++ freshAgf len rmapbt ++ freshAgi len ++ freshAgfl ++
      freshLeaf len rmapbt BNO 4 [freeRec (8, len - 8)] ++
      freshLeaf len rmapbt CNT 5 [freeRec (8, len - 8)] ++
      freshLeaf len rmapbt RMAP 6 (freshRmap.map Rmap.record) ++
      freshLeaf len rmapbt INOBT 7 []
    faults := [] }

/-- The group as it loads. -/
def freshAg (len : Nat) (rmapbt : Bool) : Ag :=
  { agno := 0, len := len, agf := freshAgf len rmapbt, agi := freshAgi len
    free := .ofList [(8, len - 8)], freeTotal := len - 8
    reserve := reserveFor (if rmapbt then 4 else 3) len
    agfl := [], oldTreeBlocks := if rmapbt then [4, 5, 6, 7] else [4, 5, 7]
    chunks := .empty
    rmap := if rmapbt then .ofList (freshRmap.map (·, ())) else .empty, dirty := false }

set_option maxRecDepth 100000 in
theorem load_fresh : load (freshDevice 16 true) (freshSb 16 true) 0 = .ok (freshAg 16 true) := by
  decide +kernel

end FioXfs.Alloc
