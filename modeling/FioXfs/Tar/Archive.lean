import FioXfs.Tar.Reader
set_option autoImplicit false

/-!
# An archive reads back

What the writer puts in the sink entry by entry, and what a reader makes of it.  An extended
header is itself a ustar header, and says the length of its records in eleven octal digits only.
-/

namespace FioXfs.Tar

open FioXfs.Lib

/-- What an entry is to read back as. -/
def Entry.meant (e : Entry) : Member where
  path := e.header.path
  kind := e.header.kind
  link := e.header.link
  mode := e.header.mode
  uid := e.header.uid
  gid := e.header.gid
  mtime := e.header.mtime
  size := e.header.contents
  device :=
    if e.header.kind = .charDevice ∨ e.header.kind = .blockDevice then
      some (e.header.major, e.header.minor)
    else none
  xattrs := e.header.xattrs
  content := e.pieces.flatten

/-- Entries a writer is promised. -/
structure Entry.Allowed (e : Entry) : Prop where
  path : e.header.path ≠ []
  noNul : (0 : UInt8) ∉ e.header.path ∧ (0 : UInt8) ∉ e.header.link
  mode : e.header.mode ≤ 0o7777
  device : e.header.major < 2 ^ 21 ∧ e.header.minor < 2 ^ 21
  nsecs : e.header.mtime.nsecs < 1000000000
  names : ∀ x ∈ e.header.xattrs, (61 : UInt8) ∉ x.1
  /-- A regular file's contents are as long as its header says; nothing else has any. -/
  contents : e.pieces.flatten.length = e.header.contents
  /-- What the source's types hold. -/
  uid : e.header.uid < 2 ^ 32
  gid : e.header.gid < 2 ^ 32
  size : e.header.size < 2 ^ 64
  secs : -2 ^ 63 ≤ e.header.mtime.secs ∧ e.header.mtime.secs < 2 ^ 63

/-- Write contents piece by piece. -/
def packPieces : List Bytes → Act Writer Unit
  | [] => pure ()
  | piece :: pieces => do
      Writer.data piece
      packPieces pieces

/-- Begin each entry, and write its contents. -/
def packEntries : List Entry → Act Writer Unit
  | [] => pure ()
  | e :: es => do
      Writer.begin e.header
      packPieces e.pieces
      packEntries es

/-- Write entries and end the archive. -/
def packAll (es : List Entry) : Act Writer Unit := do
  packEntries es
  Writer.finish

/-! ## What the writer writes -/

/-- The records an entry needs, and their bytes. -/
def Header.records (h : Header) : Result (List (Bytes × Bytes)) :=
  extendedRecords h (headerFits h.path h h.contents)

def Header.pax (h : Header) : Bytes := ((h.records).bind paxRecords).toOption.getD []

/-- An entry in the archive: its extended header, if it needs one, its header, its contents. -/
def entryBytes (e : Entry) : Bytes :=
  (if e.header.pax = [] then [] else extendedHeader e.header e.header.pax) ++
    (ustar e.header.path e.header.kind.flag e.header e.header.contents).1 ++
    (e.pieces.flatten ++ List.replicate (padding e.header.contents) 0)

namespace Writer

/-- The sink once the padding still owed is written. -/
def settled (w : Writer) : Bytes := w.out ++ List.replicate w.pad 0

theorem finishEntry_eq (w : Writer) : finishEntry w = .ok () ⟨w.settled, w.owed, 0⟩ := by
  obtain ⟨out, owed, pad⟩ := w
  unfold finishEntry settled
  by_cases h : 0 < pad
  · simp only [get_bind_apply, if_pos h]
    rfl
  · obtain rfl : pad = 0 := by omega
    simp only [get_bind_apply, if_neg h, List.replicate_zero, List.append_nil]
    rfl

theorem data_eq {w : Writer} {buf : Bytes} (h : buf.length ≤ w.owed) :
    data buf w = .ok () ⟨w.out ++ buf, w.owed - buf.length, w.pad⟩ := by
  unfold data
  rw [get_bind_apply, act_throwIf_bind_of_not (by omega)]
  rfl

/-- Contents may come in any pieces. -/
theorem data_pieces {pieces : List Bytes} {w : Writer} (h : pieces.flatten.length ≤ w.owed) :
    packPieces pieces w =
      .ok () ⟨w.out ++ pieces.flatten, w.owed - pieces.flatten.length, w.pad⟩ := by
  induction pieces generalizing w with
  | nil => simp [packPieces]
  | cons piece pieces ih =>
    rw [List.flatten_cons, List.length_append] at h
    rw [packPieces, bind_of_ok (data_eq (by omega)), ih (by dsimp only; omega),
      List.flatten_cons, List.length_append, List.append_assoc, Nat.sub_sub]

theorem begin_eq {w : Writer} {h : Header} {records : List (Bytes × Bytes)} {pax : Bytes}
    (howed : w.owed = 0) (hrecords : h.records = .ok records) (hpax : paxRecords records = .ok pax) :
    begin h w = .ok () ⟨w.settled ++ ((if pax = [] then [] else extendedHeader h pax) ++
      (ustar h.path h.kind.flag h h.contents).1), h.contents, padding h.contents⟩ := by
  have hlift : (liftE (extendedRecords h (ustar h.path h.kind.flag h h.contents).2) :
      Act Writer _) ⟨w.settled, w.owed, 0⟩ = .ok records ⟨w.settled, w.owed, 0⟩ :=
    liftE_eq_ok.mpr ⟨hrecords, rfl⟩
  have hlift' : (liftE (paxRecords records) : Act Writer _) ⟨w.settled, w.owed, 0⟩ =
      .ok pax ⟨w.settled, w.owed, 0⟩ := liftE_eq_ok.mpr ⟨hpax, rfl⟩
  unfold begin
  rw [get_bind_apply, act_throwIf_bind_of_not (not_not.mpr howed), bind_of_ok (finishEntry_eq w),
    bind_of_ok hlift, bind_of_ok hlift']
  by_cases hnil : pax = []
  · rw [if_neg (not_not.mpr hnil), if_pos hnil, List.nil_append]
    rfl
  · rw [if_pos hnil, if_neg hnil, ← List.append_assoc]
    rfl

theorem finish_eq {w : Writer} (howed : w.owed = 0) :
    finish w = .ok () ⟨w.settled ++ List.replicate (2 * BLOCK) 0, w.owed, 0⟩ := by
  unfold finish
  rw [get_bind_apply, act_throwIf_bind_of_not (not_not.mpr howed), bind_of_ok (finishEntry_eq w)]
  rfl

end Writer

/-- The records of an entry whose time is a time. -/
theorem records_eq_ok {h : Header} (hn : h.mtime.nsecs < 1000000000) :
    ∃ records, h.records = .ok records ∧ paxRecords records = .ok h.pax := by
  obtain ⟨time, htime, -⟩ := readTime_paxTime hn
  have hrecords : ∃ records, h.records = .ok records := by
    unfold Header.records extendedRecords metadataRecords
    rw [htime]
    split_ifs <;> exact ⟨_, rfl⟩
  obtain ⟨records, hrec⟩ := hrecords
  obtain ⟨_, _, _, hpax⟩ := paxRecords_eq_ok records
  refine ⟨records, hrec, ?_⟩
  rw [Header.pax, hrec]
  change paxRecords records = .ok ((paxRecords records).toOption.getD [])
  rw [hpax]
  rfl

/-- One entry is written. -/
theorem packEntry_eq {e : Entry} (he : e.Allowed) {w : Writer} (howed : w.owed = 0) :
    ∃ t u, Writer.begin e.header w = .ok () t ∧ packPieces e.pieces t = .ok () u ∧ u.owed = 0 ∧
      u.settled = w.settled ++ entryBytes e := by
  obtain ⟨records, hrecords, hpax⟩ := records_eq_ok he.nsecs
  refine ⟨_, _, Writer.begin_eq howed hrecords hpax, Writer.data_pieces he.contents.le, ?_, ?_⟩
  · dsimp only
    rw [he.contents, Nat.sub_self]
  · simp only [Writer.settled, entryBytes, List.append_assoc]

/-- Entries are written one after another. -/
theorem packEntries_eq {es : List Entry} (hes : ∀ e ∈ es, e.Allowed) {w : Writer}
    (howed : w.owed = 0) : ∃ w', packEntries es w = .ok () w' ∧ w'.owed = 0 ∧
      w'.settled = w.settled ++ es.flatMap entryBytes := by
  induction es generalizing w with
  | nil => exact ⟨w, rfl, howed, (List.append_nil _).symm⟩
  | cons e es ih =>
    obtain ⟨t, u, hbegin, hdata, howed', hout⟩ := packEntry_eq (hes e List.mem_cons_self) howed
    obtain ⟨w', hw', hdone, hout'⟩ := ih (fun e he => hes e (List.mem_cons_of_mem _ he)) howed'
    refine ⟨w', ?_, hdone, ?_⟩
    · rw [packEntries, bind_of_ok hbegin, bind_of_ok hdata, hw']
    · rw [hout', hout, List.flatMap_cons, List.append_assoc]

/-- An archive is its entries one after another and two zero blocks. -/
theorem packAll_eq {es : List Entry} (hes : ∀ e ∈ es, e.Allowed) :
    ∃ w, packAll es Writer.new = .ok () w ∧
      w.out = es.flatMap entryBytes ++ List.replicate (2 * BLOCK) 0 := by
  obtain ⟨w, hw, howed, hout⟩ := @packEntries_eq es hes Writer.new rfl
  refine ⟨_, (bind_of_ok hw).trans (Writer.finish_eq howed), ?_⟩
  dsimp only
  rw [hout]
  rfl

end FioXfs.Tar
