import FioXfs.Tar.RoundTrip
import Mathlib.Algebra.Order.BigOperators.Group.List
set_option autoImplicit false

/-!
# When an archive reads back

Eleven octal digits hold the length of an extended header's records.  Longer records are written
all the same, under a blank length, and a reader takes them for the next header.
-/

namespace FioXfs.Tar

open FioXfs.Lib

/-! ## How long an extended header is -/

/-- How long a record is, from the lengths of its keyword and its value. -/
def recordLen (r : Bytes × Bytes) : Nat :=
  let body := r.1.length + r.2.length + 3
  body + (numeral 10 (body + (numeral 10 (body + 1)).length)).length

/-- How long the records of an entry's extended header are. -/
def extendedLength (h : Header) : Nat := ((h.records.toOption.getD []).map recordLen).sum

/-- The second length counts itself: it has at most one digit more than the first. -/
theorem digits_settle (body : Nat) :
    (numeral 10 (body + (numeral 10 (body + (numeral 10 (body + 1)).length)).length)).length =
      (numeral 10 (body + (numeral 10 (body + 1)).length)).length := by
  have hpos := length_numeral_pos (by omega : 2 ≤ 10) (body + 1)
  have hlt := (length_numeral_le_iff (by omega : 2 ≤ 10) hpos).mp (le_refl _)
  obtain ⟨d, hd⟩ : ∃ d, (numeral 10 (body + 1)).length = d := ⟨_, rfl⟩
  rw [hd] at hpos hlt ⊢
  have hpow : d < 10 ^ d := Nat.lt_pow_self (by omega)
  have hnext : body + (d + 1) < 10 ^ (d + 1) := by
    rw [pow_succ]
    omega
  have hge : d ≤ (numeral 10 (body + d)).length := by
    rw [← hd]
    exact length_numeral_mono (by omega) (by omega)
  have hle : (numeral 10 (body + d)).length ≤ d + 1 :=
    (length_numeral_le_iff (by omega) (by omega)).mpr (by omega)
  rcases Nat.lt_or_ge d (numeral 10 (body + d)).length with hgt | hsame
  · have heq : (numeral 10 (body + d)).length = d + 1 := by omega
    have hmono : (numeral 10 (body + d)).length ≤ (numeral 10 (body + (d + 1))).length :=
      length_numeral_mono (by omega) (by omega)
    have hmost := (length_numeral_le_iff (by omega : 2 ≤ 10) (by omega)).mpr hnext
    rw [heq] at hmono ⊢
    omega
  · have heq : (numeral 10 (body + d)).length = d := by omega
    rw [heq, heq]

/-- The loop ends after two rounds at most. -/
theorem paxLen_eq (body fuel : Nat) (hf : 3 ≤ fuel) : paxLen body fuel (body + 1) =
    .ok (body + (numeral 10 (body + (numeral 10 (body + 1)).length)).length) := by
  obtain ⟨fuel, rfl⟩ : ∃ n, fuel = n + 3 := ⟨fuel - 3, by omega⟩
  have hsettle := digits_settle body
  rw [paxLen]
  split_ifs with h1
  · rw [paxLen]
    split_ifs with h2
    · rw [paxLen, if_neg (not_not.mpr (by rw [hsettle]))]
    · rw [not_not] at h2
      rw [← h2]
  · rw [not_not] at h1
    rw [← h1, ← h1]

theorem length_paxRecord {r : Bytes × Bytes} {out : Bytes} (h : paxRecord r.1 r.2 = .ok out) :
    out.length = recordLen r := by
  rw [paxRecord, paxLen_eq _ _ (by omega)] at h
  obtain rfl := Except.ok.inj h
  have hsettle := digits_settle (r.1.length + r.2.length + 3)
  simp only [List.length_append, List.length_singleton, hsettle, recordLen]
  omega

theorem length_paxRecords {records : List (Bytes × Bytes)} {out : Bytes}
    (h : paxRecords records = .ok out) : out.length = (records.map recordLen).sum := by
  induction records generalizing out with
  | nil =>
    cases h
    rfl
  | cons r records ih =>
    rw [paxRecords] at h
    obtain ⟨first, hfirst, h⟩ := except_bind_eq_ok.mp h
    obtain ⟨rest, hrest, h⟩ := except_bind_eq_ok.mp h
    cases h
    rw [List.length_append, length_paxRecord hfirst, ih hrest, List.map_cons, List.sum_cons]

theorem extendedLength_eq {h : Header} {records : List (Bytes × Bytes)}
    (hr : h.records = .ok records) : extendedLength h = (records.map recordLen).sum := by
  rw [extendedLength, hr]
  rfl

theorem length_pax {e : Entry} (he : e.Allowed) : e.header.pax.length = extendedLength e.header := by
  obtain ⟨records, hr, hpax⟩ := records_eq_ok he.nsecs
  rw [length_paxRecords hpax, extendedLength_eq hr]

theorem value_le_recordLen (r : Bytes × Bytes) : r.2.length ≤ recordLen r := by
  rw [recordLen]
  omega

theorem recordLen_le (r : Bytes × Bytes) : recordLen r ≤ 2 * (r.1.length + r.2.length) + 8 := by
  have hfirst := @grown_le 10 (by omega) (r.1.length + r.2.length + 3) (r.1.length + r.2.length + 3 + 1)
    (by omega)
  have hsecond := @grown_le 10 (by omega) (r.1.length + r.2.length + 3) _ hfirst
  rw [recordLen]
  omega

theorem length_numeral_u64 {n : Nat} (h : n < 2 ^ 64) : (numeral 10 n).length ≤ 20 :=
  (length_numeral_le_iff (by omega) (by omega)).mpr (h.trans_le (by norm_num))

theorem length_paxTime {t : Timestamp} {bs : Bytes} (h : paxTime t = .ok bs)
    (hn : t.nsecs < 1000000000) (ht : -2 ^ 63 ≤ t.secs ∧ t.secs < 2 ^ 63) : bs.length ≤ 40 := by
  have hsigned : ∀ n : Int, n.natAbs < 2 ^ 64 → (decimal n).length ≤ 21 := fun n hn => by
    have hdigits := length_numeral_u64 hn
    rw [decimal, List.length_append]
    split_ifs
    · rw [List.length_singleton]
      omega
    · rw [List.length_nil]
      omega
  have hfrac : ∀ f : Nat, f ≤ 1000000000 → (padded 10 9 f).length ≤ 10 := fun f hf => by
    have hdigits : (numeral 10 f).length ≤ 10 :=
      (length_numeral_le_iff (by omega) (by omega)).mpr (hf.trans_lt (by norm_num))
    rw [padded, List.length_append, List.length_replicate]
    omega
  rw [paxTime] at h
  split_ifs at h with hz hpos
  · obtain rfl := Except.ok.inj h
    exact (hsigned _ (by omega)).trans (by omega)
  · obtain rfl := Except.ok.inj h
    have hs := hsigned t.secs (by omega)
    have hf := hfrac t.nsecs hn.le
    simp only [List.length_append, List.length_singleton]
    omega
  · rw [except_throwIf_bind_of_not (by omega)] at h
    obtain rfl := Except.ok.inj h
    have hs := hsigned (-(t.secs + 1)) (by omega)
    have hf := hfrac (1000000000 - t.nsecs) (by omega)
    simp only [List.length_append, List.length_singleton]
    omega

/-- Without attributes and long names the records are short. -/
theorem extendedLength_lt {e : Entry} (he : e.Allowed) (hx : e.header.xattrs = [])
    (hp : e.header.path.length ≤ 256) (hl : e.header.link.length ≤ 100) :
    extendedLength e.header < 8 ^ 11 := by
  obtain ⟨time, htime, -⟩ := readTime_paxTime he.nsecs
  have hsize : (numeral 10 e.header.contents).length ≤ 20 := by
    refine length_numeral_u64 ?_
    have hs := he.size
    unfold Header.contents
    split_ifs
    · exact hs
    · norm_num
  have huid := length_numeral_u64 (he.uid.trans (by norm_num))
  have hgid := length_numeral_u64 (he.gid.trans (by norm_num))
  have htlen := length_paxTime htime he.nsecs he.secs
  have hpath := recordLen_le (ascii "path", e.header.path)
  have hlink := recordLen_le (ascii "linkpath", e.header.link)
  have hsize' := recordLen_le (ascii "size", numeral 10 e.header.contents)
  have huid' := recordLen_le (ascii "uid", numeral 10 e.header.uid)
  have hgid' := recordLen_le (ascii "gid", numeral 10 e.header.gid)
  have hmtime' := recordLen_le (ascii "mtime", time)
  have h4 : (ascii "path").length = 4 ∧ (ascii "linkpath").length = 8 ∧ (ascii "size").length = 4 ∧
      (ascii "uid").length = 3 ∧ (ascii "gid").length = 3 ∧ (ascii "mtime").length = 5 := by decide
  obtain ⟨k1, k2, k3, k4, k5, k6⟩ := h4
  simp only [k1, k2, k3, k4, k5, k6] at hpath hlink hsize' huid' hgid' hmtime'
  have hif : ∀ (c : Prop) [Decidable c] (r : Bytes × Bytes),
      ((if c then [r] else []).map recordLen).sum ≤ recordLen r := fun c _ r => by
    split_ifs <;> simp
  have hpath' := hif (100 < e.header.path.length) (ascii "path", e.header.path)
  have hlink' := hif (100 < e.header.link.length) (ascii "linkpath", e.header.link)
  have h11 : (8 : Nat) ^ 11 = 8589934592 := by norm_num
  rw [extendedLength, Header.records, extendedRecords, hx]
  split_ifs
  · rw [metadataRecords, htime]
    change ((_ ++ []).map recordLen).sum < _
    simp only [List.append_nil, List.map_append, List.sum_append, List.map_cons, List.map_nil,
      List.sum_cons, List.sum_nil]
    omega
  · change (0 : Nat) < _
    omega

/-! ## Records that are too long -/

/-- An entry read without records has no attributes and short names. -/
theorem small_of_readMember {bs rest : Bytes} {m : Member} (h : readMember [] bs = some (m, rest)) :
    m.xattrs = [] ∧ m.path.length ≤ 256 ∧ m.link.length ≤ 100 := by
  obtain ⟨u, hu, h⟩ := Option.bind_eq_some_iff.mp h
  obtain ⟨base, hbase, h⟩ := Option.bind_eq_some_iff.mp h
  have hshown : base.xattrs = [] ∧ base.path = u.path ∧ base.link = u.link := by
    obtain ⟨k, -, rfl⟩ := Option.map_eq_some_iff.mp hbase
    exact ⟨rfl, rfl, rfl⟩
  have htext : ∀ o w, (textAt (bs.take BLOCK) o w).length ≤ w := fun o w =>
    ((List.takeWhile_sublist _).length_le).trans (by rw [slice, List.length_take]; omega)
  have hnames : u.path.length ≤ 256 ∧ u.link.length ≤ 100 := by
    simp only [readHeader, Option.bind_eq_bind] at hu
    split_ifs at hu
    · simp at hu
    · simp only [Option.bind_eq_some_iff, Option.pure_def, Option.some.injEq] at hu
      obtain ⟨_, -, _, -, _, -, _, -, _, -, _, -, _, -, rfl⟩ := hu
      refine ⟨?_, htext 157 100⟩
      have hfront := htext 345 155
      have hname := htext 0 100
      dsimp only [joined]
      split_ifs
      · omega
      · rw [List.length_append, List.length_cons]
        omega
  rw [List.foldlM_nil, Option.pure_def, Option.bind_eq_bind, Option.bind_some] at h
  generalize (if base.kind = .file then base.size else 0) = n at h
  dsimp only at h
  split_ifs at h
  · cases h
  · obtain ⟨rfl, -⟩ := Prod.mk.inj (Option.some.inj h)
    exact ⟨hshown.1, hshown.2.1 ▸ hnames.1, hshown.2.2 ▸ hnames.2⟩

/-- An entry whose records do not fit reads as another. -/
theorem readOne_too_long {e : Entry} (he : e.Allowed) (hlong : 8 ^ 11 ≤ e.header.pax.length)
    (rest rest' : Bytes) : readOne (entryBytes e ++ rest) ≠ some (e.meant, rest') := by
  intro h
  obtain ⟨x, hx, hxflag, hxsize⟩ := readHeader_extended he e.header.pax.length
  rw [fieldValue, if_neg (by omega)] at hxsize
  have hnil : e.header.pax ≠ [] := fun hnil => by
    rw [hnil] at hlong
    exact absurd hlong (by norm_num)
  have hxlen := @length_ustar (ascii "PaxHeaders/" ++ (baseName e.header.path).take 80) 120
    { mode := 0o644, mtime := ⟨max e.header.mtime.secs 0, 0⟩ } e.header.pax.length
  unfold entryBytes at h
  rw [if_neg hnil, extendedHeader, List.append_assoc, List.append_assoc, List.append_assoc,
    List.append_assoc] at h
  have hempty : ∀ bs : Bytes, slice bs BLOCK 0 = [] := fun bs => List.take_zero
  have hnone : readPax [] = some [] := rfl
  simp only [readOne, take_head hxlen, hx, Option.bind_eq_bind, Option.bind_some, hxflag, if_true,
    hxsize, hempty, hnone] at h
  split_ifs at h
  · simp at h
  · obtain ⟨hxattrs, hpath, hlink⟩ := small_of_readMember h
    have hshort := extendedLength_lt he hxattrs hpath hlink
    rw [← length_pax he] at hshort
    omega

/-! ## The archive -/

/-- Bytes that read as an entry do not start with zero blocks. -/
theorem not_end_of_readOne {bs rest : Bytes} {m : Member} (h : readOne bs = some (m, rest)) :
    bs.take (2 * BLOCK) ≠ List.replicate (2 * BLOCK) 0 := by
  obtain ⟨u, hu, -⟩ := Option.bind_eq_some_iff.mp h
  intro hzero
  have hblock : bs.take BLOCK = List.replicate BLOCK 0 := by
    have := congrArg (List.take BLOCK) hzero
    rwa [List.take_take, List.take_replicate, Nat.min_eq_left (by decide)] at this
  have hmagic : slice (List.replicate BLOCK (0 : UInt8)) 257 8 ≠ ascii "ustar" ++ [0] ++ ascii "00" := by
    rw [slice_replicate 0 (by decide)]
    decide
  rw [hblock, readHeader, if_pos (Or.inl hmagic)] at hu
  cases hu

theorem readFrom_cons {fuel : Nat} {bs rest : Bytes} {m : Member}
    (h : readOne bs = some (m, rest)) :
    readFrom (fuel + 1) bs = (readFrom fuel rest).map (m :: ·) := by
  rw [readFrom, if_neg (not_end_of_readOne h), h, Option.bind_eq_bind, Option.bind_some]
  dsimp only
  cases readFrom fuel rest <;> rfl

/-- Entries whose records all fit read back. -/
theorem readFrom_entries {es : List Entry} (hes : ∀ e ∈ es, e.Allowed)
    (hroom : ∀ e ∈ es, e.header.pax.length < 8 ^ 11) {fuel : Nat} (hfuel : es.length < fuel) :
    readFrom fuel (es.flatMap entryBytes ++ List.replicate (2 * BLOCK) 0) =
      some (es.map Entry.meant) := by
  induction es generalizing fuel with
  | nil =>
    obtain ⟨fuel, rfl⟩ : ∃ n, fuel = n + 1 := ⟨fuel - 1, by simp at hfuel; omega⟩
    rw [List.flatMap_nil, List.nil_append, readFrom, if_pos (List.take_of_length_le (by simp))]
    rfl
  | cons e es ih =>
    obtain ⟨fuel, rfl⟩ : ∃ n, fuel = n + 1 := ⟨fuel - 1, by simp at hfuel; omega⟩
    have hone := readOne_entry (hes e List.mem_cons_self) (hroom e List.mem_cons_self)
      (es.flatMap entryBytes ++ List.replicate (2 * BLOCK) 0)
    rw [List.flatMap_cons, List.append_assoc, readFrom_cons hone,
      ih (fun e he => hes e (List.mem_cons_of_mem _ he))
        (fun e he => hroom e (List.mem_cons_of_mem _ he)) (by simpa using hfuel)]
    rfl

/-- Entries that read back have records that fit. -/
theorem room_of_readFrom {es : List Entry} (hes : ∀ e ∈ es, e.Allowed) {fuel : Nat} {last : Bytes}
    (h : readFrom fuel (es.flatMap entryBytes ++ last) = some (es.map Entry.meant)) :
    ∀ e ∈ es, e.header.pax.length < 8 ^ 11 := by
  induction es generalizing fuel with
  | nil => simp
  | cons e es ih =>
    obtain ⟨fuel, rfl⟩ : ∃ n, fuel = n + 1 := by
      cases fuel with
      | zero => cases h
      | succ n => exact ⟨n, rfl⟩
    have he := hes e List.mem_cons_self
    rw [List.flatMap_cons, List.append_assoc] at h
    have hroom : e.header.pax.length < 8 ^ 11 := by
      by_contra hlong
      rw [readFrom] at h
      split_ifs at h
      · cases h
      · obtain ⟨⟨m, rest⟩, hone, h⟩ := Option.bind_eq_some_iff.mp h
        obtain ⟨ms, -, h⟩ := Option.bind_eq_some_iff.mp h
        obtain rfl : m = e.meant := (List.cons.inj (Option.some.inj h)).1
        exact readOne_too_long he (by omega) _ _ hone
    rw [readFrom_cons (readOne_entry he hroom _)] at h
    obtain ⟨ms, hms, heq⟩ := Option.map_eq_some_iff.mp h
    obtain rfl : ms = es.map Entry.meant := (List.cons.inj heq).2
    exact List.forall_mem_cons.mpr ⟨hroom, ih (fun e he => hes e (List.mem_cons_of_mem _ he)) hms⟩

theorem padding_fills (n : Nat) : BLOCK ∣ n + padding n := by
  unfold padding BLOCK
  omega

/-- An entry takes whole blocks. -/
theorem block_dvd_entry {e : Entry} (he : e.Allowed) : BLOCK ∣ (entryBytes e).length := by
  have hpax : BLOCK ∣ (if e.header.pax = [] then [] else extendedHeader e.header e.header.pax).length := by
    split_ifs
    · exact dvd_zero _
    · rw [extendedHeader, List.length_append, List.length_append, length_ustar, List.length_replicate,
        Nat.add_assoc]
      exact Nat.dvd_add (dvd_refl _) (padding_fills _)
  rw [entryBytes, List.length_append, List.length_append, List.length_append, length_ustar,
    List.length_replicate, he.contents]
  exact Nat.dvd_add (Nat.dvd_add hpax (dvd_refl _)) (padding_fills _)

/-- What an archive is to be: whole blocks, every header read with its checksum right, and the
entries as they were packed. -/
def ReadsAsPacked (es : List Entry) : Prop :=
  ∃ w, packAll es Writer.new = .ok () w ∧ BLOCK ∣ w.out.length ∧
    readArchive w.out = some (es.map Entry.meant)

theorem blocks_of_entries {es : List Entry} (hes : ∀ e ∈ es, e.Allowed) :
    BLOCK ∣ (es.flatMap entryBytes).length ∧ es.length ≤ (es.flatMap entryBytes).length := by
  induction es with
  | nil => exact ⟨dvd_zero _, le_refl _⟩
  | cons e es ih =>
    obtain ⟨hdvd, hle⟩ := ih fun e he => hes e (List.mem_cons_of_mem _ he)
    have hentry := block_dvd_entry (hes e List.mem_cons_self)
    have hhead : 1 ≤ (entryBytes e).length := by
      rw [entryBytes, List.length_append, List.length_append, length_ustar, BLOCK]
      omega
    rw [List.flatMap_cons, List.length_append, List.length_cons]
    exact ⟨Nat.dvd_add hentry hdvd, by omega⟩

theorem room_of_reads {es : List Entry} (hes : ∀ e ∈ es, e.Allowed) (h : ReadsAsPacked es) :
    ∀ e ∈ es, extendedLength e.header < 8 ^ 11 := by
  obtain ⟨w, hw, -, hread⟩ := h
  obtain ⟨w', hw', hout⟩ := packAll_eq hes
  obtain rfl : w = w' := by
    rw [hw] at hw'
    cases hw'
    rfl
  rw [hout] at hread
  intro e he
  rw [← length_pax (hes e he)]
  exact room_of_readFrom hes hread e he

/-- An archive reads back as packed exactly when eleven octal digits hold the length of each
extended header's records. -/
theorem reads_as_packed_iff {es : List Entry} (hes : ∀ e ∈ es, e.Allowed) :
    ReadsAsPacked es ↔ ∀ e ∈ es, extendedLength e.header < 8 ^ 11 := by
  refine ⟨room_of_reads hes, fun hroom => ?_⟩
  obtain ⟨w, hw, hout⟩ := packAll_eq hes
  obtain ⟨hdvd, hcount⟩ := blocks_of_entries hes
  refine ⟨w, hw, ?_, ?_⟩
  · rw [hout, List.length_append, List.length_replicate]
    exact Nat.dvd_add hdvd (dvd_mul_left _ _)
  · rw [hout]
    refine readFrom_entries hes (fun e he => ?_) ?_
    · rw [length_pax (hes e he)]
      exact hroom e he
    · rw [List.length_append, List.length_replicate, BLOCK]
      omega

/-- A file in two pieces, and a directory changed half a second before the epoch. -/
def smallTree : List Entry :=
  [⟨{ path := ascii "a", mode := 0o644, size := 3 }, [ascii "ab", ascii "c"]⟩,
    ⟨{ path := ascii "d/", kind := .directory, mode := 0o755, mtime := ⟨-1, 500000000⟩
       xattrs := [(ascii "user.note", [10, 61, 0])] }, []⟩]

theorem allowed_smallTree : ∀ e ∈ smallTree, e.Allowed := by
  unfold smallTree
  rw [List.forall_mem_cons, List.forall_mem_cons]
  refine ⟨?_, ?_, fun e he => absurd he List.not_mem_nil⟩
  · exact ⟨by decide, by decide, by decide, by decide, by decide, by decide, rfl, by decide, by decide,
      by decide, by decide⟩
  · exact ⟨by decide, by decide, by decide, by decide, by decide, by decide, rfl, by decide, by decide,
      by decide, by decide⟩

theorem reads_as_packed_small : (∀ e ∈ smallTree, e.Allowed) ∧ ReadsAsPacked smallTree :=
  ⟨allowed_smallTree, (reads_as_packed_iff allowed_smallTree).mpr (by decide +kernel)⟩

/-- A file whose path has 8 GiB. -/
def longNamed : Entry := ⟨{ path := List.replicate (8 ^ 11) 97, mode := 0o644 }, []⟩

theorem length_longNamed : longNamed.header.path.length = 8 ^ 11 := List.length_replicate

theorem allowed_longNamed : longNamed.Allowed where
  path h := by
    have hlen := length_longNamed
    rw [h] at hlen
    exact absurd hlen (by norm_num)
  noNul := ⟨fun h => absurd (List.eq_of_mem_replicate h) (by decide), List.not_mem_nil⟩
  mode := by decide
  device := by decide
  nsecs := by decide
  names := fun x hx => absurd hx List.not_mem_nil
  contents := rfl
  uid := by decide
  gid := by decide
  size := by decide
  secs := by decide

/-- Its path's record alone is too long. -/
theorem reads_another : longNamed.Allowed ∧ ¬ReadsAsPacked [longNamed] := by
  refine ⟨allowed_longNamed, fun h => ?_⟩
  have hroom := room_of_reads (fun e he => List.mem_singleton.mp he ▸ allowed_longNamed) h longNamed
    List.mem_cons_self
  obtain ⟨records, hr, -⟩ := records_eq_ok allowed_longNamed.nsecs
  have hlong : 100 < longNamed.header.path.length := by
    rw [length_longNamed]
    norm_num
  have hfits : headerFits longNamed.header.path longNamed.header longNamed.header.contents = false := by
    have : ¬longNamed.header.path.length ≤ 100 := by omega
    simp [headerFits, this]
  have hmem : (ascii "path", longNamed.header.path) ∈ records := by
    rw [Header.records, extendedRecords, if_pos (Or.inl hfits)] at hr
    obtain ⟨metadata, hmeta, hout⟩ := except_bind_eq_ok.mp hr
    obtain ⟨time, -, hmeta⟩ := except_bind_eq_ok.mp hmeta
    obtain rfl := Except.ok.inj hmeta
    obtain rfl := Except.ok.inj hout
    rw [if_pos hlong]
    simp
  have hsum := List.single_le_sum (fun n _ => Nat.zero_le n) _ (List.mem_map_of_mem (f := recordLen) hmem)
  have hone : 8 ^ 11 ≤ recordLen (ascii "path", longNamed.header.path) :=
    length_longNamed.ge.trans (value_le_recordLen (ascii "path", longNamed.header.path))
  rw [extendedLength_eq hr] at hroom
  exact absurd hroom (not_lt.mpr (hone.trans hsum))

end FioXfs.Tar

