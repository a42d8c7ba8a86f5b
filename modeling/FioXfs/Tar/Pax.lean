import FioXfs.Lib.Records
import FioXfs.Tar
import FioXfs.Volume.Xattrs
set_option autoImplicit false

/-!
# PAX records read back

A record's length counts its own digits, so the records of an extended header are told apart
whatever they hold.  Inside a record the keyword ends at the first equals sign, which is the one
the writer put there unless an attribute's name has one of its own.
-/

namespace FioXfs.Tar

open FioXfs.Lib

/-! ## The length loop -/

/-- The loop ends, at a length that counts itself. -/
theorem paxLen_eq_ok {body fuel len : Nat} (hge : len ≤ body + (numeral 10 len).length)
    (hle : len ≤ 2 * body + 2) (hfuel : 2 * body + 2 - len < fuel) :
    ∃ n, paxLen body fuel len = .ok n ∧ CountsItself 10 body n := by
  induction fuel generalizing len with
  | zero => omega
  | succ fuel ih =>
    rw [paxLen]
    by_cases heq : len = body + (numeral 10 len).length
    · rw [if_neg (not_not.mpr heq)]
      exact ⟨len, rfl, heq⟩
    · rw [if_pos heq]
      have hmono : (numeral 10 len).length ≤ (numeral 10 (body + (numeral 10 len).length)).length :=
        length_numeral_mono (by omega) hge
      have hgrown := grown_le (by omega : 2 ≤ 10) hle
      exact ih (by omega) hgrown (by omega)

/-- What a record holds after its length. -/
def payload (r : Bytes × Bytes) : Bytes := r.1 ++ 61 :: r.2 ++ [10]

theorem length_payload (r : Bytes × Bytes) : (payload r).length = r.1.length + r.2.length + 2 := by
  simp only [payload, List.length_append, List.length_cons, List.length_nil]
  omega

/-- A record is written, and counts itself. -/
theorem paxRecord_eq_ok (r : Bytes × Bytes) :
    ∃ len, CountsItself 10 ((payload r).length + 1) len ∧
      paxRecord r.1 r.2 = .ok (counted 10 32 len (payload r)) := by
  have hpos := length_numeral_pos (by omega : 2 ≤ 10) (r.1.length + r.2.length + 3 + 1)
  obtain ⟨len, hloop, hlen⟩ := @paxLen_eq_ok (r.1.length + r.2.length + 3)
    (r.1.length + r.2.length + 3 + 3) (r.1.length + r.2.length + 3 + 1) (by omega) (by omega)
    (by omega)
  refine ⟨len, by rwa [length_payload], ?_⟩
  simp only [paxRecord, hloop, bind, Except.bind, pure, Except.pure, counted, payload]
  simp

/-- The records are written, one counted record after another. -/
theorem paxRecords_eq_ok (records : List (Bytes × Bytes)) :
    ∃ counts : List (Nat × Bytes), counts.map Prod.snd = records.map payload ∧
      (∀ c ∈ counts, CountsItself 10 (c.2.length + 1) c.1) ∧
      paxRecords records = .ok (counts.flatMap fun c => counted 10 32 c.1 c.2) := by
  induction records with
  | nil => exact ⟨[], rfl, by simp, rfl⟩
  | cons r records ih =>
    obtain ⟨counts, hmap, hcounts, hwritten⟩ := ih
    obtain ⟨len, hlen, hrecord⟩ := paxRecord_eq_ok r
    refine ⟨(len, payload r) :: counts, by rw [List.map_cons, List.map_cons, hmap], ?_, ?_⟩
    · exact List.forall_mem_cons.mpr ⟨hlen, hcounts⟩
    · simp only [paxRecords, hrecord, hwritten, bind, Except.bind, pure, Except.pure,
        List.flatMap_cons]

/-! ## Reading by the PAX rule -/

/-- The keyword up to the first equals sign, and the value up to the final newline. -/
def readPayload (p : Bytes) : Option (Bytes × Bytes) :=
  if p.getLast? = some 10 then cutAt 61 p.dropLast else none

/-- The records of an extended header. -/
def readPax (bs : Bytes) : Option (List (Bytes × Bytes)) := do
  let payloads ← readAll 10 32 bs
  payloads.mapM readPayload

theorem readPayload_payload (r : Bytes × Bytes) :
    readPayload (payload r) = cutAt 61 (r.1 ++ 61 :: r.2) := by
  rw [readPayload, payload, List.getLast?_concat, if_pos rfl, List.dropLast_concat]

/-- What is written reads back record by record. -/
theorem readPax_paxRecords {records : List (Bytes × Bytes)} {out : Bytes}
    (h : paxRecords records = .ok out) :
    readPax out = records.mapM fun r => cutAt 61 (r.1 ++ 61 :: r.2) := by
  obtain ⟨counts, hmap, hcounts, hwritten⟩ := paxRecords_eq_ok records
  obtain rfl : _ = out := Except.ok.inj (hwritten.symm.trans h)
  rw [readPax, readAll_flatMap (by omega) (by omega) (by decide) hcounts, hmap,
    Option.bind_eq_bind, Option.bind_some, List.mapM_map]
  exact congrArg (records.mapM ·) (funext readPayload_payload)

/-! ## The records of an extended header -/

/-- The keywords records are written under. -/
inductive Keyword where
  | path
  | linkpath
  | size
  | uid
  | gid
  | mtime
  /-- An attribute's, by its full name. -/
  | xattr (name : Bytes)

/-- A keyword as it is written. -/
def Keyword.text : Keyword → Bytes
  | path => ascii "path"
  | linkpath => ascii "linkpath"
  | size => ascii "size"
  | uid => ascii "uid"
  | gid => ascii "gid"
  | mtime => ascii "mtime"
  | xattr name => xattrKey name

/-- Records under keywords, as they are written. -/
def asWritten (records : List (Keyword × Bytes)) : List (Bytes × Bytes) :=
  records.map fun r => (r.1.text, r.2)

/-- A keyword without an equals sign of its own. -/
def Keyword.Plain : Keyword → Prop
  | xattr name => (61 : UInt8) ∉ name
  | _ => True

theorem equals_mem_text (k : Keyword) : (61 : UInt8) ∉ k.text ↔ k.Plain := by
  cases k with
  | xattr name =>
    have hprefix : (61 : UInt8) ∉ ascii "SCHILY.xattr." := by decide
    rw [Keyword.text, xattrKey, List.mem_append, or_iff_right hprefix, Keyword.Plain]
  | _ => exact iff_of_true (by decide) trivial

/-- What the records of an extended header are to be: each one written under its own length, and
all of them read back. -/
structure ReadsBack (records : List (Keyword × Bytes)) : Prop where
  /-- The length loop ends, and the digits in front are the record's own length. -/
  counts : ∀ r ∈ records, ∃ record rest, paxRecord r.1.text r.2 = .ok record ∧
    record = numeral 10 record.length ++ 32 :: rest
  /-- Reading gives the same keywords and values in order. -/
  reads : ∃ out, paxRecords (asWritten records) = .ok out ∧ readPax out = some (asWritten records)

/-- Every record counts itself. -/
theorem record_counts (key value : Bytes) : ∃ record rest, paxRecord key value = .ok record ∧
    record = numeral 10 record.length ++ 32 :: rest := by
  obtain ⟨len, hlen, hrecord⟩ := paxRecord_eq_ok (key, value)
  refine ⟨_, payload (key, value), hrecord, ?_⟩
  rw [length_counted hlen, counted]

/-- Reading every record is reading each. -/
theorem mapM_eq_some_self {α : Type} {f : α → Option α} {l : List α} :
    l.mapM f = some l ↔ ∀ a ∈ l, f a = some a := by
  induction l with
  | nil => simp
  | cons a l ih =>
    rw [List.mapM_cons, List.forall_mem_cons, ← ih]
    cases ha : f a with
    | none => simp
    | some b =>
      cases hl : l.mapM f with
      | none => simp
      | some bs => simp

/-- The records of an extended header read back exactly when no attribute's name has an equals
sign in it. -/
theorem pax_reads_back_iff (records : List (Keyword × Bytes)) :
    ReadsBack records ↔ ∀ r ∈ records, ∀ name, r.1 = .xattr name → (61 : UInt8) ∉ name := by
  have hplain : (∀ r ∈ records, ∀ name, r.1 = .xattr name → (61 : UInt8) ∉ name) ↔
      ∀ r ∈ records, r.1.Plain := by
    refine forall₂_congr fun r _ => ?_
    cases r.1 with
    | xattr name => simp [Keyword.Plain]
    | _ => simp [Keyword.Plain]
  have hall : (asWritten records).mapM (fun r => cutAt 61 (r.1 ++ 61 :: r.2)) =
      some (asWritten records) ↔ ∀ r ∈ records, r.1.Plain := by
    rw [mapM_eq_some_self, asWritten, List.forall_mem_map]
    exact forall₂_congr fun r _ => (cutAt_append_iff _ _).trans (equals_mem_text r.1)
  obtain ⟨_, _, _, hwritten⟩ := paxRecords_eq_ok (asWritten records)
  rw [hplain, ← hall]
  constructor
  · rintro ⟨-, out, hout, hreads⟩
    rw [← readPax_paxRecords hout]
    exact hreads
  · intro h
    refine ⟨fun r _ => record_counts _ _, _, hwritten, ?_⟩
    rw [readPax_paxRecords hwritten]
    exact h

/-! ## An attribute named with an equals sign -/

/-- An inode in use with one short-form attribute, `a=b` in the user namespace. -/
def taggedInode (ino : Nat) : Bytes :=
  let b : Bytes := List.replicate 256 0
  let b := put16 b 0 Inode.MAGIC
  let b := put16 b 2 Mode.IFREG
  let b := putBe 1 b 4 3
  let b := putBe 1 b 5 2
  let b := putBe 1 b 82 3
  let b := putBe 1 b 83 1
  let b := put64 b 152 ino
  let b := splice b 200 ([0, 11, 1, 0, 3, 1, 0] ++ ascii "a=b" ++ ascii "v")
  Crc.stamp b 100

/-- A new filesystem, opened. -/
def plainVolume : Volume :=
  { dev := ⟨freshSector 16 true, []⟩, sb := freshSb 16 true, log := .clean, w := none, time := none,
    clock := [] }

set_option maxRecDepth 100000 in
/-- The attribute reads back as `SCHILY.xattr.user.a` with value `b=v`. -/
theorem pax_misreads :
    (∃ i, Inode.parse (freshSb 16 true) 20 (taggedInode 20) = .ok i ∧
      plainVolume.xattrsInode i = .ok [⟨ascii "user.a=b", ascii "v"⟩]) ∧
    ¬ReadsBack [(.xattr (ascii "user.a=b"), ascii "v")] := by
  have hfound : ((Inode.parse (freshSb 16 true) 20 (taggedInode 20)).toOption.map
      plainVolume.xattrsInode) = some (.ok [⟨ascii "user.a=b", ascii "v"⟩]) := by decide +kernel
  refine ⟨?_, fun h => ?_⟩
  · obtain ⟨i, hi, hx⟩ := Option.map_eq_some_iff.mp hfound
    refine ⟨i, ?_, hx⟩
    generalize Inode.parse (freshSb 16 true) 20 (taggedInode 20) = r at hi
    cases r with
    | ok j => exact congrArg _ (Option.some.inj hi)
    | error e => cases hi
  · have hread : (paxRecords (asWritten [(.xattr (ascii "user.a=b"), ascii "v")])).toOption.bind
        readPax = some [(ascii "SCHILY.xattr.user.a", ascii "b=v")] := by decide +kernel
    obtain ⟨out, hout, hback⟩ := h.reads
    rw [hout, Except.toOption, Option.bind_some, hback] at hread
    exact absurd hread (by decide +kernel)

end FioXfs.Tar
