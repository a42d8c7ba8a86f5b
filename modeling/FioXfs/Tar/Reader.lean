import FioXfs.Tar.Header
import FioXfs.Tar.Pax
set_option autoImplicit false

/-!
# Reading an archive

A reader that follows the rules of ustar and PAX: the records of an extended header override the
fields of the next entry's.
-/

namespace FioXfs.Tar

open FioXfs.Lib

/-! ## Times -/

/-- A decimal number of seconds in nanoseconds: digits, and a fraction after a dot. -/
def readNanos (bs : Bytes) : Option Nat :=
  match cutAt 46 bs with
  | none => (valueOf 10 bs).map (· * 1000000000)
  | some (whole, frac) => do
      let secs ← valueOf 10 whole
      let nanos ← valueOf 10 ((frac ++ List.replicate 9 48).take 9)
      return secs * 1000000000 + nanos

/-- Nanoseconds since the epoch as a point in time. -/
def timeOfNanos (n : Int) : Timestamp := ⟨n / 1000000000, (n % 1000000000).toNat⟩

/-- A decimal time, which may be negative and fractional. -/
def readTime : Bytes → Option Timestamp
  | 45 :: bs => (readNanos bs).map fun n : Nat => timeOfNanos (-(n : Int))
  | bs => (readNanos bs).map fun n : Nat => timeOfNanos n

theorem dot_notMem_numeral (n : Nat) : (46 : UInt8) ∉ numeral 10 n := fun h => by
  obtain ⟨d, hd, heq⟩ := mem_numeral (by omega) h
  have hval := congrArg UInt8.toNat heq
  rw [toNat_digit (by omega)] at hval
  have h46 : (46 : UInt8).toNat = 46 := rfl
  omega

theorem cutAt_eq_none {sep : UInt8} {bs : Bytes} (h : sep ∉ bs) : cutAt sep bs = none := by
  induction bs with
  | nil => rfl
  | cons b bs ih =>
    obtain ⟨hne, hbs⟩ := List.ne_and_not_mem_of_not_mem_cons h
    rw [cutAt, if_neg (Ne.symm hne), ih hbs]
    rfl

theorem readNanos_numeral (n : Nat) : readNanos (numeral 10 n) = some (n * 1000000000) := by
  rw [readNanos, cutAt_eq_none (dot_notMem_numeral n), valueOf_numeral (by omega) (by omega)]
  rfl

theorem readNanos_fraction (n : Nat) {f : Nat} (hf : f < 1000000000) :
    readNanos (numeral 10 n ++ [46] ++ padded 10 9 f) = some (n * 1000000000 + f) := by
  have hlen : (padded 10 9 f).length = 9 := length_padded (by omega) (by omega) (by norm_num; omega)
  have htake : (padded 10 9 f ++ List.replicate 9 48).take 9 = padded 10 9 f := by
    rw [List.take_append_of_le_length hlen.ge, List.take_of_length_le hlen.le]
  rw [readNanos, List.append_assoc, List.singleton_append, cutAt_append _ _ (dot_notMem_numeral n)]
  simp only [valueOf_numeral (by omega : 2 ≤ 10) (le_refl 10), htake, Option.bind_eq_bind,
    Option.bind_some, valueOf_padded (by omega : 2 ≤ 10) (le_refl 10)]
  rfl

/-- No number starts with a minus sign. -/
theorem readTime_numeral (n : Nat) (bs : Bytes) :
    readTime (numeral 10 n ++ bs) = (readNanos (numeral 10 n ++ bs)).map fun n : Nat => timeOfNanos n := by
  have hpos := length_numeral_pos (by omega : 2 ≤ 10) n
  cases hb : numeral 10 n with
  | nil => rw [hb] at hpos; exact absurd hpos (by simp)
  | cons b digits =>
    have hne : b ≠ 45 := fun h => by
      obtain ⟨d, hd, heq⟩ := mem_numeral (by omega) (hb ▸ List.mem_cons_self : b ∈ numeral 10 n)
      have hval := congrArg UInt8.toNat heq
      rw [toNat_digit (by omega), h] at hval
      have h45 : (45 : UInt8).toNat = 45 := rfl
      omega
    rw [List.cons_append, readTime]
    intro bs' h
    exact hne (List.cons.inj h).1

theorem timeOfNanos_eq (secs : Int) {f : Nat} (hf : f < 1000000000) :
    timeOfNanos (secs * 1000000000 + f) = ⟨secs, f⟩ := by
  have hdiv : (secs * 1000000000 + f) / 1000000000 = secs := by omega
  have hmod : (secs * 1000000000 + f) % 1000000000 = f := by omega
  rw [timeOfNanos, hdiv, hmod, Int.toNat_natCast]

/-- A time reads back to the nanosecond. -/
theorem readTime_paxTime {t : Timestamp} (hn : t.nsecs < 1000000000) :
    ∃ bs, paxTime t = .ok bs ∧ readTime bs = some t := by
  obtain ⟨secs, nsecs⟩ := t
  dsimp only at hn
  rw [paxTime]
  dsimp only
  by_cases hz : nsecs = 0
  · subst hz
    refine ⟨decimal secs, if_pos rfl, ?_⟩
    by_cases hneg : secs < 0
    · rw [decimal, if_pos hneg, List.singleton_append, readTime, readNanos_numeral, Option.map_some]
      rw [← timeOfNanos_eq secs (by omega : 0 < 1000000000)]
      congr 2
      omega
    · rw [decimal, if_neg hneg, List.nil_append, ← List.append_nil (numeral 10 _), readTime_numeral,
        List.append_nil, readNanos_numeral, Option.map_some,
        ← timeOfNanos_eq secs (by omega : 0 < 1000000000)]
      congr 2
      omega
  · rw [if_neg hz]
    by_cases hpos : 0 ≤ secs
    · refine ⟨_, if_pos hpos, ?_⟩
      rw [decimal, if_neg (by omega), List.nil_append, List.append_assoc, readTime_numeral,
        ← List.append_assoc, readNanos_fraction _ hn, Option.map_some, ← timeOfNanos_eq secs hn]
      congr 2
      omega
    · rw [if_neg hpos]
      refine ⟨_, except_throwIf_bind_of_not (by omega), ?_⟩
      rw [decimal, if_neg (by omega), List.nil_append, List.append_assoc, List.append_assoc,
        List.singleton_append, readTime, ← List.append_assoc,
        readNanos_fraction _ (by omega : 1000000000 - nsecs < 1000000000), Option.map_some,
        ← timeOfNanos_eq secs hn]
      congr 2
      omega

/-! ## Entries as read -/

/-- An entry as a reader finds it. -/
structure Member where
  path : Bytes
  kind : EntryKind
  link : Bytes
  mode : Nat
  uid : Nat
  gid : Nat
  mtime : Timestamp
  size : Nat
  /-- A device's major and minor numbers. -/
  device : Option (Nat × Nat)
  xattrs : List (Bytes × Bytes)
  content : Bytes
  deriving DecidableEq

/-- The kind a flag stands for. -/
def kindOf (flag : UInt8) : Option EntryKind :=
  [.file, .hardLink, .symlink, .charDevice, .blockDevice, .directory, .fifo].find?
    fun k : EntryKind => k.flag = flag

theorem kindOf_flag (k : EntryKind) : kindOf k.flag = some k := by
  cases k <;> rfl

/-- What an entry's own header says. -/
def baseMember (u : Ustar) : Option Member :=
  (kindOf u.flag).map fun kind =>
    { path := u.path, kind := kind, link := u.link, mode := u.mode, uid := u.uid, gid := u.gid
      mtime := ⟨u.secs, 0⟩, size := u.size
      device := if kind = .charDevice ∨ kind = .blockDevice then some (u.major, u.minor) else none
      xattrs := [], content := [] }

/-- What a record says instead. -/
def override (m : Member) (r : Bytes × Bytes) : Option Member :=
  if r.1 = ascii "path" then some { m with path := r.2 }
  else if r.1 = ascii "linkpath" then some { m with link := r.2 }
  else if r.1 = ascii "size" then (valueOf 10 r.2).map fun n => { m with size := n }
  else if r.1 = ascii "uid" then (valueOf 10 r.2).map fun n => { m with uid := n }
  else if r.1 = ascii "gid" then (valueOf 10 r.2).map fun n => { m with gid := n }
  else if r.1 = ascii "mtime" then (readTime r.2).map fun t => { m with mtime := t }
  else if (ascii "SCHILY.xattr.").isPrefixOf r.1 then
    some { m with xattrs := m.xattrs ++ [(r.1.drop 13, r.2)] }
  else some m

/-- Read an entry whose extended header, if any, had `records`, and what follows it. -/
def readMember (records : List (Bytes × Bytes)) (bs : Bytes) : Option (Member × Bytes) := do
  let u ← readHeader (bs.take BLOCK)
  let base ← baseMember u
  let m ← records.foldlM override base
  let n := if m.kind = .file then m.size else 0
  if bs.length < BLOCK + n then none
  return ({ m with content := slice bs BLOCK n }, bs.drop (BLOCK + n + padding n))

/-- Read one entry with its extended header, and what follows it. -/
def readOne (bs : Bytes) : Option (Member × Bytes) := do
  let u ← readHeader (bs.take BLOCK)
  if u.flag = 120 then do
    if bs.length < BLOCK + u.size then none
    let records ← readPax (slice bs BLOCK u.size)
    readMember records (bs.drop (BLOCK + u.size + padding u.size))
  else readMember [] bs

/-- The entries up to the two zero blocks at the end. -/
def readFrom : Nat → Bytes → Option (List Member)
  | 0, _ => none
  | fuel + 1, bs =>
      if bs.take (2 * BLOCK) = List.replicate (2 * BLOCK) 0 then some []
      else do
        let (m, rest) ← readOne bs
        let ms ← readFrom fuel rest
        return m :: ms

/-- The entries of an archive. -/
def readArchive (bs : Bytes) : Option (List Member) := readFrom bs.length bs

end FioXfs.Tar
