import FioXfs.Write
set_option autoImplicit false

/-!
# Times

A time is stored in one of two formats, each with a range of its own.  The older one is clamped
at both ends.  The other is clamped below only: past its last second the count of nanoseconds
does not fit in its word.
-/

namespace FioXfs

open FioXfs.Lib

namespace Timestamp

/-- Seconds in 64 bits, and less than a second beside them. -/
structure Given (t : Timestamp) : Prop where
  secs_ge : -2 ^ 63 ≤ t.secs
  secs_lt : t.secs < 2 ^ 63
  nsecs_lt : t.nsecs < 1000000000

/-- The last second of a format that has room for `nsecs` beside it. -/
def lastSecond (bigtime : Bool) (nsecs : Nat) : Int :=
  if bigtime then Int.ofNat ((2 ^ 64 - 1 - nsecs) / 1000000000) + MIN_SECS else 2 ^ 31 - 1

/-- The time with its seconds moved into the format's range. -/
def clamped (t : Timestamp) (bigtime : Bool) : Timestamp :=
  ⟨max MIN_SECS (min t.secs (lastSecond bigtime t.nsecs)), t.nsecs⟩

/-- The word is put into an inode where its times are. -/
def TouchedWith (t : Timestamp) (bigtime : Bool) (raw : Nat) : Prop :=
  ∀ r : Bytes, 112 ≤ r.length → Raw.bigtime r = bigtime → ∀ content,
    ∃ r', Raw.touch r t content = .ok r' ∧ be64 r' 48 = raw ∧ (content = true → be64 r' 40 = raw)

/-- An inode of the format with the word in it has the time. -/
def ParsedAs (raw : Nat) (bigtime : Bool) (t : Timestamp) : Prop :=
  ∀ sb : Superblock, sb.Sound → ∀ ino buf i, Inode.parse sb ino buf = .ok i →
    hasBit i.flags2 DIFLAG2_BIGTIME = bigtime →
      (be64 buf 32 = raw → i.atime = t) ∧ (be64 buf 40 = raw → i.mtime = t) ∧
        (be64 buf 48 = raw → i.ctime = t) ∧
          (be64 buf 144 = raw → i.version = 3 → i.crtime = some t)

/-- The time is stored without overflow, and reads back moved into the format's range. -/
def ReadsBack (t : Timestamp) (bigtime : Bool) : Prop :=
  ∃ raw, tsRaw t bigtime = .ok raw ∧ raw < 2 ^ 64 ∧ t.TouchedWith bigtime raw ∧
    ParsedAs raw bigtime (t.clamped bigtime)

/-! ## The stored word -/

section
variable {t : Timestamp}

theorem tsRaw_older (t : Timestamp) : tsRaw t false =
    .ok ((max MIN_SECS (min t.secs 2147483647) % 4294967296).toNat <<< 32 ||| t.nsecs) := by
  rfl

/-- The older format: 32 bits of seconds over 32 bits of nanoseconds. -/
theorem tsRaw_older_eq (h : t.Given) :
    tsRaw t false = .ok ((max MIN_SECS (min t.secs 2147483647) % 4294967296).toNat * 2 ^ 32 +
      t.nsecs) := by
  have hn := h.nsecs_lt
  rw [tsRaw_older, shiftLeft_or (by omega)]

/-- The count of nanoseconds from the other format's first second. -/
def nanos (t : Timestamp) : Nat := (max (t.secs - MIN_SECS) 0).toNat * 1000000000 + t.nsecs

/-- A second after the last has no count in 64 bits. -/
theorem nanos_lt_iff (h : t.Given) : t.nanos < 2 ^ 64 ↔ t.secs ≤ lastSecond true t.nsecs := by
  have hn := h.nsecs_lt
  simp only [nanos, lastSecond, MIN_SECS, if_true, Int.ofNat_eq_natCast]
  omega

/-- The count is worked out exactly where it fits. -/
theorem tsRaw_bigtime (h : t.Given) (hlast : t.secs ≤ lastSecond true t.nsecs) :
    tsRaw t true = .ok t.nanos := by
  have hn := h.nsecs_lt
  have hlt := (nanos_lt_iff h).mpr hlast
  unfold nanos at hlt
  have hsecs : ¬9223372036854775808 ≤ t.secs - MIN_SECS := by
    have := Int.self_le_toNat (t.secs - MIN_SECS)
    simp only [MIN_SECS] at hlt this ⊢
    omega
  rw [tsRaw, if_pos rfl, except_throwIf_bind_of_not hsecs,
    except_throwIf_bind_of_not (by omega), except_throwIf_bind_of_not (by omega)]
  rfl

theorem le_of_tsRaw_bigtime {raw : Nat} (h : t.Given) (hraw : tsRaw t true = .ok raw) :
    t.secs ≤ lastSecond true t.nsecs := by
  rw [← nanos_lt_iff h]
  simp only [tsRaw, if_true, except_bind_eq_ok, except_throwIf_eq_ok, exists_const] at hraw
  obtain ⟨-, -, hlt, -⟩ := hraw
  exact not_le.mp hlt

/-! ## Reading it -/

theorem readTime_older (h : t.Given) :
    Inode.readTime false ((max MIN_SECS (min t.secs 2147483647) % 4294967296).toNat * 2 ^ 32 +
      t.nsecs) = t.clamped false := by
  have hn := h.nsecs_lt
  have hlt : t.nsecs < 2 ^ 32 := by omega
  have hrange : MIN_SECS ≤ max MIN_SECS (min t.secs 2147483647) ∧
      max MIN_SECS (min t.secs 2147483647) ≤ 2147483647 := by
    simp only [MIN_SECS]
    omega
  have hlast : lastSecond false t.nsecs = 2147483647 := by
    rw [lastSecond, if_neg Bool.false_ne_true]
    norm_num
  rw [Inode.readTime, if_neg Bool.false_ne_true, clamped, hlast]
  simp only [Superblock.packed_div hlt, Superblock.packed_mod hlt]
  congr 1
  -- the seconds are read as signed from the 32 bits they were cut to
  generalize max MIN_SECS (min t.secs 2147483647) = s at hrange ⊢
  simp only [MIN_SECS, Int.ofNat_eq_natCast] at hrange ⊢
  split <;> omega

theorem readTime_bigtime (h : t.Given) (hlast : t.secs ≤ lastSecond true t.nsecs) :
    Inode.readTime true t.nanos = t.clamped true := by
  have hn := h.nsecs_lt
  have hdiv : t.nanos / 1000000000 = (max (t.secs - MIN_SECS) 0).toNat := by
    unfold nanos
    omega
  have hmod : t.nanos % 1000000000 = t.nsecs := by
    unfold nanos
    omega
  rw [Inode.readTime, if_pos rfl, hdiv, hmod, clamped, min_eq_left hlast]
  congr 1
  simp only [MIN_SECS, BIGTIME_EPOCH_OFFSET, Int.ofNat_eq_natCast]
  omega

/-! ## Putting it into an inode, and parsing it -/

theorem touchedWith {bigtime : Bool} {raw : Nat} (hraw : tsRaw t bigtime = .ok raw)
    (hlt : raw < 2 ^ 64) : t.TouchedWith bigtime raw := by
  intro r hlen hb content
  have hfit : raw < 256 ^ 8 := hlt.trans_eq (by norm_num)
  obtain ⟨r1, hr1⟩ : ∃ r1, r1 = if content then put64 r 40 raw else r := ⟨_, rfl⟩
  have hlen1 : r1.length = r.length := by
    rw [hr1]
    split
    · exact length_putBe (by omega)
    · rfl
  have hlen2 : (put64 r1 48 raw).length = r.length := by
    rw [← hlen1]
    exact length_putBe (by omega)
  have hkeep : ∀ o v, o + 8 ≤ 104 → be64 (put64 (put64 r1 48 raw) 104 v) o =
      be64 (put64 r1 48 raw) o := fun o v ho => getBe_putBe_disjoint (by omega) (.inl ho)
  refine ⟨put64 (put64 r1 48 raw) 104 (be64 (put64 r1 48 raw) 104 + 1), ?_, ?_, ?_⟩
  · rw [Raw.touch, hb, hraw, hr1]
    rfl
  · rw [hkeep 48 _ (by omega)]
    exact getBe_putBe_same (by omega) hfit
  · intro hc
    rw [hkeep 40 _ (by omega)]
    have hr40 : be64 (put64 r1 48 raw) 40 = be64 r1 40 :=
      getBe_putBe_disjoint (by omega) (.inl (by omega))
    rw [hr40, hr1, if_pos hc]
    exact getBe_putBe_same (by omega) hfit

/-- Parsing reads each time from its word, in the format the flags say. -/
theorem times_of_parse {sb : Superblock} (hs : sb.Sound) {ino : Nat} {buf : Bytes} {i : Inode}
    (h : Inode.parse sb ino buf = .ok i) :
    i.atime = Inode.readTime (hasBit i.flags2 DIFLAG2_BIGTIME) (be64 buf 32) ∧
      i.mtime = Inode.readTime (hasBit i.flags2 DIFLAG2_BIGTIME) (be64 buf 40) ∧
      i.ctime = Inode.readTime (hasBit i.flags2 DIFLAG2_BIGTIME) (be64 buf 48) ∧
      (i.version = 3 →
        i.crtime = some (Inode.readTime (hasBit i.flags2 DIFLAG2_BIGTIME) (be64 buf 144))) := by
  have hsize := hs.inodeSize_ge
  have field : ∀ o, o + 8 ≤ 256 → be64 (buf.take sb.inodeSize) o = be64 buf o := by
    intro o ho
    have htake : buf.take sb.inodeSize = slice buf 0 sb.inodeSize := by rw [slice, List.drop_zero]
    have hs : slice (buf.take sb.inodeSize) o 8 = slice buf o 8 := by
      rw [htake, slice_slice (by omega), Nat.zero_add]
    exact congrArg beNat hs
  simp only [Inode.parse, except_bind_eq_ok, except_throwIf_eq_ok, exists_const] at h
  obtain ⟨-, -, core, -, _, -, format, -, ⟨d, a, f⟩, -, h⟩ := h
  cases h
  refine ⟨?_, ?_, ?_, fun hv => ?_⟩
  · rw [field 32 (by omega)]
  · rw [field 40 (by omega)]
  · rw [field 48 (by omega)]
  · rw [← field 144 (by omega)]
    exact if_pos hv

theorem parsedAs {bigtime : Bool} {raw : Nat} {t' : Timestamp}
    (h : Inode.readTime bigtime raw = t') : ParsedAs raw bigtime t' := by
  intro sb hs ino buf i hp hb
  obtain ⟨ha, hm, hc, hcr⟩ := times_of_parse hs hp
  rw [hb] at ha hm hc hcr
  refine ⟨fun hw => ?_, fun hw => ?_, fun hw => ?_, fun hw hv => ?_⟩
  · rw [ha, hw, h]
  · rw [hm, hw, h]
  · rw [hc, hw, h]
  · rw [hcr hv, hw, h]

/-- A time reads back exactly where its format is the older one or its seconds are not past the
last that the other one holds. -/
theorem readsBack_iff (t : Timestamp) (bigtime : Bool) (h : t.Given) :
    t.ReadsBack bigtime ↔ (bigtime = true → t.secs ≤ lastSecond true t.nsecs) := by
  constructor
  · rintro ⟨raw, hraw, -⟩ rfl
    exact le_of_tsRaw_bigtime h hraw
  · intro hlast
    have hn := h.nsecs_lt
    cases bigtime with
    | false =>
      have hraw := tsRaw_older_eq h
      have hlt : (max MIN_SECS (min t.secs 2147483647) % 4294967296).toNat * 2 ^ 32 + t.nsecs <
          2 ^ 64 := by
        omega
      exact ⟨_, hraw, hlt, touchedWith hraw hlt, parsedAs (readTime_older h)⟩
    | true =>
      have hraw := tsRaw_bigtime h (hlast rfl)
      have hlt := (nanos_lt_iff h).mpr (hlast rfl)
      exact ⟨_, hraw, hlt, touchedWith hraw hlt, parsedAs (readTime_bigtime h (hlast rfl))⟩

/-- A time before both formats' first second, the last nanosecond of the second format, and the one
after it. -/
theorem readsBack_iff_ends :
    (∀ bigtime, Given ⟨-3000000000, 999999999⟩ ∧ ReadsBack ⟨-3000000000, 999999999⟩ bigtime ∧
      clamped ⟨-3000000000, 999999999⟩ bigtime = ⟨-2147483648, 999999999⟩) ∧
    ReadsBack ⟨16299260425, 709551615⟩ true ∧ ¬ReadsBack ⟨16299260425, 709551616⟩ true := by
  refine ⟨fun bigtime => ⟨⟨by decide, by decide, by decide⟩, ?_, ?_⟩, ?_, ?_⟩
  · exact (readsBack_iff _ bigtime ⟨by decide, by decide, by decide⟩).mpr fun _ => by decide
  · cases bigtime <;> decide
  · exact (readsBack_iff _ true ⟨by decide, by decide, by decide⟩).mpr fun _ => by decide
  · intro h
    have hlast := (readsBack_iff _ true ⟨by decide, by decide, by decide⟩).mp h rfl
    exact absurd hlast (by decide)

/-- The first second past the last: the count overflows its word. -/
theorem year_2486_lost : ¬∀ (t : Timestamp) (bigtime : Bool), t.Given → t.ReadsBack bigtime := by
  intro h
  obtain ⟨raw, hraw, -⟩ := h ⟨16299260426, 0⟩ true ⟨by decide, by decide, by decide⟩
  have hover : tsRaw ⟨16299260426, 0⟩ true =
      .error (.panic "attempt to multiply with overflow") := by
    decide +kernel
  rw [hover] at hraw
  cases hraw

end

end Timestamp

end FioXfs
