import FioXfs.Lib.Bytes
set_option autoImplicit false

/-!
# Lib: text from any bytes

Bytes that may not be UTF-8 read as text, each longest start of a character that does not go on
as one replaced.
-/

namespace FioXfs.Lib

/-- U+FFFD. -/
def replacement : Bytes := [0xEF, 0xBF, 0xBD]

/-- What a byte of 0x80 and above starts: how many bytes follow it, and between what the first of
them lies. -/
def leads (b : UInt8) : Option (Nat × UInt8 × UInt8) :=
  if 0xC2 ≤ b ∧ b ≤ 0xDF then some (1, 0x80, 0xBF)
  else if b = 0xE0 then some (2, 0xA0, 0xBF)
  else if b = 0xED then some (2, 0x80, 0x9F)
  else if 0xE1 ≤ b ∧ b ≤ 0xEF then some (2, 0x80, 0xBF)
  else if b = 0xF0 then some (3, 0x90, 0xBF)
  else if 0xF1 ≤ b ∧ b ≤ 0xF3 then some (3, 0x80, 0xBF)
  else if b = 0xF4 then some (3, 0x80, 0x8F)
  else none

/-- How many of `need` bytes go on with a character, the first of them between `lo` and `hi`. -/
def goesOn : Nat → UInt8 → UInt8 → Bytes → Nat
  | need + 1, lo, hi, b :: bs => if lo ≤ b ∧ b ≤ hi then goesOn need 0x80 0xBF bs + 1 else 0
  | _, _, _, _ => 0

/-- The character that starts with `b`, its bytes after `b` in front of `bs`, and how many they
are. -/
def oneChar (b : UInt8) (bs : Bytes) : Bytes × Nat :=
  if b < 0x80 then ([b], 0)
  else
    match leads b with
    | none => (replacement, 0)
    | some (need, lo, hi) =>
        let n := goesOn need lo hi bs
        (if n = need then b :: bs.take n else replacement, n)

/-- The characters of at most `fuel` bytes. -/
def lossyFrom : Nat → Bytes → Bytes
  | fuel + 1, b :: bs => (oneChar b bs).1 ++ lossyFrom fuel (bs.drop (oneChar b bs).2)
  | _, _ => []

/-- Bytes as text. -/
def fromUtf8Lossy (bs : Bytes) : Bytes := lossyFrom bs.length bs

end FioXfs.Lib
