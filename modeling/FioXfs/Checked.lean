import FioXfs.Device
import FioXfs.Lib.Ensures
set_option autoImplicit false

/-!
# Checked steps

Indexes and differences as Rust checks them: past the end of a slice, or below zero, the program
stops.  A parser written with these steps stops where the source would, which the one written
without them does not show.
-/

namespace FioXfs

open FioXfs.Lib

/-- What an index past the end of a slice stops with. -/
def PastEnd : Error := .panic "index out of bounds"

/-- What a difference below zero stops with. -/
def Underflow : Error := .panic "attempt to subtract with overflow"

/-- What a loop that goes on for too long stops with. -/
def Endless : Error := .panic "out of fuel"

/-- The error of a program that stopped. -/
def Stopped (e : Error) : Prop := ∃ why, e = .panic why

/-- The big-endian number in the `w` bytes at index `o`. -/
def readBe (w : Nat) (buf : Bytes) (o : Nat) : Result Nat := do
  failIf (buf.length < o + w) PastEnd
  return getBe w buf o

/-- The `n` bytes from index `o` on. -/
def readPart (buf : Bytes) (o n : Nat) : Result Bytes := do
  failIf (buf.length < o + n) PastEnd
  return slice buf o n

/-- The bytes from index `o` on. -/
def readFrom (buf : Bytes) (o : Nat) : Result Bytes := do
  failIf (buf.length < o) PastEnd
  return buf.drop o

/-- The bytes from index `o` to index `stop`. -/
def readUpTo (buf : Bytes) (o stop : Nat) : Result Bytes := do
  failIf (stop < o ∨ buf.length < stop) PastEnd
  return slice buf o (stop - o)

/-- `a - b`. -/
def sub (a b : Nat) : Result Nat := do
  failIf (a < b) Underflow
  return a - b

/-- Reading with every step checked gives what it gives without, and does not stop. -/
def InBounds {α : Type} (checked plain : Result α) : Prop :=
  checked = plain ∧ ∀ why, checked ≠ .error (.panic why)

variable {buf : Bytes} {w o n stop a b : Nat}

theorem readBe_ok (h : o + w ≤ buf.length) : readBe w buf o = .ok (getBe w buf o) := by
  unfold readBe
  rw [except_throwIf_bind_of_not (by omega)]
  rfl

theorem readBe_past (h : buf.length < o + w) : readBe w buf o = .error PastEnd := by
  unfold readBe
  rw [except_throwIf_bind_of h]

theorem readPart_ok (h : o + n ≤ buf.length) : readPart buf o n = .ok (slice buf o n) := by
  unfold readPart
  rw [except_throwIf_bind_of_not (by omega)]
  rfl

theorem readFrom_ok (h : o ≤ buf.length) : readFrom buf o = .ok (buf.drop o) := by
  unfold readFrom
  rw [except_throwIf_bind_of_not (by omega)]
  rfl

theorem readUpTo_ok (ho : o ≤ stop) (h : stop ≤ buf.length) :
    readUpTo buf o stop = .ok (slice buf o (stop - o)) := by
  unfold readUpTo
  rw [except_throwIf_bind_of_not (by omega)]
  rfl

theorem sub_ok (h : b ≤ a) : sub a b = .ok (a - b) := by
  unfold sub
  rw [except_throwIf_bind_of_not (by omega)]
  rfl

@[simp] theorem not_stopped_corrupt (why : String) : ¬Stopped (.corrupt why) := by
  rintro ⟨_, h⟩
  cases h

@[simp] theorem not_stopped_io (why : String) : ¬Stopped (.io why) := by
  rintro ⟨_, h⟩
  cases h

theorem ensures_readAt (dev : Device) (offset len : Nat) :
    Ensures Stopped (dev.readAt offset len) fun buf => buf.length = len := by
  refine ⟨fun e he => ?_, fun buf => Device.length_of_readAt⟩
  unfold Device.readAt at he
  split at he <;> cases he
  exact not_stopped_io _

theorem inBounds_of_eq {α : Type} {checked plain : Result α} {Q : α → Prop}
    (heq : checked = plain) (h : Ensures Stopped plain Q) : InBounds checked plain :=
  ⟨heq, fun why hstop => h.1 _ (heq ▸ hstop) ⟨why, rfl⟩⟩

end FioXfs
