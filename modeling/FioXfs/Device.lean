import FioXfs.Lib.Bytes
import FioXfs.Error
set_option autoImplicit false

/-!
# Big-endian fields and the device (`bytes.rs`, `device.rs`)

The device is `MemDevice`, a byte vector of fixed size.  A device the source is
generic over may also fail: `faults` says of each coming write and flush whether
it does, and the device works once the list is used up.  A write that fails
leaves the bytes as they were.
-/

namespace FioXfs

open FioXfs.Lib

/-! ## `bytes.rs` -/

abbrev be16 (b : Bytes) (o : Nat) : Nat := getBe 2 b o
abbrev be32 (b : Bytes) (o : Nat) : Nat := getBe 4 b o
abbrev be64 (b : Bytes) (o : Nat) : Nat := getBe 8 b o
abbrev put16 (b : Bytes) (o v : Nat) : Bytes := putBe 2 b o v
abbrev put32 (b : Bytes) (o v : Nat) : Bytes := putBe 4 b o v
abbrev put64 (b : Bytes) (o v : Nat) : Bytes := putBe 8 b o v

/-! ## `device.rs` -/

/-- A device: its bytes, and which of the writes to come fail. -/
structure Device where
  data : Bytes
  faults : List Bool
  deriving DecidableEq

namespace Device

/-- Total addressable size in bytes. -/
def size (d : Device) : Nat := d.data.length

/-- The error for a range past the end of the device. -/
def pastEnd (what : String) (size offset len : Nat) : Error :=
  .io s!"{what} of {len} bytes at {offset} is past the end of a {size}-byte device"

/-- Read exactly `len` bytes starting at `offset`. -/
def readAt (d : Device) (offset len : Nat) : Result Bytes :=
  if offset + len ≤ d.size then .ok (slice d.data offset len)
  else .error (pastEnd "read" d.size offset len)

/-- Use up one entry of the fault list. -/
def nextFault (d : Device) : Bool × Device :=
  match d.faults with
  | [] => (false, d)
  | f :: fs => (f, { d with faults := fs })

/-- Write all of `buf` starting at `offset`. -/
def writeAt (offset : Nat) (buf : Bytes) : Act Device Unit := fun d =>
  if offset + buf.length ≤ d.size then
    match d.nextFault with
    | (true, d') => .error (.io "the device failed") d'
    | (false, d') => .ok () { d' with data := splice d'.data offset buf }
  else .error (pastEnd "write" d.size offset buf.length) d

/-- Make everything written so far durable. -/
def flush : Act Device Unit := fun d =>
  match d.nextFault with
  | (true, d') => .error (.io "the device failed") d'
  | (false, d') => .ok () d'

/-- Write a list of buffers, in order, stopping at the first that fails. -/
def writeAll : List (Nat × Bytes) → Act Device Unit
  | [] => pure ()
  | (at_, buf) :: ws => do
      writeAt at_ buf
      writeAll ws

/-! ## What a write leaves on the device -/

@[simp] theorem nextFault_data (d : Device) : d.nextFault.2.data = d.data := by
  unfold nextFault
  cases d.faults <;> rfl

theorem writeAt_ok {offset : Nat} {buf : Bytes} {d d' : Device}
    (h : writeAt offset buf d = .ok () d') :
    offset + buf.length ≤ d.size ∧ d'.data = splice d.data offset buf := by
  unfold writeAt at h
  split at h
  · rename_i hle
    split at h
    · simp at h
    · rename_i d1 hf
      have hd : d1.data = d.data := by
        have := nextFault_data d
        rwa [hf] at this
      simp only [EStateM.Result.ok.injEq, true_and] at h
      exact ⟨hle, by rw [← h, ← hd]⟩
  · simp at h

theorem size_writeAt {offset : Nat} {buf : Bytes} {d d' : Device}
    (h : writeAt offset buf d = .ok () d') : d'.size = d.size := by
  obtain ⟨hle, hd⟩ := writeAt_ok h
  unfold size
  rw [hd, length_splice hle]

theorem readAt_eq_ok {d : Device} {offset len : Nat} {b : Bytes} :
    d.readAt offset len = .ok b ↔ offset + len ≤ d.size ∧ b = slice d.data offset len := by
  unfold readAt
  split
  · rename_i h
    simp [h, eq_comm]
  · rename_i h
    simp [h]

theorem length_of_readAt {d : Device} {offset len : Nat} {b : Bytes}
    (h : d.readAt offset len = .ok b) : b.length = len := by
  obtain ⟨hle, rfl⟩ := readAt_eq_ok.mp h
  exact length_slice hle

/-- What was just written reads back. -/
theorem readAt_writeAt_same {offset : Nat} {buf : Bytes} {d d' : Device}
    (h : writeAt offset buf d = .ok () d') : d'.readAt offset buf.length = .ok buf := by
  obtain ⟨hle, hd⟩ := writeAt_ok h
  rw [readAt_eq_ok, size_writeAt h]
  refine ⟨hle, ?_⟩
  rw [hd, slice_splice_same (by unfold size at hle; omega)]

/-- A read that a write does not meet gives what it gave before. -/
theorem readAt_writeAt_disjoint {offset o n : Nat} {buf : Bytes} {d d' : Device}
    (h : writeAt offset buf d = .ok () d') (hd : o + n ≤ offset ∨ offset + buf.length ≤ o) :
    d'.readAt o n = d.readAt o n := by
  obtain ⟨hle, hdata⟩ := writeAt_ok h
  unfold readAt
  rw [size_writeAt h, hdata, slice_splice_disjoint (by unfold size at hle; omega) hd]

/-- A flush changes nothing that is read. -/
theorem readAt_flush {d d' : Device} (h : flush d = .ok () d') (o n : Nat) :
    d'.readAt o n = d.readAt o n := by
  have hdata : d'.data = d.data := by
    have := nextFault_data d
    unfold flush at h
    split at h
    · cases h
    · rename_i d1 hf
      obtain ⟨-, rfl⟩ := EStateM.Result.ok.inj h
      rwa [hf] at this
  unfold readAt size
  rw [hdata]

/-- A read that none of the writes meets gives what it gave before. -/
theorem readAt_writeAll_disjoint {ws : List (Nat × Bytes)} {d d' : Device} {o n : Nat}
    (h : writeAll ws d = .ok () d')
    (hd : ∀ w ∈ ws, o + n ≤ w.1 ∨ w.1 + w.2.length ≤ o) : d'.readAt o n = d.readAt o n := by
  induction ws generalizing d with
  | nil =>
    have : d = d' := by simpa [writeAll] using h
    rw [this]
  | cons w ws ih =>
    obtain ⟨_, d1, h1, h2⟩ := bind_eq_ok.mp h
    rw [ih h2 (fun x hx => hd x (List.mem_cons_of_mem _ hx)),
      readAt_writeAt_disjoint h1 (hd w List.mem_cons_self)]

/-- Writes that do not meet each other all read back. -/
theorem readAt_writeAll {ws : List (Nat × Bytes)} {d d' : Device}
    (h : writeAll ws d = .ok () d')
    (hd : ws.Pairwise fun v w => v.1 + v.2.length ≤ w.1 ∨ w.1 + w.2.length ≤ v.1)
    {w : Nat × Bytes} (hw : w ∈ ws) : d'.readAt w.1 w.2.length = .ok w.2 := by
  induction ws generalizing d with
  | nil => exact absurd hw (List.not_mem_nil)
  | cons v ws ih =>
    obtain ⟨_, d1, h1, h2⟩ := bind_eq_ok.mp h
    rcases List.mem_cons.mp hw with rfl | hw
    · have hdis := (List.pairwise_cons.mp hd).1
      rw [readAt_writeAll_disjoint h2 (fun x hx => hdis x hx), readAt_writeAt_same h1]
    · exact ih h2 hd.of_cons hw

end Device

end FioXfs
