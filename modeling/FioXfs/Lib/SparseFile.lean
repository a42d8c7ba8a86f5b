import FioXfs.Lib.Bytes
set_option autoImplicit false

/-!
# A file written front to back

An open file is its bytes and a position.  Seeking only moves the position; writing past the end
fills what lies between with zeroes; setting the length cuts the file or fills it up.  A file
written front to back stands for more bytes than it has: the zeroes up to its position come with
the next write, or with its final length.
-/

namespace FioXfs.Lib

/-- An open file. -/
structure OpenFile where
  bytes : Bytes
  pos : Nat

namespace OpenFile

/-- What is asked of a file. -/
inductive Call where
  | seek (n : Nat)
  | write (d : Bytes)
  deriving DecidableEq

/-- A file just created. -/
def new : OpenFile := ⟨[], 0⟩

/-- Move the position up. -/
def seekBy (f : OpenFile) (n : Nat) : OpenFile := { f with pos := f.pos + n }

/-- Write at the position; nothing is no write. -/
def writeAll (f : OpenFile) (d : Bytes) : OpenFile :=
  if d = [] then f
  else
    let padded := f.bytes ++ List.replicate (f.pos - f.bytes.length) 0
    ⟨splice padded f.pos d, f.pos + d.length⟩

/-- Cut the file to `n` bytes, or fill it up with zeroes. -/
def setLen (f : OpenFile) (n : Nat) : OpenFile :=
  { f with bytes := f.bytes.take n ++ List.replicate (n - f.bytes.length) 0 }

/-- One call. -/
def perform (f : OpenFile) : Call → OpenFile
  | .seek n => f.seekBy n
  | .write d => f.writeAll d

/-- The bytes a call stands for in a file written front to back. -/
def Call.bytes : Call → Bytes
  | .seek n => List.replicate n 0
  | .write d => d

/-- The file stands for `d`: its bytes and zeroes up to its position. -/
structure StandsFor (f : OpenFile) (d : Bytes) : Prop where
  pos_eq : f.pos = d.length
  length_le : f.bytes.length ≤ d.length
  padded : f.bytes ++ List.replicate (d.length - f.bytes.length) 0 = d

section
variable {f : OpenFile} {d : Bytes}

theorem standsFor_new : new.StandsFor [] := ⟨rfl, Nat.le_refl _, rfl⟩

theorem StandsFor.seekBy (h : f.StandsFor d) (n : Nat) :
    (f.seekBy n).StandsFor (d ++ List.replicate n 0) where
  pos_eq := by rw [OpenFile.seekBy, h.pos_eq, List.length_append, List.length_replicate]
  length_le := by
    rw [List.length_append]
    exact h.length_le.trans (Nat.le_add_right _ _)
  padded := by
    have hlen : (d ++ List.replicate n (0 : UInt8)).length - f.bytes.length =
        (d.length - f.bytes.length) + n := by
      have hle := h.length_le
      rw [List.length_append, List.length_replicate]
      omega
    conv_rhs => rw [← h.padded]
    rw [OpenFile.seekBy, hlen, ← List.replicate_append_replicate, List.append_assoc]

theorem StandsFor.writeAll (h : f.StandsFor d) (e : Bytes) : (f.writeAll e).StandsFor (d ++ e) := by
  unfold OpenFile.writeAll
  split
  · rename_i he
    rw [he, List.append_nil]
    exact h
  · have hbytes : splice (f.bytes ++ List.replicate (f.pos - f.bytes.length) 0) f.pos e = d ++ e := by
      rw [h.pos_eq, h.padded, splice, List.take_length, List.drop_eq_nil_of_le (by omega),
        List.append_nil]
    refine ⟨?_, ?_, ?_⟩
    · simp only [h.pos_eq, List.length_append]
    · exact (congrArg List.length hbytes).le
    · simp only [hbytes, Nat.sub_self, List.replicate_zero, List.append_nil]

/-- A call adds the bytes it stands for. -/
theorem StandsFor.perform (h : f.StandsFor d) (c : Call) :
    (f.perform c).StandsFor (d ++ c.bytes) := by
  cases c with
  | seek n => exact h.seekBy n
  | write e => exact h.writeAll e

/-- A run of calls adds what they stand for, in order. -/
theorem StandsFor.foldl_perform (h : f.StandsFor d) (cs : List Call) :
    (cs.foldl OpenFile.perform f).StandsFor (d ++ cs.flatMap Call.bytes) := by
  induction cs generalizing f d with
  | nil => simpa using h
  | cons c cs ih =>
    rw [List.foldl_cons, List.flatMap_cons, ← List.append_assoc]
    exact ih (h.perform c)

/-- With its length set, the file is what it stood for. -/
theorem StandsFor.setLen_bytes (h : f.StandsFor d) : (f.setLen d.length).bytes = d := by
  rw [setLen, List.take_of_length_le h.length_le, h.padded]

end

end OpenFile

end FioXfs.Lib
