import FioXfs.Lib.Act
set_option autoImplicit false

/-!
# Errors (`error.rs`)

Every way an operation ends other than with a value.  `panic` is not a variant
of the source's enumeration: it stands for the Rust program stopping, at an
`assert!` or `expect`, an index past the end of a slice, or an arithmetic
overflow.  Nothing in the source catches it, so nothing here does.
-/

namespace FioXfs

/-- Anything that can go wrong reading or writing a filesystem. -/
inductive Error where
  /-- The device failed. -/
  | io (what : String)
  /-- The device does not hold an XFS filesystem. -/
  | notXfs (what : String)
  /-- A structure failed its magic number, its checksum or a bounds check. -/
  | corrupt (what : String)
  /-- The filesystem was not cleanly unmounted. -/
  | dirtyLog (head tail : Nat)
  /-- Something this implementation cannot read or write. -/
  | unsupported (what : String)
  /-- No such file or directory. -/
  | notFound (path : String)
  /-- A path component that should have been a directory was not. -/
  | notADirectory (path : String)
  /-- The target is a directory and the operation wanted a file. -/
  | isADirectory (path : String)
  /-- The target is not a symbolic link. -/
  | notASymlink (path : String)
  /-- Symbolic links nested too deeply, or in a loop. -/
  | symlinkLoop (path : String)
  /-- The path was malformed. -/
  | invalidPath (path : String)
  /-- Something is already there. -/
  | exists_ (path : String)
  /-- The directory is not empty. -/
  | notEmpty (path : String)
  /-- No free blocks, or no inodes. -/
  | noSpace (what : String)
  /-- The program stopped. -/
  | panic (what : String)
  deriving DecidableEq, Repr, Inhabited

/-- The source's `Result`. -/
abbrev Result (α : Type) : Type := Except Error α

/-- A method on a mutable object of type `σ`: it leaves the object as far as it
got, also when it fails. -/
abbrev Act (σ α : Type) : Type := EStateM Error σ α

/-- Stop with `e` when `c` holds. -/
abbrev failIf {m : Type → Type} [Monad m] [MonadExceptOf Error m] (c : Prop) [Decidable c]
    (e : Error) : m Unit :=
  Lib.throwIf c e

/-- Whether an error is `NoSpace`. -/
def Error.isNoSpace : Error → Bool
  | .noSpace _ => true
  | _ => false

/-- Whether the program stopped, instead of returning an error. -/
def Error.isPanic : Error → Bool
  | .panic _ => true
  | _ => false

theorem Error.isNoSpace_of_isPanic {e : Error} (h : e.isPanic = true) : e.isNoSpace = false := by
  cases e with
  | panic what => rfl
  | _ => cases h

/-- A number as `{:#x}` prints it. -/
def hex (n : Nat) : String := "0x" ++ String.ofList (Nat.toDigits 16 n)

/-- A number as `{:#o}` prints it. -/
def oct (n : Nat) : String := "0o" ++ String.ofList (Nat.toDigits 8 n)

end FioXfs
