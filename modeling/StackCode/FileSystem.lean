/-!
# File systems

What the command line asks of the files around it: how large a file is, what is in it, and to write
one. A file system is anything that answers these questions (`FileSystem`). Nothing is assumed about
the answers: a file that was just written may be one that cannot be read, does not keep what it is
given, or goes by other names too.
-/

namespace StackCode

/-- Why a file cannot be read or written. -/
inductive FileError where
  /-- There is no such file. -/
  | notFound
  /-- The user may not do this. -/
  | permissionDenied
  /-- A part of the path is a file and not a directory. -/
  | notDirectory
  /-- It is a directory. -/
  | isDirectory
  /-- A part of the path, or the whole path, has too many bytes. -/
  | nameTooLong
  /-- For another reason. -/
  | other (reason : String)
  deriving DecidableEq

/-- The message of a file error. -/
def FileError.message : FileError → String
  | .notFound => "No such file or directory (os error 2)"
  | .permissionDenied => "Permission denied (os error 13)"
  | .notDirectory => "Not a directory (os error 20)"
  | .isDirectory => "Is a directory (os error 21)"
  | .nameTooLong => "File name too long (os error 36)"
  | .other reason => reason

/-- States of a file system, with what can be asked of them. -/
class FileSystem (σ : Type) where
  /-- The size that is given for the file at a path. -/
  size : σ → String → Except FileError Nat
  /-- What is read from the file at a path. -/
  read : σ → String → Except FileError (Array UInt8)
  /-- What is there after content is written to a path, and why that has failed if it has. -/
  write : σ → String → Array UInt8 → σ × Option FileError

/-- What a file system says about a file that is to be read. -/
structure Found where
  /-- Its size. -/
  size : Except FileError Nat
  /-- Its content. -/
  content : Except FileError (Array UInt8)

/-- Ask about a file. -/
def FileSystem.find {σ : Type} [FileSystem σ] (s : σ) (path : String) : Found := ⟨size s path, read s path⟩

end StackCode
