import StackCode.FileSystem
import StackCode.Text.Blank

/-!
# Disks

A file system as a value: a tree of directories with the null device and a working
directory. Looking up a path fails as the operating system has it fail. Each file has one
name, and everyone may read and write it.

A place is the list of names on the way from the root. A path leads from a place to a
place, part by part; every part is looked up in a directory, and the last part of a path
that is written need not be there.
-/

namespace StackCode

/-- Something at a place. -/
inductive Node where
  /-- A directory. -/
  | directory
  /-- A file with its content. -/
  | file (content : Array UInt8)
  /-- The null device: a file that is empty whatever is written to it. -/
  | null
  deriving DecidableEq

/-! ### Paths -/

/-- A path. -/
structure Path where
  /-- Whether it begins at the root and not at the working directory. -/
  absolute : Bool
  /-- Its parts, outermost first. -/
  parts : List String
  /-- Whether a slash ends it, so that only a directory can be meant. -/
  slash : Bool

namespace Path

/-- The greatest number of bytes in a part of a path. -/
def maxPartSize : Nat := 255

/-- The greatest number of bytes in a path. -/
def maxSize : Nat := 4095

/-- The path that a text spells. Slashes divide the parts, and more than one of them count
as one. -/
def ofString (s : String) : Path :=
  let pieces := (Text.splitWhere (· == '/') s.toList).filter fun piece => !piece.isEmpty
  ⟨s.toList.head? = some '/', pieces.map String.ofList, s.toList.getLast? = some '/'⟩

/-- Read a path, which must not be empty or too long. -/
def read (s : String) : Except FileError Path :=
  if s.isEmpty then .error .notFound
  else if maxSize < s.utf8ByteSize then .error .nameTooLong
  else .ok (ofString s)

end Path

/-! ### The tree -/

/-- A tree of files. The root is always there and is a directory. -/
structure Disk where
  /-- The place of the working directory. -/
  here : List String
  /-- What else there is, the latest first, each with its place. -/
  nodes : List (List String × Node)
  deriving DecidableEq

namespace Disk

/-- A disk with an empty working directory. The working directory itself has no
name, so that no path leads down into it. -/
def fresh : Disk where
  here := ["tmp", ""]
  nodes :=
    [(["tmp", ""], .directory), (["tmp"], .directory), (["dev", "null"], .null),
      (["dev"], .directory), (["etc"], .directory), (["usr"], .directory)]

/-- What is at a place. -/
def node? (d : Disk) (place : List String) : Option Node :=
  if place.isEmpty then some .directory else d.nodes.lookup place

/-- Put something at a place. -/
def put (d : Disk) (place : List String) (node : Node) : Disk :=
  { d with nodes := (place, node) :: d.nodes }

/-- The place that a part of a path leads to. It is looked up in a directory; above the
root is the root. -/
def enter (d : Disk) (place : List String) (part : String) : Except FileError (List String) :=
  match d.node? place with
  | none => .error .notFound
  | some (.file _) => .error .notDirectory
  | some .null => .error .notDirectory
  | some .directory =>
    if part = "." then .ok place
    else if part = ".." then .ok place.dropLast
    else if Path.maxPartSize < part.utf8ByteSize then .error .nameTooLong
    else .ok (place ++ [part])

/-- Follow the parts of a path from a place. -/
def walk (d : Disk) (place : List String) : List String → Except FileError (List String)
  | [] => .ok place
  | part :: parts => do d.walk (← d.enter place part) parts

/-- Where a path begins. -/
def origin (d : Disk) (path : Path) : List String := if path.absolute then [] else d.here

/-- What is at a path. A slash at its end means a directory. -/
def lookUp (d : Disk) (path : String) : Except FileError Node := do
  let path ← Path.read path
  let place ← d.walk (d.origin path) path.parts
  match d.node? place with
  | none => throw .notFound
  | some .directory => return .directory
  | some node => if path.slash then throw .notDirectory else return node

/-- The size that is given for a directory. -/
def directorySize : Nat := 4096

/-- The size of what is at a path. -/
def size (d : Disk) (path : String) : Except FileError Nat := do
  match ← d.lookUp path with
  | .directory => return directorySize
  | .file content => return content.size
  | .null => return 0

/-- The content of the file at a path. -/
def read (d : Disk) (path : String) : Except FileError (Array UInt8) := do
  match ← d.lookUp path with
  | .directory => throw .isDirectory
  | .file content => return content
  | .null => return #[]

/-- Write a file at a path. The directory has to be there; a file that is there is
replaced. A slash at the end means the directory itself. -/
def write (d : Disk) (path : String) (content : Array UInt8) : Except FileError Disk := do
  let path ← Path.read path
  let folder ← d.walk (d.origin path) path.parts.dropLast
  let place ← d.enter folder (if path.slash then "." else path.parts.getLast?.getD ".")
  match d.node? place with
  | some .directory => throw .isDirectory
  | some .null => return d
  | _ => return d.put place (.file content)

/-- Make a directory and those around it. -/
def makeDirectories (d : Disk) (place : List String) : Disk :=
  (List.range place.length).foldl
    (fun d n =>
      let outer := place.take (n + 1)
      if (d.node? outer).isSome then d else d.put outer .directory)
    d

end Disk

instance : FileSystem Disk where
  size := Disk.size
  read := Disk.read
  write d path content :=
    match d.write path content with
    | .ok d => (d, none)
    | .error e => (d, some e)

end StackCode
