import Spreadsheet.Files.Fault
import Spreadsheet.Files.Path

/-!
Files and standard streams that are held in memory.

Nothing is known about the directories above the working directory except that they exist, and
about the root only what every system has.
-/
namespace Spreadsheet

/-- Where a chain of names starts. -/
inductive Origin where
  | root
  /-- So many directories above the working directory. -/
  | above (levels : Nat)
deriving DecidableEq, Repr

/-- What a path leads to, whether it exists or not. -/
structure Place where
  origin : Origin
  names : List String
deriving DecidableEq, Repr

namespace Place

def working : Place := ⟨.above 0, []⟩

def root : Place := ⟨.root, []⟩

/-- The directory that a place is in; the root is in itself. -/
def parent : Place → Place
  | ⟨origin, name :: names⟩ => ⟨origin, (name :: names).dropLast⟩
  | ⟨.above levels, []⟩ => ⟨.above (levels + 1), []⟩
  | ⟨.root, []⟩ => root

def child (p : Place) (name : String) : Place := { p with names := p.names ++ [name] }

/-- Whether a place is another or a directory that leads down to it. -/
def leadsTo (p q : Place) : Bool := p.origin = q.origin && p.names.isPrefixOf q.names

end Place

/-- A file that stores nothing. -/
inductive Device where
  /-- Nothing is read, and what is written is lost. -/
  | null
  | full
  | standardInput
  | standardOutput
  | standardError
deriving DecidableEq, Repr

def Device.ofName? : String → Option Device
  | "null" => some null
  | "full" => some full
  | "stdin" => some standardInput
  | "stdout" => some standardOutput
  | "stderr" => some standardError
  | _ => none

/-- What is found at a place. -/
inductive Entry where
  | file (bytes : Bytes)
  | directory
  | device (d : Device)
deriving DecidableEq, Repr

namespace Entry

/-- The directories in every root. -/
def standardDirectories : List String :=
  ["bin", "boot", "dev", "etc", "home", "lib", "media", "mnt", "opt", "proc", "root", "run", "sbin",
   "srv", "sys", "tmp", "usr", "var"]

/-- What every system has at a place. -/
def standard? : Place → Option Entry
  | ⟨.root, [name]⟩ => if standardDirectories.contains name then some directory else none
  | ⟨.root, ["dev", name]⟩ => (Device.ofName? name).map device
  | _ => none

end Entry

/-- Files and standard streams. A directory exists when a file is below it. -/
structure Host where
  files : List (Place × Bytes)
  input : Bytes := []
  output : Bytes := []
deriving DecidableEq, Repr

namespace Host

/-- The host with the given files below the working directory. -/
def ofFiles (files : List (String × Bytes)) (input : Bytes) : Host where
  files := files.map fun (name, bytes) => (⟨.above 0, (Path.ofString name).parts⟩, bytes)
  input

def print (h : Host) (bytes : Bytes) : Host := { h with output := h.output ++ bytes }

/-- What is found at a place. -/
def find? (h : Host) (place : Place) : Option Entry :=
  match h.files.lookup place with
  | some bytes => some (.file bytes)
  | none =>
    if place.names.isEmpty || h.files.any fun (other, _) => place.leadsTo other then some .directory
    else Entry.standard? place

/-- Follows one part of a path from a place, which has to be a directory. -/
def enter (h : Host) (here : Place) (part : String) : Except FileFault Place :=
  match h.find? here with
  | none => .error .notFound
  | some .directory =>
    if part = "." then .ok here
    else if part = ".." then .ok here.parent
    else if Path.maxPartBytes < part.utf8ByteSize then .error .nameTooLong
    else .ok (here.child part)
  | some _ => .error .notADirectory

def follow (h : Host) (absolute : Bool) (parts : List String) : Except FileFault Place :=
  parts.foldlM h.enter (if absolute then Place.root else Place.working)

/-- The place that a path leads to when a file is to be read. A slash at the end asks for a
directory, as a dot after it does. -/
def sourceOf (h : Host) (path : String) : Except FileFault Place :=
  let p := Path.ofString path
  if Path.maxBytes < path.utf8ByteSize then .error .nameTooLong
  else h.follow p.absolute (if p.closed then p.parts ++ ["."] else p.parts)

def load (h : Host) (path : String) : Except LoadFault Bytes :=
  match h.sourceOf path with
  | .error fault => .error (.opening fault)
  | .ok place =>
    match h.find? place with
    | none => .error (.opening .notFound)
    | some .directory => .error (.reading .isADirectory)
    | some (.file bytes) => .ok bytes
    | some (.device .standardInput) => .ok h.input
    | some (.device _) => .ok []

/-- The place that a path leads to when a file is to be written. With a slash at the end it can be
no file, and this shows as soon as the directory is found that the last part is in. -/
def targetOf (h : Host) (path : String) : Except FileFault Place :=
  let p := Path.ofString path
  if Path.maxBytes < path.utf8ByteSize then .error .nameTooLong
  else if p.closed then do
    let _ ← h.follow p.absolute (p.parts.dropLast ++ ["."])
    throw .isADirectory
  else h.follow p.absolute p.parts

def save (h : Host) (path : String) (bytes : Bytes) : Except FileFault Host := do
  let place ← h.targetOf path
  match h.find? place with
  | some .directory => throw .isADirectory
  | some (.device .standardOutput) => return h.print bytes
  | some (.device .full) => if bytes.isEmpty then return h else throw .noSpace
  | some (.device _) => return h
  | _ => return { h with files := (place, bytes) :: h.files.filter (·.1 ≠ place) }

end Host

end Spreadsheet
