/-! Paths as lists of parts between slashes. -/
namespace Spreadsheet

structure Path where
  /-- Whether it starts at the root and not at the working directory. -/
  absolute : Bool
  /-- The parts, none of them empty. -/
  parts : List String
  /-- Whether it ends with a slash, so that only a directory will do. -/
  closed : Bool
deriving DecidableEq, Repr

namespace Path

/-- Reads a path. Slashes in a row count as one. -/
def ofString (s : String) : Path where
  absolute := s.startsWith "/"
  parts := (s.splitOn "/").filter (· ≠ "")
  closed := s.endsWith "/"

def maxBytes : Nat := 4095

/-- The greatest number of bytes in a part. -/
def maxPartBytes : Nat := 255

/-- Whether a path is a single name, whatever slashes and dots follow it. -/
def isName (p : Path) (name : String) : Bool :=
  !p.absolute && p.parts.head? = some name && p.parts.tail.all (· = ".")

end Path

end Spreadsheet
