import Spreadsheet.Text.Utf8

/-! Why files cannot be read or written. -/
namespace Spreadsheet

/-- Why the system refuses to open, read or write a file. -/
inductive FileFault where
  | notFound
  | notADirectory
  | isADirectory
  | denied
  /-- A path or one of its parts has too many bytes. -/
  | nameTooLong
  | noSpace
  /-- Any other reason, by its description and number. -/
  | other (description : String) (number : Nat)
deriving DecidableEq, Repr

def FileFault.message : FileFault → String
  | notFound => "No such file or directory (os error 2)"
  | notADirectory => "Not a directory (os error 20)"
  | isADirectory => "Is a directory (os error 21)"
  | denied => "Permission denied (os error 13)"
  | nameTooLong => "File name too long (os error 36)"
  | noSpace => "No space left on device (os error 28)"
  | other description number => s!"{description} (os error {number})"

/-- Why the content of a file is not at hand. -/
inductive LoadFault where
  | opening (fault : FileFault)
  /-- The file was opened and could not be read. -/
  | reading (fault : FileFault)
deriving DecidableEq, Repr

end Spreadsheet
