/-! Texts as bytes, in UTF-8. -/
namespace Spreadsheet

abbrev Bytes := List UInt8

namespace Text

def encode (s : String) : Bytes := s.toByteArray.data.toList

/-- The text with the given bytes, if they are well formed. -/
def decode? (bytes : Bytes) : Option String := String.fromUTF8? ⟨bytes.toArray⟩

/-- The offset of the first byte at or after `i` where no character can be read. -/
def firstFault (bytes : ByteArray) (i : Nat) : Nat :=
  match h : bytes.utf8DecodeChar? i with
  | none => i
  | some c =>
    have := ByteArray.le_size_of_utf8DecodeChar?_eq_some h
    have := c.utf8Size_pos
    firstFault bytes (i + c.utf8Size)
termination_by bytes.size - i

/-- The number of bytes before the first that belongs to no character. -/
def validLength (bytes : Bytes) : Nat := firstFault ⟨bytes.toArray⟩ 0

end Text

end Spreadsheet
