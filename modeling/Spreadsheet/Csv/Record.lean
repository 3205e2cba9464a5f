import Spreadsheet.Text.Utf8

/-!
Separated values as bytes. A record ends at a carriage return, a line feed or the end of the
bytes; empty lines between records are skipped. A field that starts with the quote runs to the
next quote that is not doubled, and what follows up to the delimiter is part of it.
-/
namespace Spreadsheet.Csv

/-- The two bytes that a dialect gives a meaning. -/
structure Dialect where
  delimiter : UInt8 := 44
  quote : UInt8 := 34
deriving DecidableEq, Repr

def carriageReturn : UInt8 := 13

def lineFeed : UInt8 := 10

def endsRecord (b : UInt8) : Bool := b = carriageReturn || b = lineFeed

/-- How far the bytes have been read. -/
structure Position where
  /-- The records before. -/
  record : Nat
  /-- The line, counted from one. -/
  line : Nat
  /-- The bytes before. -/
  byte : Nat
deriving DecidableEq, Repr

/-- The fields of a record, and the position where the search for it began. -/
structure Record where
  start : Position
  fields : List Bytes
deriving DecidableEq, Repr

namespace Scanner

/-- Where in a record the next byte stands. -/
inductive Place where
  | between
  | fieldStart
  /-- In a field, outside quotes. -/
  | plain
  | quoted
  /-- After a quote inside quotes. -/
  | quoteSeen
deriving DecidableEq, Repr

end Scanner

/-- What has been read. Lists that grow at their end are kept in reverse. -/
structure Scanner where
  place : Scanner.Place
  field : Bytes
  fields : List Bytes
  records : List Record
  /-- Where the search for the current record began. -/
  start : Position
  /-- Where the next byte stands. -/
  here : Position

namespace Scanner

def advance (s : Scanner) (b : UInt8) : Scanner :=
  { s with here :=
    { s.here with
      line := if b = lineFeed then s.here.line + 1 else s.here.line
      byte := s.here.byte + 1 } }

def copy (s : Scanner) (b : UInt8) (place : Place) : Scanner :=
  { s with place, field := b :: s.field }

def endField (s : Scanner) : Scanner :=
  { s with place := .fieldStart, field := [], fields := s.field.reverse :: s.fields }

def endRecord (s : Scanner) : Scanner :=
  let next := { s.here with record := s.here.record + 1 }
  { place := .between
    field := []
    fields := []
    records := ⟨s.start, (s.field.reverse :: s.fields).reverse⟩ :: s.records
    start := next
    here := next }

def plainStep (d : Dialect) (s : Scanner) (b : UInt8) : Scanner :=
  if b = d.delimiter then s.endField
  else if endsRecord b then s.endRecord
  else s.copy b .plain

def fieldStep (d : Dialect) (s : Scanner) (b : UInt8) : Scanner :=
  if b = d.quote then { s with place := .quoted } else s.plainStep d b

def step (d : Dialect) (s : Scanner) (b : UInt8) : Scanner :=
  let s := s.advance b
  match s.place with
  | .between => if endsRecord b then s else s.fieldStep d b
  | .fieldStart => s.fieldStep d b
  | .plain => s.plainStep d b
  | .quoted => if b = d.quote then { s with place := .quoteSeen } else s.copy b .quoted
  | .quoteSeen => if b = d.quote then s.copy b .quoted else s.plainStep d b

/-- The records, once all bytes are read. -/
def finish (s : Scanner) : List Record :=
  match s.place with
  | .between => s.records.reverse
  | _ => s.endRecord.records.reverse

end Scanner

/-- The mark that may stand in front of UTF-8 text. -/
def byteOrderMark : Bytes := [0xEF, 0xBB, 0xBF]

/-- The records of separated values. A byte order mark in front counts as bytes and belongs to no
record. -/
def records (d : Dialect) (bytes : Bytes) : List Record :=
  let skipped := if byteOrderMark.isPrefixOf bytes then byteOrderMark.length else 0
  let start : Scanner :=
    { place := .between
      field := []
      fields := []
      records := []
      start := ⟨0, 1, 0⟩
      here := ⟨0, 1, skipped⟩ }
  ((bytes.drop skipped).foldl (Scanner.step d) start).finish

end Spreadsheet.Csv
