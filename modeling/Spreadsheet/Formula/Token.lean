import Spreadsheet.Formula.Error

/-! Lexemes, and the tokens of a formula. -/
namespace Spreadsheet

inductive Lexeme.Kind where
  | number
  | reference
  | plus
  | minus
  | star
  | slash
  | leftParen
  | rightParen
deriving DecidableEq, Repr

/-- A shortest meaningful piece of a formula. -/
structure Lexeme where
  kind : Lexeme.Kind
  text : String
deriving DecidableEq, Repr

/-- A lexeme and the byte offset where it starts. -/
structure Token extends Lexeme where
  position : Nat
deriving DecidableEq, Repr

namespace Token

def stop (t : Token) : Nat := t.position + t.text.utf8ByteSize

end Token

namespace Lexeme

def Kind.ofSymbol? : Char → Option Kind
  | '+' => some .plus
  | '-' => some .minus
  | '*' => some .star
  | '/' => some .slash
  | '(' => some .leftParen
  | ')' => some .rightParen
  | _ => none

def readNumber (c : Char) (cs : List Char) : Except (Nat × SyntaxFault) (Lexeme × List Char) :=
  let whole := c :: cs.takeWhile Char.isDigit
  match cs.dropWhile Char.isDigit with
  | '.' :: rest =>
    let fraction := rest.takeWhile Char.isDigit
    if fraction.isEmpty then .error (whole.length, .missingFraction)
    else .ok (⟨.number, String.ofList (whole ++ '.' :: fraction)⟩, rest.dropWhile Char.isDigit)
  | rest => .ok (⟨.number, String.ofList whole⟩, rest)

def readReference (c : Char) (cs : List Char) : Except (Nat × SyntaxFault) (Lexeme × List Char) :=
  let letters := c :: cs.takeWhile Char.isAlpha
  let rest := cs.dropWhile Char.isAlpha
  let digits := rest.takeWhile Char.isDigit
  if digits.isEmpty then .error (letters.length, .missingRow (String.ofList letters))
  else .ok (⟨.reference, String.ofList (letters ++ digits)⟩, rest.dropWhile Char.isDigit)

/-- Reads the longest lexeme at the front of `c :: cs` and answers it with what follows. A fault
comes with its distance in bytes from the front; all characters before it are ASCII. -/
def read (c : Char) (cs : List Char) : Except (Nat × SyntaxFault) (Lexeme × List Char) :=
  match Kind.ofSymbol? c with
  | some kind => .ok (⟨kind, String.ofList [c]⟩, cs)
  | none =>
    if c.isDigit then readNumber c cs
    else if c = '.' then .error (0, .missingWhole)
    else if c.isAlpha then readReference c cs
    else .error (0, .badCharacter c)

theorem length_le_of_readNumber {c : Char} {cs rest : List Char} {x : Lexeme}
    (h : readNumber c cs = .ok (x, rest)) : rest.length ≤ cs.length := by
  have drop (l : List Char) : (l.dropWhile Char.isDigit).length ≤ l.length :=
    (List.dropWhile_sublist _).length_le
  simp only [readNumber] at h
  split at h
  · rename_i r hr
    split at h
    · contradiction
    · cases h
      have hd := drop cs
      simp only [hr, List.length_cons] at hd
      have := drop r
      omega
  · cases h
    exact drop cs

theorem length_le_of_readReference {c : Char} {cs rest : List Char} {x : Lexeme}
    (h : readReference c cs = .ok (x, rest)) : rest.length ≤ cs.length := by
  simp only [readReference] at h
  split at h
  · contradiction
  · cases h
    exact ((List.dropWhile_sublist _).trans (List.dropWhile_sublist _)).length_le

theorem length_le_of_read {c : Char} {cs rest : List Char} {x : Lexeme}
    (h : read c cs = .ok (x, rest)) : rest.length ≤ cs.length := by
  simp only [read] at h
  split at h
  · cases h
    exact Nat.le_refl _
  · split at h
    · exact length_le_of_readNumber h
    · split at h
      · contradiction
      · split at h
        · exact length_le_of_readReference h
        · contradiction

end Lexeme

namespace Token

/-- The tokens of a text whose first character has the byte offset `position`. -/
def scan (position : Nat) : List Char → Except FormulaError (List Token)
  | [] => .ok []
  | c :: cs =>
    if Text.isBlank c then scan (position + c.utf8Size) cs
    else
      match h : Lexeme.read c cs with
      | .error (distance, fault) => .error (.malformed (position + distance) fault)
      | .ok (x, rest) =>
        have := Lexeme.length_le_of_read h
        match scan (position + x.text.utf8ByteSize) rest with
        | .error e => .error e
        | .ok tokens => .ok ({ x with position } :: tokens)
termination_by cs => cs.length

theorem scan_of_error {position distance : Nat} {c : Char} {cs : List Char} {fault : SyntaxFault}
    (hc : ¬ Text.isBlank c = true) (h : Lexeme.read c cs = .error (distance, fault)) :
    scan position (c :: cs) = .error (.malformed (position + distance) fault) := by
  rw [scan, if_neg hc]
  split
  · rename_i hr
    rw [h] at hr
    cases hr
    rfl
  · rename_i hr
    rw [h] at hr
    cases hr

theorem scan_of_ok {position : Nat} {c : Char} {cs rest : List Char} {x : Lexeme}
    (hc : ¬ Text.isBlank c = true) (h : Lexeme.read c cs = .ok (x, rest)) :
    scan position (c :: cs) =
      (scan (position + x.text.utf8ByteSize) rest).map ({ x with position } :: ·) := by
  rw [scan, if_neg hc]
  split
  · rename_i hr
    rw [h] at hr
    cases hr
  · rename_i hr
    rw [h] at hr
    cases hr
    split <;> rename_i hs <;> rw [hs] <;> rfl

end Token

/-- The tokens of a formula; blanks between them are skipped. -/
def tokenize (s : String) : Except FormulaError (List Token) := Token.scan 0 s.toList

end Spreadsheet
