import Spreadsheet.Proofs.Formula.Scan

/-!
The tokens of a text are the lexemes of its tiling: the one way to cut the text into blanks and
lexemes that what follows does not make longer. A text without a tiling has no tokens.
-/
namespace Spreadsheet

variable {c : Char} {cs rest : List Char} {x : Lexeme}

/-- A piece that a text can be cut into. -/
inductive Piece where
  | blank (c : Char)
  | lexeme (x : Lexeme)

namespace Lexeme

section Read

theorem append_of_readNumber (h : readNumber c cs = .ok (x, rest)) :
    x.text.toList ++ rest = c :: cs := by
  have hcs := List.takeWhile_append_dropWhile (p := Char.isDigit) (l := cs)
  unfold readNumber at h
  dsimp only at h
  split at h
  · rename_i tail htail
    split at h
    · cases h
    · cases h
      have hfraction := List.takeWhile_append_dropWhile (p := Char.isDigit) (l := tail)
      rw [htail] at hcs
      simp only [String.toList_ofList, List.cons_append, List.append_assoc, hfraction, hcs]
  · cases h
    simp only [String.toList_ofList, List.cons_append, hcs]

theorem append_of_readReference (h : readReference c cs = .ok (x, rest)) :
    x.text.toList ++ rest = c :: cs := by
  unfold readReference at h
  dsimp only at h
  split at h
  · cases h
  · cases h
    simp only [String.toList_ofList, List.cons_append, List.append_assoc,
      List.takeWhile_append_dropWhile]

/-- A lexeme and what is left after it are the text. -/
theorem append_of_read (h : Lexeme.read c cs = .ok (x, rest)) : x.text.toList ++ rest = c :: cs := by
  unfold Lexeme.read at h
  split at h
  · cases h
    simp only [String.toList_ofList, List.singleton_append]
  · split at h
    · exact append_of_readNumber h
    · split at h
      · cases h
      · split at h
        · exact append_of_readReference h
        · cases h

theorem maximal_of_readNumber (h : readNumber c cs = .ok (x, rest)) : x.Maximal rest := by
  unfold readNumber at h
  dsimp only at h
  split at h
  · rename_i tail _
    split at h
    · cases h
    · cases h
      constructor
      · intro _
        exact Text.stops_dropWhile _ _
      · intro _ hpoint
        simp at hpoint
  · rename_i hpoint
    cases h
    constructor
    · intro _
      exact Text.stops_dropWhile _ _
    · intro _ _ hhead
      obtain ⟨tail, htail⟩ := List.head?_eq_some_iff.1 hhead
      exact hpoint tail htail

theorem maximal_of_readReference (h : readReference c cs = .ok (x, rest)) : x.Maximal rest := by
  unfold readReference at h
  dsimp only at h
  split at h
  · cases h
  · cases h
    constructor
    · intro _
      exact Text.stops_dropWhile _ _
    · intro hk
      cases hk

theorem maximal_of_read (h : Lexeme.read c cs = .ok (x, rest)) : x.Maximal rest := by
  unfold Lexeme.read at h
  split at h
  · rename_i hk
    cases h
    obtain ⟨-, -, -, hnumber, hreference⟩ := ofSymbol?_cases hk
    constructor
    · intro hkind
      exact (hkind.elim hnumber hreference).elim
    · intro hkind
      exact absurd hkind hnumber
  · split at h
    · exact maximal_of_readNumber h
    · split at h
      · cases h
      · split at h
        · exact maximal_of_readReference h
        · cases h

end Read

end Lexeme

/-- Whether pieces cut a text: they are blanks and lexemes that follow each other without a gap, and no
lexeme is made longer by what follows. -/
inductive Tiles : List Piece → List Char → Prop where
  | nil : Tiles [] []
  | blank {c : Char} {ps : List Piece} {cs : List Char} (hc : Text.isBlank c = true)
      (h : Tiles ps cs) : Tiles (.blank c :: ps) (c :: cs)
  | lexeme {x : Lexeme} {ps : List Piece} {cs : List Char} (hx : x.WellFormed)
      (hmax : x.Maximal cs) (h : Tiles ps cs) : Tiles (.lexeme x :: ps) (x.text.toList ++ cs)

namespace Tiles

variable {ps ps' : List Piece}

theorem eq_nil (h : Tiles ps []) : ps = [] := by
  generalize hcs : ([] : List Char) = cs at h
  cases h with
  | nil => rfl
  | blank => cases hcs
  | lexeme hx hmax =>
    obtain ⟨c, l, htext, -⟩ := hx.read_of_maximal hmax
    rw [htext] at hcs
    cases hcs

/-- The first piece is the first character if that is blank, and what the scanner reads if not. -/
theorem cons_cases (h : Tiles ps (c :: cs)) :
    (Text.isBlank c = true ∧ ∃ qs, ps = .blank c :: qs ∧ Tiles qs cs) ∨
      (Text.isBlank c = false ∧ ∃ x rest qs,
        Lexeme.read c cs = .ok (x, rest) ∧ ps = .lexeme x :: qs ∧ Tiles qs rest) := by
  generalize hcs : c :: cs = cs' at h
  cases h with
  | nil => cases hcs
  | blank hc h =>
    cases hcs
    exact .inl ⟨hc, _, rfl, h⟩
  | lexeme hx hmax h =>
    obtain ⟨d, l, htext, hd, -, hread⟩ := hx.read_of_maximal hmax
    rw [htext, List.cons_append] at hcs
    obtain ⟨rfl, rfl⟩ := List.cons.inj hcs
    exact .inr ⟨hd, _, _, _, hread, rfl, h⟩

/-- No text has two tilings. -/
theorem unique (h : Tiles ps cs) (h' : Tiles ps' cs) : ps = ps' := by
  induction h generalizing ps' with
  | nil => exact h'.eq_nil.symm
  | blank hc _ ih =>
    rcases h'.cons_cases with ⟨-, qs, rfl, hqs⟩ | ⟨hc', -⟩
    · rw [ih hqs]
    · rw [hc] at hc'
      cases hc'
  | lexeme hx hmax _ ih =>
    obtain ⟨c, l, htext, hc, -, hread⟩ := hx.read_of_maximal hmax
    rw [htext, List.cons_append] at h'
    rcases h'.cons_cases with ⟨hc', -⟩ | ⟨-, y, rest, qs, hread', rfl, hqs⟩
    · rw [hc] at hc'
      cases hc'
    · rw [hread] at hread'
      cases hread'
      rw [ih hqs]

end Tiles

/-- The lexemes among pieces, with the byte offsets where they start. -/
def Piece.tokens (position : Nat) : List Piece → List Token
  | [] => []
  | .blank c :: ps => tokens (position + c.utf8Size) ps
  | .lexeme x :: ps => { x with position } :: tokens (position + x.text.utf8ByteSize) ps

namespace Tiles

variable {ps : List Piece}

/-- The lexemes of a tiling are what is scanned. -/
theorem scan_eq (h : Tiles ps cs) (position : Nat) :
    Token.scan position cs = .ok (Piece.tokens position ps) := by
  induction h generalizing position with
  | nil => rw [Token.scan, Piece.tokens]
  | blank hc _ ih => rw [Token.scan, if_pos hc, ih, Piece.tokens]
  | lexeme hx hmax _ ih =>
    obtain ⟨c, l, htext, hc, -, hread⟩ := hx.read_of_maximal hmax
    rw [htext, List.cons_append, Token.scan_of_ok (by simp [hc]) hread, ih, Piece.tokens]
    rfl

theorem isBlank_of_tokens {position : Nat} (h : Tiles ps cs)
    (hp : Piece.tokens position ps = []) :
    ∀ c ∈ cs, Text.isBlank c = true := by
  induction h generalizing position with
  | nil => simp
  | blank hc _ ih =>
    intro d hd
    rcases List.mem_cons.1 hd with rfl | hd
    · exact hc
    · exact ih hp d hd
  | lexeme => cases hp

end Tiles

/-- A text that is scanned has a tiling. -/
theorem Token.exists_tiles_of_scan {position : Nat} {ts : List Token}
    (h : scan position cs = .ok ts) : ∃ ps, Tiles ps cs := by
  induction position, cs using scan.induct generalizing ts with
  | case1 position => exact ⟨[], .nil⟩
  | case2 position c cs hc ih =>
    rw [scan, if_pos hc] at h
    obtain ⟨ps, hps⟩ := ih h
    exact ⟨_, .blank hc hps⟩
  | case3 position c cs hc distance fault hr =>
    rw [scan_of_error hc hr] at h
    cases h
  | case4 position c cs hc x rest hr hlen e hs ih =>
    rw [scan_of_ok hc hr, hs] at h
    cases h
  | case5 position c cs hc x rest hr hlen tokens hs ih =>
    obtain ⟨ps, hps⟩ := ih hs
    rw [← Lexeme.append_of_read hr]
    exact ⟨_, .lexeme (Lexeme.wellFormed_of_read hr) (Lexeme.maximal_of_read hr) hps⟩

/-- The number of bytes that characters take. -/
def Text.width (cs : List Char) : Nat := (String.ofList cs).utf8ByteSize

/-- Whether tokens lie in order in a text whose first character has the byte offset `position`, each
where it is written, with nothing but blanks outside. -/
structure Token.LieIn (position : Nat) (cs : List Char) (ts : List Token) : Prop where
  increasing : ts.Pairwise fun t u => t.position < u.position
  slice : ∀ t ∈ ts, t.toLexeme.WellFormed ∧ ∃ before after,
    cs = before ++ t.text.toList ++ after ∧ t.position = position + Text.width before
  outside : ∀ before c after, cs = before ++ c :: after →
    (∀ t ∈ ts, ¬ (t.position ≤ position + Text.width before ∧
      position + Text.width before < t.stop)) → Text.isBlank c = true

namespace Text

theorem width_nil : width [] = 0 := rfl

theorem width_append (l m : List Char) : width (l ++ m) = width l + width m := by
  rw [width, String.ofList_append, String.utf8ByteSize_append]
  rfl

theorem width_cons (c : Char) (l : List Char) : width (c :: l) = c.utf8Size + width l := by
  have hc : width [c] = c.utf8Size := by simp [width]
  have happend := width_append [c] l
  rwa [List.singleton_append, hc] at happend

theorem width_toList (s : String) : width s.toList = s.utf8ByteSize := by
  rw [width, String.ofList_toList]

theorem eq_nil_of_width_eq_zero {l : List Char} (h : width l = 0) : l = [] := by
  cases l with
  | nil => rfl
  | cons c l =>
    have hc := c.utf8Size_pos
    rw [width_cons] at h
    omega

/-- Of two beginnings of a text the wider one goes on after the other. -/
theorem exists_append_of_width_le {l m l' m' : List Char} (h : l ++ m = l' ++ m')
    (hle : width l ≤ width l') : ∃ k, l' = l ++ k ∧ m = k ++ m' := by
  rcases List.append_eq_append_iff.1 h with ⟨k, hl', hm⟩ | ⟨k, hl, hm'⟩
  · exact ⟨k, hl', hm⟩
  · rw [hl, width_append] at hle
    obtain rfl := eq_nil_of_width_eq_zero (show width k = 0 by omega)
    exact ⟨[], by simpa using hl.symm, by simpa using hm'.symm⟩

end Text

/-- Blanks in front of a text are as many bytes before its tokens. -/
theorem Token.scan_blanks_append {w : List Char} (hw : ∀ c ∈ w, Text.isBlank c = true)
    (position : Nat) (cs : List Char) :
    scan position (w ++ cs) = scan (position + Text.width w) cs := by
  induction w generalizing position with
  | nil => rfl
  | cons c w ih =>
    obtain ⟨hc, hw⟩ := List.forall_mem_cons.1 hw
    rw [List.cons_append, scan, if_pos hc, ih hw, Text.width_cons, Nat.add_assoc]

theorem Lexeme.WellFormed.utf8ByteSize_pos (hx : x.WellFormed) : 0 < x.text.utf8ByteSize := by
  have hends : x.EndsBefore [] := fun _ c hc => by cases hc
  obtain ⟨c, l, htext, -⟩ := hx.read hends
  have hc := c.utf8Size_pos
  rw [← Text.width_toList, htext, Text.width_cons]
  omega

namespace Token.LieIn

open Text

variable {position : Nat} {ts : List Token}

theorem nil (position : Nat) : LieIn position [] [] := by
  constructor
  · exact .nil
  · intro t ht
    cases ht
  · intro before c after h
    exact absurd h.symm (List.append_ne_nil_of_right_ne_nil _ (List.cons_ne_nil _ _))

/-- A blank in front moves the tokens. -/
theorem blank (h : LieIn (position + c.utf8Size) cs ts) (hc : isBlank c = true) :
    LieIn position (c :: cs) ts := by
  constructor
  · exact h.increasing
  · intro t ht
    obtain ⟨hx, before, after, hcs, hposition⟩ := h.slice t ht
    constructor
    · exact hx
    · exists c :: before, after
      constructor
      · rw [hcs, List.cons_append, List.cons_append]
      · rw [hposition, width_cons, Nat.add_assoc]
  · intro before d after hcs hout
    cases before with
    | nil =>
      cases hcs
      exact hc
    | cons e before =>
      cases hcs
      rw [width_cons, ← Nat.add_assoc] at hout
      exact h.outside before d after rfl hout

/-- A lexeme in front is one more token. -/
theorem lexeme (hx : x.WellFormed) (hpos : 0 < x.text.utf8ByteSize)
    (h : LieIn (position + x.text.utf8ByteSize) cs ts)
    (hle : ∀ t ∈ ts, position + x.text.utf8ByteSize ≤ t.position) :
    LieIn position (x.text.toList ++ cs) ({ x with position } :: ts) := by
  constructor
  · constructor
    · intro t ht
      have hle := hle t ht
      show position < t.position
      omega
    · exact h.increasing
  · intro t ht
    rcases List.mem_cons.1 ht with rfl | ht
    · constructor
      · exact hx
      · exists [], cs
    · obtain ⟨hy, before, after, hcs, hposition⟩ := h.slice t ht
      constructor
      · exact hy
      · exists x.text.toList ++ before, after
        constructor
        · rw [hcs, List.append_assoc, List.append_assoc, List.append_assoc]
        · rw [hposition, width_append, width_toList, Nat.add_assoc]
  · intro before d after hcs hout
    -- a character of the lexeme itself is not outside
    have hhead := hout _ List.mem_cons_self
    rcases List.append_eq_append_iff.1 hcs with ⟨l, rfl, hl⟩ | ⟨l, htext, hl⟩
    · rw [width_append, width_toList, ← Nat.add_assoc] at hout
      exact h.outside l d after hl fun t ht => hout t (List.mem_cons_of_mem _ ht)
    · have hsize := width_toList x.text
      rw [htext, width_append] at hsize
      cases l with
      | nil =>
        rw [width_nil] at hsize
        rw [show width before = x.text.utf8ByteSize from hsize] at hout
        exact h.outside [] d after hl.symm fun t ht => hout t (List.mem_cons_of_mem _ ht)
      | cons e l =>
        rw [width_cons] at hsize
        have he := e.utf8Size_pos
        have hstop : position + width before < position + x.text.utf8ByteSize := by omega
        exact absurd ⟨Nat.le_add_right _ _, hstop⟩ hhead

end Token.LieIn

theorem Piece.le_position_of_mem_tokens {ps : List Piece} {position : Nat} {t : Token}
    (h : t ∈ tokens position ps) : position ≤ t.position := by
  induction ps generalizing position with
  | nil => cases h
  | cons p ps ih =>
    cases p with
    | blank c =>
      rw [tokens] at h
      have hle := ih h
      omega
    | lexeme x =>
      rw [tokens] at h
      rcases List.mem_cons.1 h with rfl | h
      · exact Nat.le_refl _
      · have hle := ih h
        omega

/-- The lexemes of a tiling lie where they are written. -/
theorem Tiles.lieIn {ps : List Piece} (h : Tiles ps cs) (position : Nat) :
    Token.LieIn position cs (Piece.tokens position ps) := by
  induction h generalizing position with
  | nil => exact Token.LieIn.nil position
  | blank hc _ ih => exact (ih _).blank hc
  | lexeme hx hmax _ ih =>
    apply Token.LieIn.lexeme hx
    · exact hx.utf8ByteSize_pos
    · exact ih _
    · exact fun t => Piece.le_position_of_mem_tokens

/-- A text has tokens where it has a tiling, and then there is no other: the tokens are its lexemes,
which lie in the text in order, each where it is written, with nothing but blanks outside. -/
theorem tokenize_eq_ok_iff_tiles (s : String) :
    ((∃ ts, tokenize s = .ok ts) ↔ ∃ ps, Tiles ps s.toList) ∧
      ∀ ps, Tiles ps s.toList →
        tokenize s = .ok (Piece.tokens 0 ps) ∧ (∀ ps', Tiles ps' s.toList → ps' = ps) ∧
          Token.LieIn 0 s.toList (Piece.tokens 0 ps) := by
  constructor
  · constructor
    · rintro ⟨ts, hts⟩
      exact Token.exists_tiles_of_scan hts
    · rintro ⟨ps, hps⟩
      exact ⟨_, hps.scan_eq 0⟩
  · intro ps hps
    constructor
    · exact hps.scan_eq 0
    · constructor
      · intro ps' hps'
        exact hps'.unique hps
      · exact hps.lieIn 0

/-- A blank of three bytes, a reference and the number that it ends before. -/
theorem tokenize_blank_reference_number :
    tokenize "\u3000A1+2.5" =
        .ok [⟨⟨.reference, "A1"⟩, 3⟩, ⟨⟨.plus, "+"⟩, 5⟩, ⟨⟨.number, "2.5"⟩, 6⟩] ∧
      Token.LieIn 0 "\u3000A1+2.5".toList
        [⟨⟨.reference, "A1"⟩, 3⟩, ⟨⟨.plus, "+"⟩, 5⟩, ⟨⟨.number, "2.5"⟩, 6⟩] := by
  have htokens : tokenize "\u3000A1+2.5" =
      .ok [⟨⟨.reference, "A1"⟩, 3⟩, ⟨⟨.plus, "+"⟩, 5⟩, ⟨⟨.number, "2.5"⟩, 6⟩] := by cbv
  obtain ⟨ps, hps⟩ := (tokenize_eq_ok_iff_tiles "\u3000A1+2.5").1.1 ⟨_, htokens⟩
  obtain ⟨hok, -, hlie⟩ := (tokenize_eq_ok_iff_tiles "\u3000A1+2.5").2 ps hps
  rw [htokens] at hok
  rw [← Except.ok.inj hok] at hlie
  exact ⟨htokens, hlie⟩

end Spreadsheet
