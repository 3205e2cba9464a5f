import Spreadsheet.Formula.Expr
import Spreadsheet.Proofs.Address.Form
import Spreadsheet.Proofs.Number.RoundTrip

/-! Lexemes written one after another, and the tokens that are read from their text. -/
namespace Spreadsheet

namespace Lexeme

/-- Whether the text of a lexeme is of its kind. -/
inductive WellFormed : Lexeme → Prop where
  | symbol {kind : Kind} {c : Char} (h : Kind.ofSymbol? c = some kind) :
    WellFormed ⟨kind, String.ofList [c]⟩
  | number (n : Numeral) : WellFormed ⟨.number, String.ofList n.chars⟩
  | reference {letters digits : List Char} (letters_ne_nil : letters ≠ []) (digits_ne_nil : digits ≠ [])
    (isAlpha_letters : ∀ c ∈ letters, c.isAlpha = true)
    (isDigit_digits : ∀ c ∈ digits, c.isDigit = true) :
    WellFormed ⟨.reference, String.ofList (letters ++ digits)⟩

/-- The characters that a number or a reference may go on with. -/
def continues (c : Char) : Bool := c.isDigit || c == '.'

/-- Whether a lexeme ends where it is followed by `rest`. -/
def EndsBefore (x : Lexeme) (rest : List Char) : Prop :=
  x.kind = .number ∨ x.kind = .reference → Text.Stops continues rest

/-- Whether nothing of what follows makes a lexeme longer: no digit a number or a reference, and no
point a number without a fraction. -/
structure Maximal (x : Lexeme) (rest : List Char) : Prop where
  stops_isDigit : x.kind = .number ∨ x.kind = .reference → Text.Stops Char.isDigit rest
  head_ne_point : x.kind = .number → '.' ∉ x.text.toList → rest.head? ≠ some '.'

/-- Whether the text of two lexemes in a row is read as these two. -/
def Apart (x y : Lexeme) : Prop := y.kind = .number → x.kind ≠ .number ∧ x.kind ≠ .reference

variable {x y : Lexeme} {rest : List Char}

theorem stops_isDigit (h : Text.Stops continues rest) : Text.Stops Char.isDigit rest := by
  intro c hc
  have hstop := h c hc
  unfold continues at hstop
  rw [Bool.or_eq_false_iff] at hstop
  exact hstop.1

/-- What a number or a reference cannot go on with does not make it longer. -/
theorem EndsBefore.maximal (h : x.EndsBefore rest) : x.Maximal rest := by
  constructor
  · intro hk
    exact Lexeme.stops_isDigit (h hk)
  · intro hk _ hpoint
    have hstop := h (.inl hk) '.' hpoint
    cases hstop

theorem ofSymbol?_cases {c : Char} {kind : Kind} (h : Kind.ofSymbol? c = some kind) :
    Text.isBlank c = false ∧ continues c = false ∧ c ≠ '=' ∧ kind ≠ .number ∧ kind ≠ .reference := by
  unfold Kind.ofSymbol? at h
  split at h <;> cases h <;> decide

theorem ofSymbol?_eq_none {c : Char} (h : c.isDigit = true ∨ c.isAlpha = true) :
    Kind.ofSymbol? c = none := by
  unfold Kind.ofSymbol?
  split <;> first | rfl | (exfalso; revert h; decide)

theorem readNumber_append {c : Char} {whole fraction : List Char}
    (hw : ∀ d ∈ whole, d.isDigit = true) (hf : ∀ d ∈ fraction, d.isDigit = true)
    (hdigit : Text.Stops Char.isDigit rest) (hpoint : fraction = [] → rest.head? ≠ some '.') :
    readNumber c (whole ++ pointed fraction ++ rest) =
      .ok (⟨.number, String.ofList (c :: whole ++ pointed fraction)⟩, rest) := by
  unfold readNumber
  dsimp only
  cases fraction with
  | nil =>
    have htake := Text.takeWhile_append_of_stops hw hdigit
    have hdrop := Text.dropWhile_append_of_stops hw hdigit
    simp only [pointed, List.append_nil, htake, hdrop]
    split
    · exact absurd rfl (hpoint rfl)
    · rfl
  | cons d fraction =>
    have hpoint : Text.Stops Char.isDigit ('.' :: d :: fraction ++ rest) := by
      intro e he
      cases he
      rfl
    have htake := Text.takeWhile_append_of_stops hw hpoint
    have hdrop := Text.dropWhile_append_of_stops hw hpoint
    have htake' := Text.takeWhile_append_of_stops hf hdigit
    have hdrop' := Text.dropWhile_append_of_stops hf hdigit
    rw [pointed, List.append_assoc, htake, hdrop]
    simp only [List.cons_append] at htake' hdrop' ⊢
    simp only [htake', hdrop']
    rfl

theorem readReference_append {c : Char} {letters digits : List Char}
    (hl : ∀ d ∈ letters, d.isAlpha = true) (hn : digits ≠ [])
    (hd : ∀ d ∈ digits, d.isDigit = true) (hdigit : Text.Stops Char.isDigit rest) :
    readReference c (letters ++ digits ++ rest) =
      .ok (⟨.reference, String.ofList (c :: letters ++ digits)⟩, rest) := by
  have halpha : Text.Stops Char.isAlpha (digits ++ rest) := by
    cases digits with
    | nil => exact absurd rfl hn
    | cons d digits =>
      intro e he
      cases he
      exact Text.isAlpha_eq_false_of_isDigit (hd d List.mem_cons_self)
  have hempty : digits.isEmpty = false := List.isEmpty_eq_false_iff.2 hn
  unfold readReference
  dsimp only
  rw [List.append_assoc, Text.takeWhile_append_of_stops hl halpha,
    Text.dropWhile_append_of_stops hl halpha, Text.takeWhile_append_of_stops hd hdigit,
    Text.dropWhile_append_of_stops hd hdigit, hempty]
  rfl

/-- A lexeme is read from its text, unless what follows makes it longer. -/
theorem WellFormed.read_of_maximal (hx : x.WellFormed) (hr : x.Maximal rest) :
    ∃ c cs, x.text.toList = c :: cs ∧ Text.isBlank c = false ∧ c ≠ '=' ∧
      Lexeme.read c (cs ++ rest) = .ok (x, rest) := by
  cases hx with
  | symbol h =>
    rename_i kind c
    obtain ⟨hblank, -, hequals, -⟩ := ofSymbol?_cases h
    refine ⟨c, [], by simp, hblank, hequals, ?_⟩
    rw [Lexeme.read, h]
    rfl
  | number n =>
    obtain ⟨whole, fraction, hne, hw, hf⟩ := n
    cases whole with
    | nil => exact absurd rfl hne
    | cons c whole =>
      have hc := hw c List.mem_cons_self
      have hblank := Text.isBlank_eq_false_of_isDigit hc
      refine ⟨c, whole ++ pointed fraction, by simp [Numeral.chars], hblank, ?_, ?_⟩
      · rintro rfl
        cases hc
      · rw [Lexeme.read, ofSymbol?_eq_none (.inl hc)]
        simp only [hc]
        refine readNumber_append (fun d h => hw d (List.mem_cons_of_mem c h)) hf
          (hr.stops_isDigit (.inl rfl)) fun hnil => hr.head_ne_point rfl fun hmem => ?_
        subst hnil
        rw [String.toList_ofList, Numeral.chars, pointed, List.append_nil] at hmem
        cases hw '.' hmem
  | reference hln hdn hl hd =>
    rename_i letters digits
    cases letters with
    | nil => exact absurd rfl hln
    | cons c letters =>
      have hc := hl c List.mem_cons_self
      have hnd : c.isDigit = false := by
        refine Bool.eq_false_iff.2 fun h => ?_
        rw [Text.isAlpha_eq_false_of_isDigit h] at hc
        cases hc
      have hblank := Text.isBlank_eq_false_of_isAlpha hc
      refine ⟨c, letters ++ digits, by simp, hblank, ?_, ?_⟩
      · rintro rfl
        cases hc
      · have hdot : c ≠ '.' := by
          rintro rfl
          cases hc
        rw [Lexeme.read, ofSymbol?_eq_none (.inr hc)]
        simp only [hnd, hc, if_neg hdot]
        exact readReference_append (fun d h => hl d (List.mem_cons_of_mem c h)) hdn hd
          (hr.stops_isDigit (.inr rfl))

theorem WellFormed.read (hx : x.WellFormed) (hr : x.EndsBefore rest) :
    ∃ c cs, x.text.toList = c :: cs ∧ Text.isBlank c = false ∧ c ≠ '=' ∧
      Lexeme.read c (cs ++ rest) = .ok (x, rest) := hx.read_of_maximal hr.maximal

theorem continues_eq_false_of_isAlpha {c : Char} (h : c.isAlpha = true) : continues c = false := by
  have ha := Text.isAlpha_iff.1 h
  unfold continues
  rw [Bool.or_eq_false_iff]
  constructor
  · refine Bool.eq_false_iff.2 fun hd => ?_
    have hd := Text.isDigit_iff.1 hd
    omega
  · rw [beq_eq_false_iff_ne]
    rintro rfl
    cases h

/-- Nothing but a number starts with what a number or a reference may go on with. -/
theorem WellFormed.stops (hy : y.WellFormed) (hn : y.kind ≠ .number) (rest : List Char) :
    Text.Stops continues (y.text.toList ++ rest) := by
  intro d hd
  cases hy with
  | symbol h =>
    simp only [String.toList_ofList, List.cons_append, List.head?_cons] at hd
    cases hd
    exact (ofSymbol?_cases h).2.1
  | number n => exact absurd rfl hn
  | reference hln hdn hl hdd =>
    rename_i letters digits
    cases letters with
    | nil => exact absurd rfl hln
    | cons c letters =>
      simp only [String.toList_ofList, List.cons_append, List.head?_cons] at hd
      cases hd
      exact continues_eq_false_of_isAlpha (hl _ List.mem_cons_self)

theorem WellFormed.exists_numeral (hx : x.WellFormed) (hk : x.kind = .number) :
    ∃ n : Numeral, x.text = String.ofList n.chars := by
  cases hx with
  | symbol h => exact absurd hk (ofSymbol?_cases h).2.2.2.1
  | number n => exact ⟨n, rfl⟩
  | reference => cases hk

theorem WellFormed.isBlank_eq_false (hx : x.WellFormed) {c : Char} (hc : c ∈ x.text.toList) :
    Text.isBlank c = false := by
  cases hx with
  | symbol h =>
    rw [String.toList_ofList, List.mem_singleton] at hc
    rw [hc]
    exact (ofSymbol?_cases h).1
  | number n =>
    rw [String.toList_ofList] at hc
    rcases n.isDigit_or_eq_point_of_mem hc with hc | rfl
    · exact Text.isBlank_eq_false_of_isDigit hc
    · decide
  | reference _ _ hl hd =>
    rw [String.toList_ofList] at hc
    rcases List.mem_append.1 hc with hc | hc
    · exact Text.isBlank_eq_false_of_isAlpha (hl c hc)
    · exact Text.isBlank_eq_false_of_isDigit (hd c hc)

theorem wellFormed_of_readNumber {c : Char} {cs : List Char} (hc : c.isDigit = true)
    (h : readNumber c cs = .ok (x, rest)) : x.WellFormed := by
  have hwhole : ∀ d ∈ c :: cs.takeWhile Char.isDigit, d.isDigit = true := by
    intro d hd
    rcases List.mem_cons.1 hd with rfl | hd
    · exact hc
    · exact List.all_eq_true.1 List.all_takeWhile d hd
  unfold readNumber at h
  dsimp only at h
  split at h
  · rename_i tail _
    split at h
    · cases h
    · rename_i hne
      cases h
      have hfraction : ∀ d ∈ tail.takeWhile Char.isDigit, d.isDigit = true :=
        fun d hd => List.all_eq_true.1 List.all_takeWhile d hd
      cases hf : tail.takeWhile Char.isDigit with
      | nil => exact absurd (by rw [hf]; rfl) hne
      | cons d ds =>
        rw [hf] at hfraction
        exact .number ⟨_, d :: ds, List.cons_ne_nil _ _, hwhole, hfraction⟩
  · cases h
    have hw := WellFormed.number ⟨_, [], List.cons_ne_nil _ _, hwhole, by simp⟩
    unfold Numeral.chars pointed at hw
    rw [List.append_nil] at hw
    exact hw

theorem wellFormed_of_readReference {c : Char} {cs : List Char} (hc : c.isAlpha = true)
    (h : readReference c cs = .ok (x, rest)) : x.WellFormed := by
  unfold readReference at h
  dsimp only at h
  split at h
  · cases h
  · rename_i hne
    cases h
    refine .reference (List.cons_ne_nil _ _) (fun h => hne (by rw [h]; rfl)) (fun d hd => ?_)
      fun d hd => List.all_eq_true.1 List.all_takeWhile d hd
    rcases List.mem_cons.1 hd with rfl | hd
    · exact hc
    · exact List.all_eq_true.1 List.all_takeWhile d hd

theorem wellFormed_of_read {c : Char} {cs : List Char} (h : Lexeme.read c cs = .ok (x, rest)) :
    x.WellFormed := by
  unfold Lexeme.read at h
  split at h
  · rename_i hk
    cases h
    exact .symbol hk
  · split at h
    · rename_i hc
      exact wellFormed_of_readNumber hc h
    · split at h
      · cases h
      · split at h
        · rename_i hc
          exact wellFormed_of_readReference hc h
        · cases h

end Lexeme

namespace Token

/-- A text is only cut into well-formed lexemes. -/
theorem wellFormed_of_scan {position : Nat} {cs : List Char} {ts : List Token}
    (h : scan position cs = .ok ts) : ∀ t ∈ ts, t.toLexeme.WellFormed := by
  induction position, cs using scan.induct generalizing ts with
  | case1 position =>
    rw [scan] at h
    cases h
    simp
  | case2 position c cs hc ih =>
    rw [scan, if_pos hc] at h
    exact ih h
  | case3 position c cs hc distance fault hr =>
    rw [scan_of_error hc hr] at h
    cases h
  | case4 position c cs hc x rest hr hlen e hs ih =>
    rw [scan_of_ok hc hr, hs] at h
    cases h
  | case5 position c cs hc x rest hr hlen tokens hs ih =>
    rw [scan_of_ok hc hr, hs] at h
    cases h
    intro t ht
    rcases List.mem_cons.1 ht with rfl | ht
    · exact Lexeme.wellFormed_of_read hr
    · exact ih hs t ht

/-- Lexemes in a row with the byte offsets where they start. -/
def place (position : Nat) : List Lexeme → List Token
  | [] => []
  | x :: xs => { x with position } :: place (position + x.text.utf8ByteSize) xs

theorem map_place (position : Nat) (xs : List Lexeme) :
    (place position xs).map toLexeme = xs := by
  induction xs generalizing position with
  | nil => rfl
  | cons x xs ih => rw [place, List.map_cons, ih]

/-- Lexemes are read back from their text. -/
theorem scan_flatMap {xs : List Lexeme} (position : Nat) (hx : ∀ x ∈ xs, x.WellFormed)
    (hc : xs.IsChain Lexeme.Apart) :
    scan position (xs.flatMap fun x => x.text.toList) = .ok (place position xs) := by
  induction xs generalizing position with
  | nil =>
    rw [List.flatMap_nil, scan]
    rfl
  | cons x xs ih =>
    have hends : x.EndsBefore (xs.flatMap fun x => x.text.toList) := by
      intro hk
      cases xs with
      | nil =>
        intro c h
        cases h
      | cons y ys =>
        have hapart := (List.isChain_cons_cons.1 hc).1
        have hn : y.kind ≠ .number := fun hn => by
          obtain ⟨h₁, h₂⟩ := hapart hn
          exact hk.elim h₁ h₂
        rw [List.flatMap_cons]
        exact (hx y (by simp)).stops hn _
    obtain ⟨c, cs, htext, hblank, -, hread⟩ := (hx x List.mem_cons_self).read hends
    have ih := ih (position + x.text.utf8ByteSize) (fun y hy => hx y (List.mem_cons_of_mem x hy))
      hc.tail
    rw [List.flatMap_cons, htext, List.cons_append, scan_of_ok (by simp [hblank]) hread, ih]
    rfl

end Token

end Spreadsheet
