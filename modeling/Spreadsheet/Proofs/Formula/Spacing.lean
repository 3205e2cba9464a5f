import Spreadsheet.Proofs.Formula.Blanks
import Spreadsheet.Proofs.Formula.Tiling

/-!
The lexemes of a text written again. Blanks keep them apart. Without blanks they are read as before
unless a number comes right after a number or a reference.
-/
namespace Spreadsheet

variable {c : Char} {w cs rest : List Char} {x y : Lexeme} {xs : List Lexeme} {ps : List Piece}
  {position : Nat}

/-- Texts one after another, each but the last with a separator behind it. -/
def Text.joinWith (separator : Nat → String) : List String → String
  | [] => ""
  | [s] => s
  | s :: t :: texts => s ++ separator 0 ++ joinWith (fun n => separator (n + 1)) (t :: texts)

/-- The lexemes among pieces. -/
def Piece.lexemes : List Piece → List Lexeme
  | [] => []
  | .blank _ :: ps => lexemes ps
  | .lexeme x :: ps => x :: lexemes ps

theorem Piece.map_tokens (position : Nat) (ps : List Piece) :
    (tokens position ps).map Token.toLexeme = lexemes ps := by
  induction ps generalizing position with
  | nil => rfl
  | cons p ps ih =>
    cases p with
    | blank c => exact ih _
    | lexeme x => exact congrArg (x :: ·) (ih _)

namespace Lexeme

theorem maximal_nil (x : Lexeme) : x.Maximal [] := by
  apply EndsBefore.maximal
  intro _ c hc
  cases hc

/-- A blank makes no lexeme longer. -/
theorem maximal_of_isBlank (hc : Text.isBlank c = true) (x : Lexeme) (rest : List Char) :
    x.Maximal (c :: rest) := by
  have hstop : Text.Stops joins (c :: rest) := by
    intro d hd
    cases hd
    exact joins_eq_false_of_isBlank hc
  apply EndsBefore.maximal
  exact fun _ => stops_continues hstop

theorem Maximal.blanks_append (h : x.Maximal rest) (hw : ∀ c ∈ w, Text.isBlank c = true) :
    x.Maximal (w ++ rest) := by
  cases w with
  | nil => exact h
  | cons c w => exact maximal_of_isBlank (hw c List.mem_cons_self) x _

/-- A number does not start where a number or a reference ends. -/
theorem Maximal.apart (h : x.Maximal (y.text.toList ++ rest)) (hy : y.WellFormed) : x.Apart y := by
  intro hk
  obtain ⟨n, hn⟩ := hy.exists_numeral hk
  obtain ⟨c, cs, hchars, hdigit⟩ := n.chars_eq_cons
  rw [hn, String.toList_ofList, hchars] at h
  have hstop : x.kind = .number ∨ x.kind = .reference → c.isDigit = false :=
    fun hx => h.stops_isDigit hx c rfl
  rw [hdigit] at hstop
  exact ⟨fun hx => Bool.noConfusion (hstop (.inl hx)), fun hx => Bool.noConfusion (hstop (.inr hx))⟩

end Lexeme

namespace Tiles

theorem wellFormed (h : Tiles ps cs) : ∀ x ∈ Piece.lexemes ps, x.WellFormed := by
  induction h with
  | nil =>
    intro x hx
    cases hx
  | blank _ _ ih => exact ih
  | lexeme hx _ _ ih => exact List.forall_mem_cons.2 ⟨hx, ih⟩

/-- Blanks in front of a text are pieces of their own. -/
theorem blanks_append (h : Tiles ps cs) (hw : ∀ c ∈ w, Text.isBlank c = true) :
    ∃ qs, Tiles qs (w ++ cs) ∧ Piece.lexemes qs = Piece.lexemes ps := by
  induction w with
  | nil => exact ⟨ps, h, rfl⟩
  | cons c w ih =>
    obtain ⟨hc, hw⟩ := List.forall_mem_cons.1 hw
    obtain ⟨qs, hqs, hlexemes⟩ := ih hw
    exact ⟨.blank c :: qs, .blank hc hqs, hlexemes⟩

end Tiles

/-- A text is scanned into the lexemes of its tiling. -/
theorem Token.exists_scan_iff :
    (∃ ts, scan position cs = .ok ts ∧ ts.map toLexeme = xs) ↔
      ∃ ps, Tiles ps cs ∧ Piece.lexemes ps = xs := by
  constructor
  · rintro ⟨ts, hts, rfl⟩
    obtain ⟨ps, hps⟩ := exists_tiles_of_scan hts
    have htokens := hps.scan_eq position
    rw [hts] at htokens
    rw [Except.ok.inj htokens, Piece.map_tokens]
    exact ⟨ps, hps, rfl⟩
  · rintro ⟨ps, hps, rfl⟩
    exact ⟨_, hps.scan_eq position, Piece.map_tokens position ps⟩

section Joined

/-- Blanks keep lexemes apart, whatever they are. -/
theorem exists_tiles_joinWith {separator : Nat → String} (hx : ∀ x ∈ xs, x.WellFormed)
    (hs : ∀ n, separator n ≠ "" ∧ Text.allBlank (separator n) = true) :
    ∃ ps, Tiles ps (Text.joinWith separator (xs.map (·.text))).toList ∧ Piece.lexemes ps = xs := by
  induction xs generalizing separator with
  | nil => exact ⟨[], .nil, rfl⟩
  | cons x xs ih =>
    obtain ⟨hx₁, hxs⟩ := List.forall_mem_cons.1 hx
    cases xs with
    | nil =>
      have htiles := Tiles.lexeme hx₁ x.maximal_nil .nil
      rw [List.append_nil] at htiles
      exact ⟨_, htiles, rfl⟩
    | cons y ys =>
      obtain ⟨ps, hps, hlexemes⟩ := ih hxs fun n => hs (n + 1)
      obtain ⟨hne, hblank⟩ := hs 0
      have hw := List.all_eq_true.1 hblank
      obtain ⟨qs, hqs, hlexemes'⟩ := hps.blanks_append hw
      have hmax : x.Maximal ((separator 0).toList ++
          (Text.joinWith (fun n => separator (n + 1)) ((y :: ys).map (·.text))).toList) := by
        obtain ⟨c, w, hcw⟩ := List.exists_cons_of_ne_nil fun h => hne (String.toList_eq_nil_iff.1 h)
        rw [hcw] at hw ⊢
        exact Lexeme.maximal_of_isBlank (hw c List.mem_cons_self) x _
      refine ⟨.lexeme x :: qs, ?_, ?_⟩
      · have htiles := Tiles.lexeme hx₁ hmax hqs
        rw [← String.toList_append, ← String.toList_append, ← String.append_assoc] at htiles
        exact htiles
      · rw [Piece.lexemes, hlexemes', hlexemes]

/-- Lexemes that are read from their bare texts keep apart. -/
theorem isChain_of_tiles (h : Tiles ps (xs.flatMap fun x => x.text.toList))
    (hx : ∀ x ∈ xs, x.WellFormed) (hps : Piece.lexemes ps = xs) : xs.IsChain Lexeme.Apart := by
  induction xs generalizing ps with
  | nil => exact .nil
  | cons x xs ih =>
    obtain ⟨hx₁, hxs⟩ := List.forall_mem_cons.1 hx
    obtain ⟨c, cs, htext, hblank, -⟩ := hx₁.read_of_maximal x.maximal_nil
    rw [List.flatMap_cons, htext, List.cons_append] at h
    rcases h.cons_cases with ⟨hblank', -⟩ | ⟨-, y, rest, qs, hread, rfl, hqs⟩
    · rw [hblank] at hblank'
      cases hblank'
    · -- The first lexeme is the one that is read first, so the others are read from the rest.
      obtain ⟨rfl, hqs'⟩ := List.cons.inj hps
      have hrest := Lexeme.append_of_read hread
      rw [← List.cons_append, ← htext] at hrest
      obtain rfl := List.append_cancel_left hrest
      apply List.isChain_cons.2
      constructor
      · intro z hz
        obtain ⟨zs, rfl⟩ := List.head?_eq_some_iff.1 hz
        rw [List.flatMap_cons] at hread
        exact (Lexeme.maximal_of_read hread).apart (hxs z List.mem_cons_self)
      · exact ih hqs hxs hqs'

end Joined

/-- The lexemes of a text are read again from their texts with any blanks between them, and from their
bare texts exactly if no number comes right after a number or a reference. -/
theorem tokenize_joined_texts {s : String} {ts : List Token} (hs : tokenize s = .ok ts) :
    (∀ separator : Nat → String,
      (∀ n, separator n ≠ "" ∧ Text.allBlank (separator n) = true) →
        ∃ us, tokenize (Text.joinWith separator (ts.map (·.text))) = .ok us ∧
          us.map Token.toLexeme = ts.map Token.toLexeme) ∧
      ((∃ us, tokenize (String.join (ts.map (·.text))) = .ok us ∧
        us.map Token.toLexeme = ts.map Token.toLexeme) ↔
          (ts.map Token.toLexeme).IsChain Lexeme.Apart) := by
  have hx : ∀ x ∈ ts.map Token.toLexeme, x.WellFormed :=
    List.forall_mem_map.2 (Token.wellFormed_of_scan hs)
  have htexts : ts.map (·.text) = (ts.map Token.toLexeme).map (·.text) := by
    rw [List.map_map]
    rfl
  rw [htexts]
  generalize ts.map Token.toLexeme = xs at hx
  constructor
  · intro separator hseparator
    exact Token.exists_scan_iff.2 (exists_tiles_joinWith hx hseparator)
  · have hjoin : (String.join (xs.map (·.text))).toList = xs.flatMap fun x => x.text.toList := by
      rw [String.toList_join, List.flatMap_map]
    unfold tokenize
    rw [hjoin]
    constructor
    · intro h
      obtain ⟨ps, hps, hxs⟩ := Token.exists_scan_iff.1 h
      exact isChain_of_tiles hps hx hxs
    · intro hchain
      exact ⟨_, Token.scan_flatMap 0 hx hchain, Token.map_place 0 xs⟩

/-- A reference before a number is kept apart by a tab, and run together with it without. -/
theorem tokenize_joined_texts_of_reference_number :
    let ts : List Token := [⟨⟨.reference, "A1"⟩, 0⟩, ⟨⟨.number, "2"⟩, 3⟩]
    tokenize "A1 2" = .ok ts ∧
      (∃ us, tokenize "A1\t2" = .ok us ∧ us.map Token.toLexeme = ts.map Token.toLexeme) ∧
      ¬ ∃ us, tokenize "A12" = .ok us ∧ us.map Token.toLexeme = ts.map Token.toLexeme := by
  intro ts
  have hs : tokenize "A1 2" = .ok ts := by
    unfold ts
    cbv
  obtain ⟨hblank, hbare⟩ := tokenize_joined_texts hs
  refine ⟨hs, hblank (fun _ => "\t") fun _ => ⟨by decide, by decide⟩, fun h => ?_⟩
  have hapart := (List.isChain_cons_cons.1 (hbare.1 h)).1
  exact (hapart rfl).2 rfl

end Spreadsheet
