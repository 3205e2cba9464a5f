import Spreadsheet.Proofs.Text.Pieces

/-! A list without what a class covers at its two ends, and texts without blanks around them. -/
namespace Spreadsheet.Text

section Strip

variable {α β : Type} {p : α → Bool} {m before after : List α}

/-- A list without the members of a class in front and at the end. -/
def strip (p : α → Bool) (l : List α) : List α := ((l.dropWhile p).reverse.dropWhile p).reverse

/-- What a list loses in front. -/
theorem exists_dropWhile (p : α → Bool) (l : List α) :
    ∃ before, l = before ++ l.dropWhile p ∧ ∀ a ∈ before, p a = true :=
  ⟨l.takeWhile p, List.takeWhile_append_dropWhile.symm,
    fun a ha => List.all_eq_true.1 List.all_takeWhile a ha⟩

theorem exists_strip (p : α → Bool) (l : List α) :
    ∃ before after, l = before ++ strip p l ++ after ∧ (∀ a ∈ before, p a = true) ∧
      ∀ a ∈ after, p a = true := by
  obtain ⟨before, hl, hbefore⟩ := exists_dropWhile p l
  obtain ⟨after, hr, hafter⟩ := exists_dropWhile p (l.dropWhile p).reverse
  refine ⟨before, after.reverse, ?_, hbefore, fun a ha => hafter a (List.mem_reverse.1 ha)⟩
  have hr' : l.dropWhile p = strip p l ++ after.reverse := by
    rw [strip, ← List.reverse_append, ← hr, List.reverse_reverse]
  rw [List.append_assoc, ← hr', ← hl]

theorem strip_append (hb : ∀ a ∈ before, p a = true) (ha : ∀ a ∈ after, p a = true) :
    strip p (before ++ m ++ after) = strip p m := by
  have hrev : ∀ a ∈ after.reverse, p a = true := fun a h => ha a (List.mem_reverse.1 h)
  rw [strip, strip, List.append_assoc, List.dropWhile_append_of_pos hb, List.dropWhile_append]
  split
  · rename_i hm
    have hm : m.dropWhile p = [] := List.isEmpty_iff.1 hm
    rw [hm, List.dropWhile_eq_nil_iff.2 ha]
  · rw [List.reverse_append, List.dropWhile_append_of_pos hrev]

/-- Pieces that a class covers or keeps away from are stripped as wholes. -/
theorem dropWhile_flatMap {f : β → List α} {q : β → Bool}
    (h : ∀ b, q b = true ∧ (∀ a ∈ f b, p a = true) ∨
      q b = false ∧ f b ≠ [] ∧ ∀ a ∈ f b, p a = false) (l : List β) :
    (l.flatMap f).dropWhile p = (l.dropWhile q).flatMap f := by
  induction l with
  | nil => rfl
  | cons b l ih =>
    rcases h b with ⟨hq, hf⟩ | ⟨hq, hne, hf⟩
    · rw [List.flatMap_cons, List.dropWhile_append_of_pos hf, ih, List.dropWhile_cons_of_pos hq]
    · obtain ⟨a, as, ha⟩ := List.exists_cons_of_ne_nil hne
      have hp : p a = false := hf a (by simp [ha])
      rw [List.dropWhile_cons_of_neg (by simp [hq]), List.flatMap_cons, ha, List.cons_append,
        List.dropWhile_cons_of_neg (by simp [hp])]

theorem strip_flatMap {f : β → List α} {q : β → Bool}
    (h : ∀ b, q b = true ∧ (∀ a ∈ f b, p a = true) ∨
      q b = false ∧ f b ≠ [] ∧ ∀ a ∈ f b, p a = false) (l : List β) :
    strip p (l.flatMap f) = (strip q l).flatMap f := by
  have hrev : ∀ b, q b = true ∧ (∀ a ∈ (f b).reverse, p a = true) ∨
      q b = false ∧ (f b).reverse ≠ [] ∧ ∀ a ∈ (f b).reverse, p a = false := by
    simpa only [List.mem_reverse, ne_eq, List.reverse_eq_nil_iff] using h
  rw [strip, strip, dropWhile_flatMap h, List.reverse_flatMap]
  have hd := dropWhile_flatMap hrev (l.dropWhile q).reverse
  rw [Function.comp_def, hd, List.reverse_flatMap]
  simp [Function.comp_def]

end Strip

theorem trim_ofList (cs : List Char) : trim (String.ofList cs) = String.ofList (strip isBlank cs) := by
  rw [trim, String.toList_ofList]
  rfl

theorem toList_trim (s : String) : (trim s).toList = strip isBlank s.toList := by
  rw [trim, String.toList_ofList]
  rfl

/-- A text is its trimmed text with blanks before and after it. -/
theorem exists_trim (s : String) :
    ∃ before after : List Char, s.toList = before ++ (trim s).toList ++ after ∧
      (∀ c ∈ before, isBlank c = true) ∧ ∀ c ∈ after, isBlank c = true := by
  rw [toList_trim]
  exact exists_strip isBlank s.toList

theorem allBlank_trim (s : String) : allBlank (trim s) = allBlank s := by
  obtain ⟨before, after, hs, hb, ha⟩ := exists_trim s
  rw [allBlank, allBlank, hs, List.all_append, List.all_append, List.all_eq_true.2 hb,
    List.all_eq_true.2 ha, Bool.true_and, Bool.and_true]

end Spreadsheet.Text
