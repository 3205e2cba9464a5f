import Mathlib

/-! What is left of the members of a list by the last of them that matters. -/
namespace Spreadsheet

variable {α : Type} {l : List α} {P Q : α → Prop}

theorem not_exists_followed_nil :
    ¬ ∃ before a after, ([] : List α) = before ++ a :: after ∧ (∀ b ∈ after, Q b) ∧ P a := by
  rintro ⟨before, a, after, h, -⟩
  exact List.append_ne_nil_of_right_ne_nil before (List.cons_ne_nil a after) h.symm

/-- A member with one property is followed by members with another only if it is the last one, or the
last one has the other property and the same holds of those before it. -/
theorem exists_followed_append_iff {last : α} :
    (∃ before a after, l ++ [last] = before ++ a :: after ∧ (∀ b ∈ after, Q b) ∧ P a) ↔
      P last ∨ Q last ∧ ∃ before a after, l = before ++ a :: after ∧ (∀ b ∈ after, Q b) ∧ P a := by
  constructor
  · rintro ⟨before, a, after, h, hafter, ha⟩
    rcases List.eq_nil_or_concat after with rfl | ⟨after, b, rfl⟩
    · obtain ⟨-, hlast⟩ := List.append_inj' h rfl
      rw [List.singleton_inj.1 hlast]
      exact .inl ha
    · rw [List.concat_eq_append] at h hafter
      rw [← List.cons_append, ← List.append_assoc] at h
      obtain ⟨rfl, hlast⟩ := List.append_inj' h rfl
      rw [← List.singleton_inj.1 hlast, List.forall_mem_append, List.forall_mem_singleton] at hafter
      exact .inr ⟨hafter.2, before, a, after, rfl, hafter.1, ha⟩
  · rintro (ha | ⟨hlast, before, a, after, rfl, hafter, ha⟩)
    · exact ⟨l, last, [], rfl, List.forall_mem_nil _, ha⟩
    · refine ⟨before, a, after ++ [last], by simp, ?_, ha⟩
      rw [List.forall_mem_append, List.forall_mem_singleton]
      exact ⟨hafter, hlast⟩

end Spreadsheet
