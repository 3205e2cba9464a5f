import Mathlib
import Spreadsheet.Graph.Walk

/-! What a depth-first walk leaves behind, read off a recursion over the cells looked at. -/
namespace Spreadsheet.Walk
open Relation

/-- Looking at cells in turn. A cell that may be entered is entered, the cells after it are looked
at, and it is left. -/
inductive Looks (next : Address → List Address) : Walk → List Address → Walk → Prop where
  | nil (w : Walk) : Looks next w [] w
  | enter {w w₁ w₂ : Walk} {n : Address} {ns : List Address} : n ∈ w.unseen →
      Looks next (w.enter n) (next n) w₁ → Looks next (w₁.leave n) ns w₂ → Looks next w (n :: ns) w₂
  | skip {w w₁ : Walk} {n : Address} {ns : List Address} : n ∉ w.unseen →
      Looks next (w.skip n) ns w₁ → Looks next w (n :: ns) w₁

/-- A step to a cell of a set. -/
def Step (next : Address → List Address) (cells : AddressSet) (a b : Address) : Prop :=
  b ∈ next a ∧ b ∈ cells

theorem reaches_mono {next : Address → List Address} {s t : AddressSet} {a b : Address}
    (hst : ∀ x ∈ s, x ∈ t) (h : ReflTransGen (Step next s) a b) : ReflTransGen (Step next t) a b :=
  ReflTransGen.mono (fun _ _ hs => ⟨hs.1, hst _ hs.2⟩) _ _ h

variable {next : Address → List Address} {w w' : Walk} {ns : List Address}

@[simp] theorem mem_unseen_enter {n x : Address} :
    x ∈ (w.enter n).unseen ↔ n ≠ x ∧ x ∈ w.unseen := by
  simp [enter, Std.ExtTreeSet.mem_erase]

@[simp] theorem mem_active_enter {n x : Address} :
    x ∈ (w.enter n).active ↔ n = x ∨ x ∈ w.active := by
  simp [enter, Std.ExtTreeSet.mem_insert]

@[simp] theorem finished_enter (n : Address) : (w.enter n).finished = w.finished := rfl

@[simp] theorem finished_leave (n : Address) : (w.leave n).finished = n :: w.finished := rfl

@[simp] theorem finished_skip (n : Address) : (w.skip n).finished = w.finished := by
  rw [skip]
  split <;> rfl

@[simp] theorem active_skip (n : Address) : (w.skip n).active = w.active := by
  rw [skip]
  split <;> rfl

/-- Where no cell on the path may be entered, that is so after entering one. -/
theorem not_mem_active_enter (hw : ∀ x ∈ w.unseen, x ∉ w.active) (n : Address) :
    ∀ x ∈ (w.enter n).unseen, x ∉ (w.enter n).active := by
  intro x hx hx'
  obtain ⟨hnx, hx⟩ := mem_unseen_enter.1 hx
  exact (mem_active_enter.1 hx').elim hnx (hw x hx)

theorem active_leave {w₁ : Walk} {n : Address} (h : w₁.active = (w.enter n).active)
    (hn : n ∉ w.active) : (w₁.leave n).active = w.active := by
  refine Std.ExtTreeSet.ext_mem fun x => ?_
  have hnx : x ∈ w.active → n ≠ x := fun hx hnx => hn (hnx ▸ hx)
  simp only [leave, h, Std.ExtTreeSet.mem_erase, mem_active_enter]
  grind

theorem skip_of_not_mem {n : Address} (h : n ∉ w.active) : w.skip n = w :=
  if_neg fun hn => h hn.2

namespace Looks

theorem append {w₁ : Walk} {ms : List Address} (h : Looks next w ns w₁) (h' : Looks next w₁ ms w') :
    Looks next w (ns ++ ms) w' := by
  induction h with
  | nil w => exact h'
  | enter hn h₁ _ _ ih => exact .enter hn h₁ (ih h')
  | skip hn _ ih => exact .skip hn (ih h')

theorem size_unseen_le (h : Looks next w ns w') : w'.unseen.size ≤ w.unseen.size := by
  induction h with
  | nil w => exact Nat.le_refl _
  | enter hn _ _ ih₁ ih₂ => exact Nat.le_trans ih₂ (Nat.le_trans ih₁ (Nat.le_of_lt (size_unseen_enter hn)))
  | skip _ _ ih => simpa using ih

/-- Cells are only ever taken away from those that may be entered. -/
theorem mem_unseen (h : Looks next w ns w') {x : Address} (hx : x ∈ w'.unseen) : x ∈ w.unseen := by
  induction h with
  | nil w => exact hx
  | enter _ _ _ ih₁ ih₂ => exact (mem_unseen_enter.1 (ih₁ (ih₂ hx))).2
  | skip _ _ ih => simpa using ih hx

/-- No cell looked at may be entered again. -/
theorem not_mem_unseen (h : Looks next w ns w') {n : Address} (hn : n ∈ ns) : n ∉ w'.unseen := by
  induction h with
  | nil w => simp at hn
  | enter _ h₁ h₂ _ ih =>
    rcases List.mem_cons.1 hn with rfl | hn
    · exact fun hx => (mem_unseen_enter.1 (h₁.mem_unseen (h₂.mem_unseen hx))).1 rfl
    · exact ih hn
  | skip hn' h' ih =>
    rcases List.mem_cons.1 hn with rfl | hn
    · exact fun hx => hn' (by simpa using h'.mem_unseen hx)
    · exact ih hn

/-- The cells left meanwhile are those that may no longer be entered. -/
theorem finished_eq (h : Looks next w ns w') :
    ∃ l, w'.finished = l ++ w.finished ∧ l.Nodup ∧ ∀ x, x ∈ l ↔ x ∈ w.unseen ∧ x ∉ w'.unseen := by
  induction h with
  | nil w => exact ⟨[], by simp⟩
  | @enter w w₁ w₂ n ns hn h₁ h₂ ih₁ ih₂ =>
    obtain ⟨l₁, hf₁, hd₁, hm₁⟩ := ih₁
    obtain ⟨l₂, hf₂, hd₂, hm₂⟩ := ih₂
    have hn₁ : n ∉ w₁.unseen := fun hx => (mem_unseen_enter.1 (h₁.mem_unseen hx)).1 rfl
    have hn₂ : n ∉ w₂.unseen := fun hx => hn₁ (h₂.mem_unseen hx)
    have hm₁' : ∀ x, x ∈ l₁ ↔ (n ≠ x ∧ x ∈ w.unseen) ∧ x ∉ w₁.unseen := by simpa using hm₁
    have hm₂' : ∀ x, x ∈ l₂ ↔ x ∈ w₁.unseen ∧ x ∉ w₂.unseen := hm₂
    refine ⟨l₂ ++ n :: l₁, by simp [hf₁, hf₂], ?_, fun x => ?_⟩
    · simp only [List.nodup_append, List.nodup_cons]
      grind
    · have hs : x ∈ w₁.unseen → n ≠ x ∧ x ∈ w.unseen := fun hx => by simpa using h₁.mem_unseen hx
      have hs₂ : x ∈ w₂.unseen → x ∈ w₁.unseen := h₂.mem_unseen
      simp only [List.mem_append, List.mem_cons, hm₁', hm₂']
      grind
  | skip hn h' ih => simpa using ih

/-- Every cell left meanwhile was reached through cells that could be entered. -/
theorem reached (h : Looks next w ns w') {x : Address} (hx : x ∈ w.unseen) (hx' : x ∉ w'.unseen) :
    ∃ n ∈ ns, n ∈ w.unseen ∧ ReflTransGen (Step next w.unseen) n x := by
  induction h with
  | nil w => exact absurd hx hx'
  | @enter w w₁ w₂ n ns hn h₁ h₂ ih₁ ih₂ =>
    by_cases hxn : n = x
    · exact ⟨n, by simp, hn, hxn ▸ .refl⟩
    have hu : ∀ y ∈ (w.enter n).unseen, y ∈ w.unseen := fun y hy => (mem_unseen_enter.1 hy).2
    by_cases hx₁ : x ∈ w₁.unseen
    · obtain ⟨m, hm, hmw, hr⟩ := ih₂ hx₁ hx'
      have hu₁ : ∀ y ∈ w₁.unseen, y ∈ w.unseen := fun y hy => hu y (h₁.mem_unseen hy)
      exact ⟨m, by simp [hm], hu₁ m hmw, reaches_mono hu₁ hr⟩
    · obtain ⟨m, hm, hmw, hr⟩ := ih₁ (mem_unseen_enter.2 ⟨hxn, hx⟩) hx₁
      exact ⟨n, by simp, hn, .head ⟨hm, hu m hmw⟩ (reaches_mono hu hr)⟩
  | skip _ h' ih =>
    obtain ⟨m, hm, hmw, hr⟩ := ih (by simpa using hx) hx'
    rw [unseen_skip] at hmw hr
    exact ⟨m, by simp [hm], hmw, hr⟩

/-- Nothing after a cell left meanwhile may be entered any more. -/
theorem closed (h : Looks next w ns w') {x y : Address} (hx : x ∈ w.unseen) (hx' : x ∉ w'.unseen)
    (hy : y ∈ next x) : y ∉ w'.unseen := by
  induction h with
  | nil w => exact absurd hx hx'
  | @enter w w₁ w₂ n ns hn h₁ h₂ ih₁ ih₂ =>
    by_cases hxn : n = x
    · subst hxn
      exact fun hy' => h₁.not_mem_unseen hy (h₂.mem_unseen hy')
    by_cases hx₁ : x ∈ w₁.unseen
    · exact ih₂ hx₁ hx'
    · exact fun hy' => ih₁ (mem_unseen_enter.2 ⟨hxn, hx⟩) hx₁ (h₂.mem_unseen hy')
  | skip _ h' ih => exact ih (by simpa using hx) hx'

/-- Looking at cells leaves the path as it was. -/
theorem active_eq (h : Looks next w ns w') (hw : ∀ x ∈ w.unseen, x ∉ w.active) :
    w'.active = w.active := by
  induction h with
  | nil w => rfl
  | @enter w w₁ w₂ n ns hn h₁ h₂ ih₁ ih₂ =>
    have hl := active_leave (ih₁ (not_mem_active_enter hw n)) (hw n hn)
    rw [ih₂ (fun x hx => hl ▸ hw x (mem_unseen_enter.1 (h₁.mem_unseen hx)).2), hl]
  | @skip w w₁ n ns _ h' ih => simpa using ih (by simpa using hw)

end Looks

/-- The loop over frames looks at what a frame has pending, leaves its cell and goes on. -/
theorem exists_looks (next : Address → List Address) (w : Walk) : (ns : List Address) →
    ∃ w', Looks next w ns w' ∧
      ∀ cell path, run next w (⟨cell, ns⟩ :: path) = run next (w'.leave cell) path
  | [] => ⟨w, .nil w, fun cell path => by rw [run]⟩
  | n :: ns => by
    by_cases hn : n ∈ w.unseen
    · have hlt := size_unseen_enter hn
      obtain ⟨w₁, h₁, hr₁⟩ := exists_looks next (w.enter n) (next n)
      have hle := h₁.size_unseen_le
      obtain ⟨w₂, h₂, hr₂⟩ := exists_looks next (w₁.leave n) ns
      exact ⟨w₂, .enter hn h₁ h₂, fun cell path => by rw [run, if_pos hn, hr₁, hr₂]⟩
    · obtain ⟨w₁, h₁, hr₁⟩ := exists_looks next (w.skip n) ns
      exact ⟨w₁, .skip hn h₁, fun cell path => by rw [run, if_neg hn, hr₁]⟩
termination_by ns => (w.unseen.size, ns.length)
decreasing_by
  · exact Prod.Lex.left _ _ hlt
  · exact Prod.Lex.left _ _ (Nat.lt_of_le_of_lt hle hlt)
  · simp [Prod.lex_def]

/-- Walking from a root that nothing is on the path of is looking at the root. -/
theorem looks_visit {root : Address} (hw : root ∉ w.active) :
    Looks next w [root] (visit next w root) := by
  rw [visit]
  split
  · rename_i hr
    obtain ⟨w', h, hrun⟩ := exists_looks next (w.enter root) (next root)
    rw [hrun, run]
    exact .enter hr h (.nil _)
  · rename_i hr
    exact .skip hr (by rw [skip_of_not_mem hw]; exact .nil w)

theorem looks_foldl_visit (hw : ∀ x, x ∉ w.active) (roots : List Address) :
    Looks next w roots (roots.foldl (visit next) w) := by
  induction roots generalizing w with
  | nil => exact .nil w
  | cons root roots ih =>
    have h : Looks next w [root] _ := looks_visit (hw root)
    refine h.append (ih fun x => ?_)
    rw [h.active_eq fun x _ => hw x]
    exact hw x

/-- Every cell of a list is followed by cells that it reaches, and nothing after these leads back
to any of them or to it. -/
def Sealed (next : Address → List Address) : List Address → Prop
  | [] => True
  | r :: l =>
    (∃ reached before, l = reached ++ before ∧
      (∀ x ∈ reached, ReflTransGen (fun a b => b ∈ next a) r x) ∧
      ∀ x ∈ before, ∀ y ∈ next x, y ∉ r :: reached) ∧
    Sealed next l

/-- Where nothing left before leads to a cell that may be entered, that is so after leaving a cell
that was entered. -/
theorem Looks.closed_leave {w₁ : Walk} {n : Address} (h : Looks next (w.enter n) (next n) w₁)
    (hw : ∀ x ∈ w.finished, ∀ y ∈ next x, y ∉ w.unseen) :
    ∀ x ∈ (w₁.leave n).finished, ∀ y ∈ next x, y ∉ (w₁.leave n).unseen := by
  obtain ⟨l, hf, -, hm⟩ := h.finished_eq
  rw [finished_enter] at hf
  intro x hx y hy hy'
  rw [finished_leave, hf] at hx
  rw [unseen_leave] at hy'
  rcases List.mem_cons.1 hx with rfl | hx
  · exact h.not_mem_unseen hy hy'
  rcases List.mem_append.1 hx with hx | hx
  · exact h.closed ((hm x).1 hx).1 ((hm x).1 hx).2 hy hy'
  · exact hw x hx y hy (mem_unseen_enter.1 (h.mem_unseen hy')).2

/-- A walk leaves cells in a sealed order, as long as nothing left before leads to a cell that may
be entered. -/
theorem Looks.sealed (h : Looks next w ns w')
    (hw : ∀ x ∈ w.finished, ∀ y ∈ next x, y ∉ w.unseen) (hs : Sealed next w.finished) :
    Sealed next w'.finished := by
  induction h with
  | nil w => exact hs
  | @enter w w₁ w₂ n ns hn h₁ h₂ ih₁ ih₂ =>
    obtain ⟨l, hf, -, hm⟩ := h₁.finished_eq
    rw [finished_enter] at hf
    have hs₁ := ih₁ (fun x hx y hy hy' => hw x hx y hy (mem_unseen_enter.1 hy').2) hs
    refine ih₂ (h₁.closed_leave hw) ⟨⟨l, w.finished, hf, fun x hx => ?_, ?_⟩, hs₁⟩
    · obtain ⟨m, hmn, -, hr⟩ := h₁.reached ((hm x).1 hx).1 ((hm x).1 hx).2
      exact .head hmn (ReflTransGen.mono (fun _ _ hst => hst.1) _ _ hr)
    · intro x hx y hy hy'
      refine hw x hx y hy ?_
      rcases List.mem_cons.1 hy' with rfl | hy'
      · exact hn
      · exact (mem_unseen_enter.1 ((hm y).1 hy').1).2
  | skip _ _ ih => exact ih (by simpa using hw) (by simpa using hs)

theorem Sealed.pairwise : {l : List Address} → Sealed next l →
    l.Pairwise fun a b => a ∈ next b → ReflTransGen (fun a b => b ∈ next a) a b
  | [], _ => .nil
  | r :: l, ⟨⟨reached, before, hl, hr, hb⟩, hs⟩ => by
    refine .cons (fun b hbl hrb => ?_) hs.pairwise
    rcases List.mem_append.1 (hl ▸ hbl) with hbr | hbb
    · exact hr b hbr
    · exact absurd (List.mem_cons_self ..) (hb b hbb r hrb)

end Spreadsheet.Walk
