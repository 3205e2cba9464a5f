import Spreadsheet.Proofs.Except
import Spreadsheet.Proofs.Recalculate.Locality

/-! A cell comes to what its formula comes to with all references written out. -/
namespace Spreadsheet

namespace Expr

variable {known : Address → Option Outcome} {e : Expr} {x : Float}

@[simp] theorem toOption_evaluate_reference (known : Address → Option Outcome) (cell : Address) :
    ((reference cell).evaluate known).toOption = (known cell).bind Except.toOption := by
  rw [evaluate]
  cases known cell with
  | none => rfl
  | some outcome => cases outcome <;> rfl

@[simp] theorem toOption_evaluate_unary (known : Address → Option Outcome) (op : UnaryOp)
    (e : Expr) :
    ((unary op e).evaluate known).toOption = (e.evaluate known).toOption.map op.apply := by
  rw [evaluate]
  cases e.evaluate known <;> rfl

@[simp] theorem toOption_evaluate_binary (known : Address → Option Outcome) (op : BinaryOp)
    (left right : Expr) :
    ((binary op left right).evaluate known).toOption =
      (left.evaluate known).toOption.bind fun x =>
        (right.evaluate known).toOption.bind fun y => (op.apply x y).toOption := by
  rw [evaluate]
  cases left.evaluate known with
  | error fault => rfl
  | ok x => cases right.evaluate known <;> rfl

/-- A formula that comes to a number reads numbers only. -/
theorem isSome_of_evaluate (h : (e.evaluate known).toOption = some x) {p : Address}
    (hp : p ∈ e.leaves) : ((known p).bind Except.toOption).isSome := by
  induction e generalizing x with
  | literal y => cases hp
  | reference cell =>
    obtain rfl := List.mem_singleton.1 hp
    rw [toOption_evaluate_reference] at h
    exact Option.isSome_of_eq_some h
  | unary op e ih =>
    rw [toOption_evaluate_unary, Option.map_eq_some_iff] at h
    obtain ⟨y, hy, -⟩ := h
    exact ih hy hp
  | binary op left right ihl ihr =>
    rw [toOption_evaluate_binary, Option.bind_eq_some_iff] at h
    obtain ⟨y, hy, h⟩ := h
    obtain ⟨z, hz, -⟩ := Option.bind_eq_some_iff.1 h
    rcases List.mem_append.1 hp with hp | hp
    · exact ihl hy hp
    · exact ihr hz hp

end Expr

namespace Sheet

open Relation

/-- The formula `x` is `e` with every reference to a cell with a formula replaced by the formula of
that cell, written out as well. A reference to a cell without a formula stays: where no outcome is
known it fails, whether the cell is empty or its text cannot be read. -/
inductive Expands (s : Sheet) : Expr → Expr → Prop where
  | literal (value : Float) : Expands s (.literal value) (.literal value)
  | bare {cell : Address} (hf : s.formula? cell = none) :
      Expands s (.reference cell) (.reference cell)
  | formula {cell : Address} {e x : Expr} (hf : s.formula? cell = some e) (hx : Expands s e x) :
      Expands s (.reference cell) x
  | unary (op : UnaryOp) {e x : Expr} (hx : Expands s e x) : Expands s (.unary op e) (.unary op x)
  | binary (op : BinaryOp) {left right x y : Expr} (hx : Expands s left x)
      (hy : Expands s right y) : Expands s (.binary op left right) (.binary op x y)

variable {s : Sheet} {c d p : Address} {e x y : Expr}

theorem Expands.eq (h : s.Expands e x) (h' : s.Expands e y) : x = y := by
  induction h generalizing y with
  | literal value =>
    cases h'
    rfl
  | bare hf =>
    cases h' with
    | bare _ => rfl
    | formula hf' _ =>
      rw [hf] at hf'
      cases hf'
  | formula hf _ ih =>
    cases h' with
    | bare hf' =>
      rw [hf] at hf'
      cases hf'
    | formula hf' hy =>
      rw [hf] at hf'
      cases hf'
      exact ih hy
  | unary op _ ih =>
    cases h' with
    | unary _ hy => rw [ih hy]
  | binary op _ _ ihx ihy =>
    cases h' with
    | binary _ hx' hy' => rw [ihx hx', ihy hy']

/-- Only references to cells without a formula are left. -/
theorem Expands.formula?_eq_none (h : s.Expands e x) (hp : p ∈ x.leaves) :
    s.formula? p = none := by
  induction h with
  | literal value => cases hp
  | bare hf =>
    obtain rfl := List.mem_singleton.1 hp
    exact hf
  | formula _ _ ih => exact ih hp
  | unary op _ ih => exact ih hp
  | binary op _ _ ihx ihy =>
    rcases List.mem_append.1 hp with hp | hp
    · exact ihx hp
    · exact ihy hp

theorem exists_expands_of_leaves (h : ∀ p ∈ e.leaves, ∃ x, s.Expands (.reference p) x) :
    ∃ x, s.Expands e x := by
  induction e with
  | literal value => exact ⟨_, .literal value⟩
  | reference cell => exact h cell List.mem_cons_self
  | unary op e ih =>
    obtain ⟨x, hx⟩ := ih h
    exact ⟨_, .unary op hx⟩
  | binary op left right ihl ihr =>
    obtain ⟨x, hx⟩ := ihl fun p hp => h p (List.mem_append_left _ hp)
    obtain ⟨y, hy⟩ := ihr fun p hp => h p (List.mem_append_right _ hp)
    exact ⟨_, .binary op hx hy⟩

/-- Whether a cell neither lies on a cycle nor reaches one. -/
def Acyclic (s : Sheet) (c : Address) : Prop := ∀ d, ReflTransGen s.Reads c d → ¬ s.OnCycle d

theorem Acyclic.of_reads (h : s.Acyclic c) (hp : s.Reads c p) : s.Acyclic p :=
  fun d hd => h d (.head hp hd)

theorem Acyclic.exists_expands (h : s.Acyclic c) : ∃ x, s.Expands (.reference c) x := by
  induction c using s.wellFounded_reads.induction with
  | _ c ih =>
    cases hf : s.formula? c with
    | none => exact ⟨_, .bare hf⟩
    | some e =>
      have hleaves : ∀ p ∈ e.leaves, ∃ x, s.Expands (.reference p) x := by
        intro p hp
        have hcp : s.Reads c p := ⟨e, hf, hp⟩
        exact ih p ⟨h c .refl, hcp⟩ (h.of_reads hcp)
      obtain ⟨x, hx⟩ := exists_expands_of_leaves hleaves
      exact ⟨x, .formula hf hx⟩

/-- A cell without a formula has no number. -/
theorem bind_get?_eq_none (mode : Mode) (hf : s.formula? c = none) :
    ((s.recalculate mode).outcomes.get? c).bind Except.toOption = none := by
  have hs := s.settles_recalculate mode c
  generalize (s.recalculate mode).outcomes.get? c = outcome at hs
  cases hs with
  | empty _ => rfl
  | unreadable _ _ => rfl
  | circular _ => rfl
  | evaluated he _ _ =>
    rw [hf] at he
    cases he

/-- Against the outcomes of a pass a formula comes to the number that its expansion comes to. -/
theorem Expands.toOption_evaluate (h : s.Expands e x) (mode : Mode)
    (ha : ∀ p ∈ e.leaves, s.Acyclic p) :
    (e.evaluate (s.recalculate mode).outcomes.get?).toOption =
      (x.evaluate (∅ : Outcomes).get?).toOption := by
  induction h with
  | literal value => rfl
  | bare hf =>
    rw [Expr.toOption_evaluate_reference, Expr.toOption_evaluate_reference,
      bind_get?_eq_none mode hf, Outcomes.get?_empty]
    rfl
  | @formula cell e x hf _ ih =>
    have hcell := ha cell List.mem_cons_self
    rw [Expr.toOption_evaluate_reference,
      get?_recalculate_of_not_onCycle mode hf (hcell cell .refl), Option.bind_some]
    exact ih fun p hp => hcell.of_reads ⟨e, hf, hp⟩
  | unary op _ ih => rw [Expr.toOption_evaluate_unary, Expr.toOption_evaluate_unary, ih ha]
  | binary op _ _ ihx ihy =>
    rw [Expr.toOption_evaluate_binary, Expr.toOption_evaluate_binary,
      ihx fun p hp => ha p (List.mem_append_left _ hp),
      ihy fun p hp => ha p (List.mem_append_right _ hp)]

/-- A cell that reaches a cycle has no number: either it lies on one, or it reads a cell that
reaches one. -/
theorem bind_get?_eq_none_of_onCycle (mode : Mode) (hd : ReflTransGen s.Reads c d)
    (hc : s.OnCycle d) : ((s.recalculate mode).outcomes.get? c).bind Except.toOption = none := by
  induction hd using ReflTransGen.head_induction_on with
  | refl =>
    rw [get?_recalculate_of_onCycle mode hc]
    rfl
  | @head a b hab _ ih =>
    by_cases ha : s.OnCycle a
    · rw [get?_recalculate_of_onCycle mode ha]
      rfl
    · obtain ⟨e, he, hb⟩ := hab
      rw [get?_recalculate_of_not_onCycle mode he ha, Option.bind_some]
      refine Option.eq_none_iff_forall_ne_some.2 fun v hv => ?_
      have hsome := Expr.isSome_of_evaluate hv hb
      rw [ih] at hsome
      cases hsome

theorem exists_get?_eq_error (mode : Mode) (he : s.formula? c = some e) (ha : ¬ s.Acyclic c) :
    ∃ fault, (s.recalculate mode).outcomes.get? c = some (.error fault) := by
  unfold Acyclic at ha
  push Not at ha
  obtain ⟨d, hd, hcycle⟩ := ha
  by_cases hc : s.OnCycle c
  · exact ⟨_, get?_recalculate_of_onCycle mode hc⟩
  · have hnone := bind_get?_eq_none_of_onCycle mode hd hcycle
    have hv := get?_recalculate_of_not_onCycle mode he hc
    rw [hv, Option.bind_some] at hnone
    obtain ⟨fault, hfault⟩ := toOption_eq_none_iff.1 hnone
    exact ⟨fault, hv.trans (congrArg some hfault)⟩

/-- A cell that reaches no cycle comes to the number that its expansion comes to where no outcome is
known, and fails where the expansion fails. A cell with a formula that reaches a cycle fails. -/
theorem recalculate_eq_evaluate_expansion (s : Sheet) (mode : Mode) {c : Address} {e : Expr}
    (he : s.formula? c = some e) :
    let V := (s.recalculate mode).outcomes
    (s.Acyclic c → ∃ x, s.Expands e x ∧ (∀ y, s.Expands e y → y = x) ∧
        (∀ p ∈ x.leaves, s.formula? p = none) ∧
        (∀ v, V.get? c = some (.ok v) ↔ x.evaluate (∅ : Outcomes).get? = .ok v) ∧
        ((∃ fault, V.get? c = some (.error fault)) ↔
          ∃ fault, x.evaluate (∅ : Outcomes).get? = .error fault)) ∧
      (¬ s.Acyclic c → ∃ fault, V.get? c = some (.error fault)) := by
  intro V
  constructor
  · intro ha
    have hreads : ∀ p ∈ e.leaves, s.Acyclic p := fun p hp => ha.of_reads ⟨e, he, hp⟩
    have hv : V.get? c = some (e.evaluate V.get?) :=
      get?_recalculate_of_not_onCycle mode he (ha c .refl)
    obtain ⟨x, hx⟩ := exists_expands_of_leaves fun p hp => (hreads p hp).exists_expands
    have heval := hx.toOption_evaluate mode hreads
    refine ⟨x, hx, fun y hy => hy.eq hx, fun p => hx.formula?_eq_none, fun v => ?_, ?_⟩
    · rw [hv, Option.some.injEq, ← toOption_eq_some_iff, ← toOption_eq_some_iff, heval]
    · simp only [hv, Option.some.injEq]
      rw [← toOption_eq_none_iff, ← toOption_eq_none_iff, heval]
  · intro ha
    exact exists_get?_eq_error mode he ha

/-- `A1` reads the number in `B1`, and `D1` reads `C1`, which reads itself. -/
theorem recalculate_eq_evaluate_expansion_of_row :
    let s := ofRows [["=B1", "0", "=C1", "=C1"]]
    let V := (s.recalculate .layered).outcomes
    s.Acyclic ⟨0, 0⟩ ∧ s.Expands (.reference ⟨0, 1⟩) (.literal (Float.ofBits 0)) ∧
      V.get? ⟨0, 0⟩ = some (.ok (Float.ofBits 0)) ∧
      ¬ s.Acyclic ⟨0, 3⟩ ∧ ∃ fault, V.get? ⟨0, 3⟩ = some (.error fault) := by
  intro s V
  have ha : Formula.parse "=B1" = .ok (.reference ⟨0, 1⟩) :=
    Formula.parse_eq_reference (t := ⟨⟨.reference, "B1"⟩, 0⟩) (by cbv) rfl rfl
  have hb : Formula.parse "0" = .ok (.literal (Float.ofBits 0)) := by cbv
  have hc : Formula.parse "=C1" = .ok (.reference ⟨0, 2⟩) :=
    Formula.parse_eq_reference (t := ⟨⟨.reference, "C1"⟩, 0⟩) (by cbv) rfl rfl
  have fa : s.formula? ⟨0, 0⟩ = some (.reference ⟨0, 1⟩) :=
    formula?_eq_some_iff.2 ⟨"=B1", by decide, ha⟩
  have fb : s.formula? ⟨0, 1⟩ = some (.literal (Float.ofBits 0)) :=
    formula?_eq_some_iff.2 ⟨"0", by decide, hb⟩
  have fc : s.formula? ⟨0, 2⟩ = some (.reference ⟨0, 2⟩) :=
    formula?_eq_some_iff.2 ⟨"=C1", by decide, hc⟩
  have fd : s.formula? ⟨0, 3⟩ = some (.reference ⟨0, 2⟩) :=
    formula?_eq_some_iff.2 ⟨"=C1", by decide, hc⟩
  have rb : ∀ p, ¬ s.Reads ⟨0, 1⟩ p := by
    intro p h
    obtain ⟨e, he, hp⟩ := h
    rw [fb] at he
    cases he
    cases hp
  have kb : s.Acyclic ⟨0, 1⟩ := by
    intro d hd
    rcases ReflTransGen.cases_head hd with rfl | ⟨p, hp, -⟩
    · exact not_onCycle_of_not_reads rb
    · exact absurd hp (rb p)
  have ra : ∀ p, s.Reads ⟨0, 0⟩ p ↔ p = ⟨0, 1⟩ := by simp [Reads, fa, Expr.leaves]
  have ka : s.Acyclic ⟨0, 0⟩ := by
    intro d hd
    rcases ReflTransGen.cases_head hd with rfl | ⟨p, hp, hpd⟩
    · exact fun h => not_onCycle_of_not_reads rb (h.of_reads ra)
    · rw [ra] at hp
      exact kb d (hp ▸ hpd)
  have hx : s.Expands (.reference ⟨0, 1⟩) (.literal (Float.ofBits 0)) := .formula fb (.literal _)
  have kd : ¬ s.Acyclic ⟨0, 3⟩ := by
    intro h
    have hdc : s.Reads ⟨0, 3⟩ ⟨0, 2⟩ := ⟨_, fd, List.mem_cons_self⟩
    exact h ⟨0, 2⟩ (.single hdc) (.single ⟨_, fc, List.mem_cons_self⟩)
  obtain ⟨x, -, huniq, -, hvalue, -⟩ := (recalculate_eq_evaluate_expansion s .layered fa).1 ka
  refine ⟨ka, hx, (hvalue _).2 ?_, kd, (recalculate_eq_evaluate_expansion s .layered fd).2 kd⟩
  rw [← huniq _ hx]
  rfl

end Sheet

end Spreadsheet
