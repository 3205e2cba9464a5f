import Spreadsheet.Proofs.Formula.Failure
import Spreadsheet.Proofs.Recalculate.Locality

/-! A failed cell blames a failed cell that its formula refers to. Following the blame comes to an
end, at a cell that has its error from itself. -/
namespace Spreadsheet

open Relation

namespace Outcomes

/-- Whether the error of `cell` is that `precedent` has failed. -/
def Blames (o : Outcomes) (cell precedent : Address) : Prop :=
  o.get? cell = some (.error (.dependencyFailed precedent))

/-- Going from `cell` to the cell that it blames, and on from there, leads through `path` and ends
at `root`, which blames no cell. -/
inductive Trail (o : Outcomes) : Address → List Address → Address → Prop where
  | stop {cell : Address} (h : ∀ p, ¬ o.Blames cell p) : Trail o cell [] cell
  | next {cell p root : Address} {path : List Address} (h : o.Blames cell p)
      (ht : Trail o p path root) : Trail o cell (p :: path) root

variable {o : Outcomes} {c p root : Address} {path : List Address}

theorem Trail.transGen (h : o.Trail c path root) (hp : p ∈ path) : TransGen o.Blames c p := by
  induction h with
  | stop _ => cases hp
  | next hb _ ih =>
    rcases List.mem_cons.1 hp with rfl | hp
    · exact .single hb
    · exact .head hb (ih hp)

/-- Where no cell blames itself through others, a trail passes no cell twice. -/
theorem Trail.nodup (h : o.Trail c path root) (ho : ∀ c, ¬ TransGen o.Blames c c) :
    (c :: path).Nodup := by
  induction h with
  | stop _ => exact List.nodup_singleton _
  | next hb ht ih => exact List.nodup_cons.2 ⟨fun hc => ho _ ((Trail.next hb ht).transGen hc), ih⟩

end Outcomes

namespace Sheet

/-- Whether `fault` is an error that a cell has from itself: of its text, of a reference to an empty
cell, of a division, or of lying on a cycle. -/
inductive IsCause (s : Sheet) (c : Address) : FormulaError → Prop where
  | text {t : String} {fault : FormulaError} (ht : s.text? c = some t)
      (he : Formula.parse t = .error fault) (hf : fault.OfText) : IsCause s c fault
  | undefined {p : Address} (hp : s.Reads c p) (ht : s.text? p = none) :
      IsCause s c (.undefinedReference p)
  | division : IsCause s c .divisionByZero
  | circular (hc : s.OnCycle c) : IsCause s c (.circularReference c)

variable {s : Sheet} {c p : Address} {mode : Mode}

/-- A cell fails of itself or, if it is on no cycle, of a failed cell that it reads. -/
theorem isCause_or_blames {fault : FormulaError}
    (h : (s.recalculate mode).outcomes.get? c = some (.error fault)) :
    s.IsCause c fault ∨ ∃ p, fault = .dependencyFailed p ∧ ¬ s.OnCycle c ∧ s.Reads c p ∧
      ∃ fault', (s.recalculate mode).outcomes.get? p = some (.error fault') := by
  have hs := s.settles_recalculate mode c
  rw [h] at hs
  cases hs with
  | unreadable ht he => exact .inl (.text ht he (Formula.ofText_of_parse he))
  | circular hc => exact .inl (.circular hc)
  | @evaluated e _ hf hc he =>
    cases Expr.fails_of_evaluate he with
    | undefined hp hk =>
      exact .inl (.undefined ⟨e, hf, hp⟩ ((get?_recalculate_eq_none_iff mode).1 hk))
    | dependency hp hk => exact .inr ⟨_, rfl, hc, ⟨e, hf, hp⟩, _, hk⟩
    | division => exact .inl .division

theorem IsCause.ne_dependencyFailed {fault : FormulaError} (h : s.IsCause c fault) (p : Address) :
    fault ≠ .dependencyFailed p := by
  rintro rfl
  cases h with
  | text _ _ hf => cases hf

theorem blames_recalculate (h : (s.recalculate mode).outcomes.Blames c p) :
    ¬ s.OnCycle c ∧ s.Reads c p ∧
      ∃ fault, (s.recalculate mode).outcomes.get? p = some (.error fault) := by
  rcases isCause_or_blames h with hcause | ⟨q, hq, hc, hr, hfault⟩
  · exact absurd rfl (hcause.ne_dependencyFailed p)
  · cases hq
    exact ⟨hc, hr, hfault⟩

theorem not_transGen_blames (s : Sheet) (mode : Mode) (c : Address) :
    ¬ TransGen (s.recalculate mode).outcomes.Blames c c := by
  intro h
  obtain ⟨p, hcp, -⟩ := TransGen.head'_iff.1 h
  exact (blames_recalculate hcp).1 (TransGen.mono (fun _ _ hab => (blames_recalculate hab).2.1) _ _ h)

theorem exists_trail {fault : FormulaError}
    (h : (s.recalculate mode).outcomes.get? c = some (.error fault)) :
    ∃ path root cause, (s.recalculate mode).outcomes.Trail c path root ∧
      (s.recalculate mode).outcomes.get? root = some (.error cause) ∧ s.IsCause root cause := by
  -- along the reads of cells on no cycle, which come to an end
  induction c using s.wellFounded_reads.induction generalizing fault with
  | _ c ih =>
    rcases isCause_or_blames h with hcause | ⟨p, rfl, hc, hcp, fault', hp⟩
    · refine ⟨[], c, fault, .stop fun p hb => ?_, h, hcause⟩
      cases h.symm.trans hb
      exact hcause.ne_dependencyFailed p rfl
    · obtain ⟨path, root, cause, ht, hroot⟩ := ih p ⟨hc, hcp⟩ hp
      exact ⟨p :: path, root, cause, .next h ht, hroot⟩

/-- A cell that is blamed has a text, is referred to and has failed. Following the blame from a
failed cell passes no cell twice and ends at a cell that has failed of itself. -/
theorem blame_ends_at_cause (s : Sheet) (mode : Mode) :
    let V := (s.recalculate mode).outcomes
    (∀ c p, V.get? c = some (.error (.dependencyFailed p)) →
        (s.text? p).isSome ∧ s.Reads c p ∧ ∃ fault, V.get? p = some (.error fault)) ∧
      ∀ c fault, V.get? c = some (.error fault) →
        ∃ path root cause, V.Trail c path root ∧ (c :: path).Nodup ∧
          V.get? root = some (.error cause) ∧ s.IsCause root cause := by
  intro V
  constructor
  · intro c p h
    obtain ⟨-, hr, fault, hp⟩ := blames_recalculate h
    exact ⟨(isSome_get?_recalculate_iff mode).1 (Option.isSome_of_eq_some hp), hr, fault, hp⟩
  · intro c fault h
    obtain ⟨path, root, cause, ht, hroot⟩ := exists_trail h
    exact ⟨path, root, cause, ht, ht.nodup (s.not_transGen_blames mode), hroot⟩

/-- `A1` blames `B1`, which has failed of its text; `C1` next to them lies on a cycle. -/
theorem blame_ends_at_cause_of_row :
    let s := ofRows [["=B1", "=(", "=C1"]]
    let V := (s.recalculate .layered).outcomes
    V.get? ⟨0, 0⟩ = some (.error (.dependencyFailed ⟨0, 1⟩)) ∧ s.Reads ⟨0, 0⟩ ⟨0, 1⟩ ∧
      V.get? ⟨0, 1⟩ = some (.error (.malformed 2 .missingOperand)) ∧
      ∃ path root cause, V.Trail ⟨0, 0⟩ path root ∧ (⟨0, 0⟩ :: path).Nodup ∧
        V.get? root = some (.error cause) ∧ s.IsCause root cause := by
  intro s V
  obtain ⟨hblame, htrail⟩ := blame_ends_at_cause s .layered
  have ha : Formula.parse "=B1" = .ok (.reference ⟨0, 1⟩) :=
    Formula.parse_eq_reference (t := ⟨⟨.reference, "B1"⟩, 0⟩) (by cbv) rfl rfl
  have hb : Formula.parse "=(" = .error (.malformed 2 .missingOperand) := by cbv
  have ta : s.text? ⟨0, 0⟩ = some "=B1" := by decide
  have tb : s.text? ⟨0, 1⟩ = some "=(" := by decide
  have ra : ∀ p, s.Reads ⟨0, 0⟩ p ↔ p = ⟨0, 1⟩ := fun p => by simp [reads_iff ta, ha, Expr.leaves]
  have rb : ∀ p, ¬ s.Reads ⟨0, 1⟩ p := fun p => by simp [reads_iff tb, hb]
  have ka : ¬ s.OnCycle ⟨0, 0⟩ := fun h => not_onCycle_of_not_reads rb (h.of_reads ra)
  have vb : V.get? ⟨0, 1⟩ = some (.error (.malformed 2 .missingOperand)) :=
    get?_recalculate_of_error .layered tb hb
  have va : V.get? ⟨0, 0⟩ = some (.error (.dependencyFailed ⟨0, 1⟩)) := by
    have hv := get?_recalculate_of_not_onCycle .layered (formula?_eq_some_iff.2 ⟨_, ta, ha⟩) ka
    rw [Expr.evaluate, vb] at hv
    exact hv
  exact ⟨va, (hblame _ _ va).2.1, vb, htrail _ _ va⟩

end Sheet

end Spreadsheet
