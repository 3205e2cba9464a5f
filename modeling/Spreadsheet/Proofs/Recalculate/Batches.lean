import Spreadsheet.Proofs.Graph.Layers
import Spreadsheet.Recalculate

/-! Running batches: a cell that is evaluated after the cells that it reads keeps the outcome it
has against the outcomes at the end. -/
namespace Spreadsheet

namespace Outcomes

variable {o o' : Outcomes} {cell k : Address} {x : Outcome}

theorem ext_get? (h : ∀ k, o.get? k = o'.get? k) : o = o' := by
  cases o
  cases o'
  exact congrArg mk (Std.ExtTreeMap.ext_getElem? h)

@[simp] theorem get?_empty : (∅ : Outcomes).get? k = none := Std.ExtTreeMap.getElem?_empty

theorem get?_record :
    (o.record cell x).get? k = (o.get? k).or (if k = cell then some x else none) := by
  simp only [get?, record, Std.ExtTreeMap.getElem?_insertIfNew, Std.compare_eq_iff_eq,
    Std.ExtTreeMap.mem_iff_isSome_getElem?]
  by_cases hk : cell = k
  · subst hk
    cases o.entries[cell]? <;> simp
  · simp [hk, Ne.symm hk]

/-- The first outcome written for a cell stays. -/
theorem get?_recordAll (o : Outcomes) (l : List (Address × Outcome)) (k : Address) :
    (o.recordAll l).get? k = (o.get? k).or (l.lookup k) := by
  induction l generalizing o with
  | nil => simp [recordAll]
  | cons a l ih =>
    have h : o.recordAll (a :: l) = (o.record a.1 a.2).recordAll l := rfl
    rw [h, ih, get?_record, Option.or_assoc, List.lookup_cons]
    by_cases hk : k = a.1
    · simp [hk]
    · rw [if_neg hk, Option.none_or, beq_eq_false_iff_ne.2 hk]

end Outcomes

namespace Expr

variable {known known' : Address → Option Outcome} {e : Expr}

/-- A formula comes to the same wherever the cells that it reads have the same numbers and fail
together. The reasons why they fail have no part in it. -/
theorem evaluate_congr_mapError {ε : Type} (view : FormulaError → ε)
    (h : ∀ cell ∈ e.leaves,
      (known cell).map (Except.mapError view) = (known' cell).map (Except.mapError view)) :
    e.evaluate known = e.evaluate known' := by
  induction e with
  | literal x => rfl
  | reference cell =>
    have hcell := h cell List.mem_cons_self
    rw [evaluate, evaluate]
    generalize known cell = o at hcell
    generalize known' cell = o' at hcell
    rcases o with _ | fault | x <;> rcases o' with _ | fault' | y <;>
      simp_all [Except.mapError]
  | unary op operand ih => rw [evaluate, evaluate, ih h]
  | binary op left right ihl ihr =>
    have hl := ihl fun cell hc => h cell (List.mem_append_left _ hc)
    have hr := ihr fun cell hc => h cell (List.mem_append_right _ hc)
    rw [evaluate, evaluate, hl, hr]

/-- A formula comes to the same wherever the cells that it reads have the same outcomes. -/
theorem evaluate_congr (h : ∀ cell ∈ e.leaves, known cell = known' cell) :
    e.evaluate known = e.evaluate known' :=
  evaluate_congr_mapError id fun cell hc => congrArg (Option.map _) (h cell hc)

end Expr

/-- Whether the formula of `cell` refers to `precedent`. -/
def Refers (formulas : AddressMap Expr) (cell precedent : Address) : Prop :=
  ∃ e, formulas[cell]? = some e ∧ precedent ∈ e.leaves

/-- Batches in which no cell refers to a cell of its own batch or of a later one. -/
def InOrder (formulas : AddressMap Expr) : List (List Address) → Prop
  | [] => True
  | batch :: batches =>
    (∀ a ∈ batch, ∀ b ∈ (batch :: batches).flatten, ¬ Refers formulas a b) ∧
      InOrder formulas batches

variable {formulas : AddressMap Expr} {known known' : Outcomes} {batch : List Address}
  {batches : List (List Address)} {cell : Address}

theorem inOrder_of_pairwise
    (h : batches.Pairwise fun A B => ∀ a ∈ A, ∀ b ∈ B, ¬ Refers formulas a b)
    (hself : ∀ A ∈ batches, ∀ a ∈ A, ∀ b ∈ A, ¬ Refers formulas a b) :
    InOrder formulas batches := by
  induction h with
  | nil => trivial
  | @cons A batches hA _ ih =>
    refine ⟨fun a ha b hb => ?_, ih fun B hB => hself B (List.mem_cons_of_mem A hB)⟩
    obtain ⟨B, hB, hbB⟩ := List.mem_flatten.1 hb
    rcases List.mem_cons.1 hB with hBA | hB
    · rw [hBA] at hbB
      exact hself A List.mem_cons_self a ha b hbB
    · exact hA B hB a ha b hbB

theorem InOrder.of_append {before : List (List Address)}
    (h : InOrder formulas (before ++ batches)) : InOrder formulas batches := by
  induction before with
  | nil => exact h
  | cons batch before ih => exact ih h.2

/-- One cell at a time is in order as long as each cell stands after those that it refers to. -/
theorem inOrder_singletons {order : List Address} (hd : order.Nodup)
    (h : ∀ c p, c ∈ order → p ∈ order → Refers formulas c p → order.idxOf p < order.idxOf c) :
    InOrder formulas (order.map ([·])) := by
  refine inOrder_of_pairwise (List.pairwise_map.2 ?_) ?_
  · refine List.pairwise_iff_getElem.2 fun i j hi hj hij a ha b hb hab => ?_
    obtain rfl := List.mem_singleton.1 ha
    obtain rfl := List.mem_singleton.1 hb
    have hlt := h _ _ (List.getElem_mem hi) (List.getElem_mem hj) hab
    rw [hd.idxOf_getElem, hd.idxOf_getElem] at hlt
    omega
  · intro A hA a ha b hb hab
    obtain ⟨c, hc, rfl⟩ := List.mem_map.1 hA
    have hac : a = c := List.mem_singleton.1 ha
    have hbc : b = c := List.mem_singleton.1 hb
    subst hac hbc
    exact Nat.lt_irrefl _ (h _ _ hc hc hab)

theorem outcomeOf_congr (h : ∀ p, Refers formulas cell p → known.get? p = known'.get? p) :
    outcomeOf formulas known cell = outcomeOf formulas known' cell := by
  rw [outcomeOf, outcomeOf]
  split
  · rename_i e he
    exact Expr.evaluate_congr fun p hp => h p ⟨e, he, hp⟩
  · rfl

theorem get?_runBatch :
    (runBatch formulas known batch).get? cell =
      (known.get? cell).or (if cell ∈ batch then some (outcomeOf formulas known cell) else none) := by
  rw [runBatch, Outcomes.get?_recordAll]
  congr 1
  induction batch with
  | nil => simp
  | cons c batch ih =>
    rw [List.map_cons, List.lookup_cons, ih]
    by_cases hc : cell = c
    · simp [hc]
    · simp [beq_eq_false_iff_ne.2 hc, hc]

/-- Cells outside the batches are left as they are. -/
theorem get?_foldl_of_not_mem (h : cell ∉ batches.flatten) :
    (batches.foldl (runBatch formulas) known).get? cell = known.get? cell := by
  induction batches generalizing known with
  | nil => rfl
  | cons batch batches ih =>
    rw [List.flatten_cons, List.mem_append, not_or] at h
    rw [List.foldl_cons, ih h.2, get?_runBatch, if_neg h.1, Option.or_none]

/-- An outcome that is known is never replaced. -/
theorem get?_foldl_of_eq_some {x : Outcome} (h : known.get? cell = some x) :
    (batches.foldl (runBatch formulas) known).get? cell = some x := by
  induction batches generalizing known with
  | nil => exact h
  | cons batch batches ih => exact ih (by rw [get?_runBatch, h, Option.some_or])

/-- At its turn a cell sees the outcomes that the cells it refers to have at the end. -/
theorem get?_eq_get?_foldl (hb : InOrder formulas (batch :: batches)) (hc : cell ∈ batch)
    {p : Address} (hp : Refers formulas cell p) :
    known.get? p = ((batch :: batches).foldl (runBatch formulas) known).get? p :=
  (get?_foldl_of_not_mem fun h => hb.1 cell hc p h hp).symm

/-- A cell of the batches ends with the outcome that its formula has against the end. -/
theorem get?_foldl_of_mem (hb : InOrder formulas batches) (hc : cell ∈ batches.flatten)
    (hk : known.get? cell = none) :
    (batches.foldl (runBatch formulas) known).get? cell =
      some (outcomeOf formulas (batches.foldl (runBatch formulas) known) cell) := by
  induction batches generalizing known with
  | nil => simp at hc
  | cons batch batches ih =>
    by_cases hcb : cell ∈ batch
    · have hv : (runBatch formulas known batch).get? cell =
          some (outcomeOf formulas known cell) := by
        rw [get?_runBatch, hk, if_pos hcb, Option.none_or]
      have hend : outcomeOf formulas known cell = outcomeOf formulas _ cell :=
        outcomeOf_congr fun p => get?_eq_get?_foldl hb hcb
      rw [← hend, List.foldl_cons]
      exact get?_foldl_of_eq_some hv
    · have hc : cell ∈ batches.flatten :=
        (List.mem_append.1 (List.flatten_cons ▸ hc)).resolve_left hcb
      exact ih hb.2 hc (by rw [get?_runBatch, hk, if_neg hcb, Option.none_or])

/-- All batches of the cells of one order lead to the same outcomes, as long as they are in order.
The order itself has to list each cell after those that it refers to. -/
theorem foldl_runBatch_eq {order : List Address} {batches' : List (List Address)}
    (ho : ∀ c p, c ∈ order → p ∈ order → Refers formulas c p → order.idxOf p < order.idxOf c)
    (hk : ∀ c ∈ order, known.get? c = none)
    (hb : InOrder formulas batches) (hm : ∀ c, c ∈ batches.flatten ↔ c ∈ order)
    (hb' : InOrder formulas batches') (hm' : ∀ c, c ∈ batches'.flatten ↔ c ∈ order) :
    batches.foldl (runBatch formulas) known = batches'.foldl (runBatch formulas) known := by
  have hout : ∀ c, c ∉ order → (batches.foldl (runBatch formulas) known).get? c =
      (batches'.foldl (runBatch formulas) known).get? c := by
    intro c hc
    rw [get?_foldl_of_not_mem (mt (hm c).1 hc), get?_foldl_of_not_mem (mt (hm' c).1 hc)]
  refine Outcomes.ext_get? fun c => ?_
  induction hn : order.idxOf c using Nat.strongRecOn generalizing c with
  | _ n ih =>
    by_cases hc : c ∈ order
    · rw [get?_foldl_of_mem hb ((hm c).2 hc) (hk c hc),
        get?_foldl_of_mem hb' ((hm' c).2 hc) (hk c hc)]
      congr 1
      refine outcomeOf_congr fun p hp => ?_
      by_cases hpo : p ∈ order
      · exact ih _ (hn ▸ ho c p hc hpo hp) p rfl
      · exact hout p hpo
    · exact hout c hc

end Spreadsheet
