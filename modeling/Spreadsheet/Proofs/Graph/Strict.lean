import Spreadsheet.Proofs.Graph.Schedule

/-! Ordering all cells succeeds where no cell lies on a cycle, and otherwise names a cell on one. -/
namespace Spreadsheet

open Relation

namespace Walk

variable {next : Address → List Address} {w w' : Walk} {ns : List Address} {c n : Address}

theorem closing?_skip_of_eq_none (h : (w.skip n).closing? = none) :
    w.closing? = none ∧ n ∉ w.active := by
  rw [skip] at h
  split at h
  · cases h
  · rename_i hn
    exact ⟨h, fun ha => hn ⟨by rw [h]; rfl, ha⟩⟩

theorem closing?_skip_of_eq_some (h : (w.skip n).closing? = some c) :
    w.closing? = some c ∨ c = n ∧ n ∈ w.active := by
  rw [skip] at h
  split at h
  · rename_i hn
    cases h
    exact .inr ⟨rfl, hn.2⟩
  · exact .inl h

namespace Looks

theorem closing?_eq_none (h : Looks next w ns w') (hc : w'.closing? = none) :
    w.closing? = none := by
  induction h with
  | nil w => exact hc
  | enter _ _ _ ih₁ ih₂ => exact ih₁ (ih₂ hc)
  | skip _ _ ih => exact (closing?_skip_of_eq_none (ih hc)).1

/-- A cell that closes a path leads back to itself, as long as every cell on the path leads to the
cells looked at. -/
theorem transGen_of_closing? (h : Looks next w ns w') (hw : ∀ x ∈ w.unseen, x ∉ w.active)
    (hp : ∀ a ∈ w.active, ∀ n ∈ ns, TransGen (fun a b => b ∈ next a) a n)
    (hc : w'.closing? = some c) :
    w.closing? = some c ∨ TransGen (fun a b => b ∈ next a) c c := by
  induction h with
  | nil w => exact .inl hc
  | @enter w w₁ w₂ n ns hn h₁ h₂ ih₁ ih₂ =>
    have hl := active_leave (h₁.active_eq (not_mem_active_enter hw n)) (hw n hn)
    refine (ih₂ (fun x hx => ?_) (fun a ha m hm => ?_) hc).elim (fun hc₁ => ?_) .inr
    · rw [hl]
      exact hw x (mem_unseen_enter.1 (h₁.mem_unseen hx)).2
    · rw [hl] at ha
      exact hp a ha m (List.mem_cons_of_mem n hm)
    · refine ih₁ (not_mem_active_enter hw n) (fun a ha m hm => ?_) hc₁
      rcases mem_active_enter.1 ha with rfl | ha
      · exact .single hm
      · exact .tail (hp a ha n List.mem_cons_self) hm
  | @skip w w₁ n ns _ _ ih =>
    refine (ih (by simpa using hw) (fun a ha m hm => ?_) hc).elim (fun hs => ?_) .inr
    · rw [active_skip] at ha
      exact hp a ha m (List.mem_cons_of_mem n hm)
    · refine (closing?_skip_of_eq_some hs).imp_right ?_
      rintro ⟨rfl, ha⟩
      exact hp c ha c List.mem_cons_self

/-- Where no path is closed, neither the cells looked at nor what follows a cell left meanwhile is
on the path. -/
theorem not_mem_active (h : Looks next w ns w') (hw : ∀ x ∈ w.unseen, x ∉ w.active)
    (hc : w'.closing? = none) :
    (∀ n ∈ ns, n ∉ w.active) ∧
      ∀ x ∈ w.unseen, x ∉ w'.unseen → ∀ y ∈ next x, y ∉ w.active := by
  induction h with
  | nil w => exact ⟨by simp, fun x hx hx' => absurd hx hx'⟩
  | @enter w w₁ w₂ n ns hn h₁ h₂ ih₁ ih₂ =>
    have hl := active_leave (h₁.active_eq (not_mem_active_enter hw n)) (hw n hn)
    have hw₁ : ∀ x ∈ (w₁.leave n).unseen, x ∉ (w₁.leave n).active := by
      intro x hx
      rw [hl]
      exact hw x (mem_unseen_enter.1 (h₁.mem_unseen hx)).2
    have hup : ∀ y, y ∉ (w.enter n).active → y ∉ w.active :=
      fun y hy ha => hy (mem_active_enter.2 (.inr ha))
    obtain ⟨hns₁, hleft₁⟩ := ih₁ (not_mem_active_enter hw n) (h₂.closing?_eq_none hc)
    obtain ⟨hns₂, hleft₂⟩ := ih₂ hw₁ hc
    rw [hl] at hns₂ hleft₂
    refine ⟨fun m hm => ?_, fun x hx hx' y hy => ?_⟩
    · rcases List.mem_cons.1 hm with rfl | hm
      · exact hw m hn
      · exact hns₂ m hm
    · by_cases hxn : n = x
      · subst hxn
        exact hup y (hns₁ y hy)
      by_cases hx₁ : x ∈ w₁.unseen
      · exact hleft₂ x hx₁ hx' y hy
      · exact hup y (hleft₁ x (mem_unseen_enter.2 ⟨hxn, hx⟩) hx₁ y hy)
  | @skip w w₁ n ns _ h' ih =>
    obtain ⟨hns, hleft⟩ := ih (by simpa using hw) hc
    rw [active_skip] at hns
    rw [active_skip, unseen_skip] at hleft
    refine ⟨fun m hm => ?_, hleft⟩
    rcases List.mem_cons.1 hm with rfl | hm
    · exact (closing?_skip_of_eq_none (h'.closing?_eq_none hc)).2
    · exact hns m hm

end Looks

/-- Whether no cell of a list follows itself or a cell further back. -/
def Descending (next : Address → List Address) (l : List Address) : Prop :=
  l.Pairwise (fun a b => ¬ a ∈ next b) ∧ ∀ a ∈ l, a ∉ next a

/-- Where no path is closed, every cell is left after all cells that follow it. -/
theorem Looks.descending (h : Looks next w ns w') (hw : ∀ x ∈ w.unseen, x ∉ w.active)
    (hf : ∀ x ∈ w.finished, ∀ y ∈ next x, y ∉ w.unseen) (hc : w'.closing? = none)
    (hs : Descending next w.finished) : Descending next w'.finished := by
  induction h with
  | nil w => exact hs
  | @enter w w₁ w₂ n ns hn h₁ h₂ ih₁ ih₂ =>
    have hl := active_leave (h₁.active_eq (not_mem_active_enter hw n)) (hw n hn)
    have hc₁ : w₁.closing? = none := h₂.closing?_eq_none hc
    obtain ⟨hpairs, hself⟩ := ih₁ (not_mem_active_enter hw n)
      (fun x hx y hy hy' => hf x hx y hy (mem_unseen_enter.1 hy').2) hc₁ hs
    obtain ⟨hns, hleft⟩ := h₁.not_mem_active (not_mem_active_enter hw n) hc₁
    have hactive : n ∈ (w.enter n).active := mem_active_enter.2 (.inl rfl)
    have hn' : n ∉ next n := fun h => hns n h hactive
    refine ih₂ (fun x hx => ?_) (h₁.closed_leave hf) hc ⟨.cons (fun b hb hnb => ?_) hpairs, ?_⟩
    · rw [hl]
      exact hw x (mem_unseen_enter.1 (h₁.mem_unseen hx)).2
    · obtain ⟨l, hl₁, -, hm⟩ := h₁.finished_eq
      rw [hl₁] at hb
      rcases List.mem_append.1 hb with hb | hb
      · exact hleft b ((hm b).1 hb).1 ((hm b).1 hb).2 n hnb hactive
      · exact hf b hb n hnb hn
    · intro a ha
      rcases List.mem_cons.1 ha with rfl | ha
      · exact hn'
      · exact hself a ha
  | skip _ _ ih => exact ih (by simpa using hw) (by simpa using hf) hc (by simpa using hs)

end Walk

namespace Graph

open Walk

variable {g : Graph} {c : Address}

theorem not_mem_active_start (cells : AddressSet) (x : Address) : x ∉ (start cells).active :=
  Std.ExtTreeSet.not_mem_empty

theorem onCycle_of_closing? (h : g.search.closing? = some c) : g.OnCycle c := by
  have hc := g.looks_search.transGen_of_closing? (fun x _ => not_mem_active_start _ x)
    (fun a ha => absurd ha (not_mem_active_start _ a)) h
  exact hc.resolve_left fun h => by cases h

theorem descending_search (h : g.search.closing? = none) :
    Descending g.precedentsOf g.search.finished :=
  g.looks_search.descending (fun x _ => not_mem_active_start _ x) (by simp [start]) h
    ⟨.nil, by simp [start]⟩

/-- Where no path is closed, reading leads on to cells that were left earlier. -/
theorem not_onCycle_of_closing? (h : g.search.closing? = none) : ¬ g.OnCycle c := by
  obtain ⟨hpairs, hself⟩ := descending_search h
  have hlt : ∀ {a b : Address}, TransGen g.Reads a b → b ∈ g.cells →
      g.search.finished.idxOf a < g.search.finished.idxOf b := by
    intro a b hab hb
    have hread : ∀ a b, g.Reads a b → b ∈ g.cells →
        g.search.finished.idxOf a < g.search.finished.idxOf b := by
      intro a b hab hb
      have ha := (g.finished_search.2 a).2 hab.mem_cells
      have hne : b ≠ a := by
        rintro rfl
        exact hself b ha hab
      exact idxOf_lt_of_pairwise hpairs ((g.finished_search.2 b).2 hb) ha hne hab
    induction hab with
    | single hab => exact hread _ _ hab hb
    | tail _ hbc ih => exact Nat.lt_trans (ih hbc.mem_cells) (hread _ _ hbc hb)
  exact fun hc => Nat.lt_irrefl _ (hlt hc hc.mem_cells)

theorem cycles_eq_empty_iff : g.schedule.cycles = ∅ ↔ ∀ c, ¬ g.OnCycle c := by
  constructor
  · intro h c hc
    have hmem := mem_cycles.2 hc
    rw [h] at hmem
    exact Std.ExtTreeSet.not_mem_empty hmem
  · intro h
    refine Std.ExtTreeSet.ext_mem fun c => ⟨fun hc => ?_, fun hc => ?_⟩
    · exact absurd (mem_cycles.1 hc) (h c)
    · exact absurd hc Std.ExtTreeSet.not_mem_empty

theorem order_schedule_of_cycles_eq_empty (h : g.schedule.cycles = ∅) :
    g.schedule.order = g.search.finished.reverse := by
  rw [order_schedule]
  refine List.filter_eq_self.2 fun c _ => decide_eq_true fun hc => ?_
  have hmem : c ∈ g.schedule.cycles := hc
  rw [h] at hmem
  exact Std.ExtTreeSet.not_mem_empty hmem

/-- All cells can be ordered exactly if none is set apart, then in the order of the schedule.
Otherwise the error names a cell that is set apart. -/
theorem order_eq_ok_iff_cycles (g : Graph) :
    ((∃ l, g.order = .ok l) ↔ g.schedule.cycles = ∅) ∧
      (∀ l, g.order = .ok l → l = g.schedule.order) ∧
      ∀ e, g.order = .error e → ∃ c ∈ g.schedule.cycles, e = .circularReference c := by
  cases h : g.search.closing? with
  | none =>
    have ho : g.order = .ok g.search.finished.reverse := by rw [order, h]
    have hempty := cycles_eq_empty_iff.2 fun c => not_onCycle_of_closing? h
    refine ⟨iff_of_true ⟨_, ho⟩ hempty, fun l hl => ?_, fun e he => ?_⟩
    · rw [ho] at hl
      cases hl
      exact (order_schedule_of_cycles_eq_empty hempty).symm
    · rw [ho] at he
      cases he
  | some c =>
    have ho : g.order = .error (.circularReference c) := by rw [order, h]
    have hc := onCycle_of_closing? h
    refine ⟨iff_of_false ?_ fun hempty => ?_, fun l hl => ?_, fun e he => ?_⟩
    · rintro ⟨l, hl⟩
      rw [ho] at hl
      cases hl
    · exact cycles_eq_empty_iff.1 hempty c hc
    · rw [ho] at hl
      cases hl
    · rw [ho] at he
      cases he
      exact ⟨c, mem_cycles.2 hc, rfl⟩

/-- `A1` reads `B1` and `B1` reads itself; without `B1` the cells `A1` and `C1` can be ordered. -/
theorem order_eq_ok_iff_cycles_of_loop :
    let g := ofFormulas [(⟨0, 0⟩, .reference ⟨0, 1⟩), (⟨0, 1⟩, .reference ⟨0, 1⟩)]
    let g' := ofFormulas [(⟨0, 0⟩, .reference ⟨0, 2⟩), (⟨0, 2⟩, .reference ⟨0, 3⟩)]
    g.order = .error (.circularReference ⟨0, 1⟩) ∧ ⟨0, 1⟩ ∈ g.schedule.cycles ∧
      g'.order = .ok [⟨0, 2⟩, ⟨0, 0⟩] ∧ g'.schedule.order = [⟨0, 2⟩, ⟨0, 0⟩] ∧
      g'.schedule.cycles = ∅ := by
  intro g g'
  have ho : g.order = .error (.circularReference ⟨0, 1⟩) := by cbv
  have ho' : g'.order = .ok [⟨0, 2⟩, ⟨0, 0⟩] := by cbv
  obtain ⟨-, -, herror⟩ := order_eq_ok_iff_cycles g
  obtain ⟨hok, heq, -⟩ := order_eq_ok_iff_cycles g'
  obtain ⟨c, hc, he⟩ := herror _ ho
  cases he
  exact ⟨ho, hc, ho', (heq _ ho').symm, hok.1 ⟨_, ho'⟩⟩

end Graph

end Spreadsheet
