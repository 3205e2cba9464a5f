import Spreadsheet.Graph.LinkWalk
import Spreadsheet.Proofs.Graph.Reads

/-! What the steps of a walk with low-links do to the cells that have been entered, and that a
component is complete when its root is left. -/
namespace Spreadsheet.LinkWalk

open Relation

variable {g : Graph} {w : LinkWalk} {left below : List Address} {cell n x z : Address} {i : Nat}

/-- The number of cells entered before a cell. -/
def index (w : LinkWalk) (cell : Address) : Nat := (w.links[cell]?).elim 0 Link.index

def low (w : LinkWalk) (cell : Address) : Nat := (w.links[cell]?).elim 0 Link.low

/-- Whether a cell has been entered and its component is complete, or it is no node. -/
def Past (w : LinkWalk) (cell : Address) : Prop := cell ∉ w.unseen ∧ cell ∉ w.stack

section Links

theorem getElem?_modify {m : AddressMap Link} {f : Link → Link} :
    (m.modify cell f)[x]? = if x = cell then (m[x]?).map f else m[x]? := by
  rw [Std.ExtTreeMap.getElem?_modify]
  by_cases hx : cell = x
  · subst hx
    rw [if_pos Std.ReflCmp.compare_self, if_pos rfl]
  · rw [if_neg fun h => hx (Std.compare_eq_iff_eq.1 h), if_neg (Ne.symm hx)]

theorem getElem?_links_enter :
    (w.enter n).links[x]? = if x = n then some ⟨true, w.entered, w.entered⟩ else w.links[x]? := by
  unfold enter
  rw [Std.ExtTreeMap.getElem?_insert]
  by_cases hx : n = x
  · subst hx
    rw [if_pos Std.ReflCmp.compare_self, if_pos rfl]
  · rw [if_neg fun h => hx (Std.compare_eq_iff_eq.1 h), if_neg (Ne.symm hx)]

@[simp] theorem index_lower : (w.lower cell i).index x = w.index x := by
  unfold index lower
  rw [getElem?_modify]
  split
  · cases w.links[x]? <;> rfl
  · rfl

theorem low_lower : (w.lower cell i).low x = if x = cell then min (w.low x) i else w.low x := by
  unfold low lower
  rw [getElem?_modify]
  split
  · cases w.links[x]? with
    | none => exact (Nat.zero_min i).symm
    | some link => rfl
  · rfl

theorem getElem?_foldl_close (component : List Address) (m : AddressMap Link) :
    (component.foldl close m)[x]? =
      if x ∈ component then (m[x]?).map fun link => { link with isOpen := false } else m[x]? := by
  induction component generalizing m with
  | nil => simp
  | cons c component ih =>
    rw [List.foldl_cons, ih, close, getElem?_modify]
    by_cases hx : x = c
    · subst hx
      by_cases hm : x ∈ component
      · simp [hm, Function.comp_def]
      · simp [hm]
    · simp [hx]

theorem popTo_append (h : cell ∉ left) :
    popTo cell (left ++ cell :: below) = (left ++ [cell], below) := by
  induction left with
  | nil => simp [popTo]
  | cons c left ih =>
    rw [List.mem_cons, not_or] at h
    simp [popTo, Ne.symm h.1, ih h.2]

end Links

/-- Noting an index that is no lower changes nothing. -/
theorem lower_eq_self (h : w.low cell ≤ i) : w.lower cell i = w := by
  have hlinks : (w.lower cell i).links = w.links := by
    refine Std.ExtTreeMap.ext_getElem? fun {x} => ?_
    unfold lower
    rw [getElem?_modify]
    split
    · rename_i hx
      subst hx
      unfold low at h
      cases hl : w.links[x]? with
      | none => rfl
      | some link =>
        rw [hl] at h
        have hle : link.low ≤ i := h
        rw [Option.map_some, Nat.min_eq_left hle]
    · rfl
  calc
    w.lower cell i = { w with links := (w.lower cell i).links } := rfl
    _ = w := by rw [hlinks]

@[simp] theorem unseen_lower : (w.lower cell i).unseen = w.unseen := rfl

@[simp] theorem stack_lower : (w.lower cell i).stack = w.stack := rfl

theorem index_enter_of_ne (h : x ≠ n) : (w.enter n).index x = w.index x := by
  unfold index
  rw [getElem?_links_enter, if_neg h]

theorem low_enter_of_ne (h : x ≠ n) : (w.enter n).low x = w.low x := by
  unfold low
  rw [getElem?_links_enter, if_neg h]

@[simp] theorem index_enter_self (w : LinkWalk) (n : Address) : (w.enter n).index n = w.entered := by
  unfold index
  rw [getElem?_links_enter, if_pos rfl]
  rfl

@[simp] theorem low_enter_self (w : LinkWalk) (n : Address) : (w.enter n).low n = w.entered := by
  unfold low
  rw [getElem?_links_enter, if_pos rfl]
  rfl

/-- What holds of the entered cells between any two steps. -/
structure Consistent (g : Graph) (w : LinkWalk) : Prop where
  mem_stack : ∀ c, c ∈ w.stack ↔ ∃ link, w.links[c]? = some link ∧ link.isOpen = true
  descending : w.stack.Pairwise fun a b => w.index b < w.index a
  index_lt : ∀ c ∈ w.stack, w.index c < w.entered
  of_mem_unseen : ∀ c ∈ w.unseen, c ∈ g.cells ∧ c ∉ w.stack
  past_of_reads : ∀ a b, w.Past a → g.Reads a b → w.Past b
  mem_cycles : ∀ c, c ∈ w.cycles ↔ w.Past c ∧ g.OnCycle c

theorem Consistent.nodup_stack (h : w.Consistent g) : w.stack.Nodup :=
  h.descending.imp fun {a b} hab hne => by
    rw [hne] at hab
    exact Nat.lt_irrefl _ hab

/-- No cell is open twice, so the component of a cell is cut off cleanly. -/
theorem Consistent.not_mem_of_split (h : w.Consistent g) (hs : w.stack = left ++ cell :: below) :
    cell ∉ left ∧ ∀ c ∈ cell :: left, c ∉ below := by
  have hnodup := h.nodup_stack
  rw [hs, List.nodup_append, List.nodup_cons] at hnodup
  obtain ⟨-, ⟨hbelow, -⟩, hdisjoint⟩ := hnodup
  refine ⟨fun hc => hdisjoint cell hc cell List.mem_cons_self rfl, fun c hc hb => ?_⟩
  rcases List.mem_cons.1 hc with rfl | hc
  · exact hbelow hb
  · exact hdisjoint c hc c (List.mem_cons_of_mem cell hb) rfl

theorem Consistent.enter (h : w.Consistent g) (hn : n ∈ w.unseen) :
    (w.enter n).Consistent g := by
  obtain ⟨hcell, hstack⟩ := h.of_mem_unseen n hn
  have hne : ∀ c ∈ w.stack, c ≠ n := fun c hc hcn => hstack (hcn ▸ hc)
  have hunseen : ∀ c, c ∈ (w.enter n).unseen ↔ n ≠ c ∧ c ∈ w.unseen := fun c => by
    simp [LinkWalk.enter, Std.ExtTreeSet.mem_erase]
  have hpast : ∀ c, (w.enter n).Past c ↔ w.Past c := fun c => by
    unfold Past
    rw [hunseen]
    show ¬ _ ∧ c ∉ n :: w.stack ↔ _
    rw [List.mem_cons]
    grind
  constructor
  case mem_stack =>
    intro c
    rw [getElem?_links_enter]
    show c ∈ n :: w.stack ↔ _
    rw [List.mem_cons, h.mem_stack]
    by_cases hc : c = n
    · simp [hc]
    · simp [hc]
  case descending =>
    refine .cons (fun b hb => ?_) ?_
    · rw [index_enter_of_ne (hne b hb), index_enter_self]
      exact h.index_lt b hb
    · refine h.descending.imp_of_mem fun {a b} ha hb hab => ?_
      rwa [index_enter_of_ne (hne a ha), index_enter_of_ne (hne b hb)]
  case index_lt =>
    intro c hc
    show _ < w.entered + 1
    rcases List.mem_cons.1 hc with rfl | hc
    · rw [index_enter_self]
      exact Nat.lt_succ_self _
    · rw [index_enter_of_ne (hne c hc)]
      exact Nat.lt_succ_of_lt (h.index_lt c hc)
  case of_mem_unseen =>
    intro c hc
    obtain ⟨hnc, hc⟩ := (hunseen c).1 hc
    obtain ⟨hcells, hstack⟩ := h.of_mem_unseen c hc
    exact ⟨hcells, fun hmem => (List.mem_cons.1 hmem).elim (fun h => hnc h.symm) hstack⟩
  case past_of_reads =>
    intro a b ha hab
    exact (hpast b).2 (h.past_of_reads a b ((hpast a).1 ha) hab)
  case mem_cycles =>
    intro c
    rw [hpast]
    exact h.mem_cycles c

theorem Consistent.lower (h : w.Consistent g) (cell : Address) (i : Nat) :
    (w.lower cell i).Consistent g := by
  refine ⟨fun c => ?_, ?_, fun c hc => ?_, h.of_mem_unseen, h.past_of_reads, h.mem_cycles⟩
  · rw [stack_lower, h.mem_stack]
    unfold LinkWalk.lower
    simp only [getElem?_modify]
    split
    · simp
    · rfl
  · simpa using h.descending
  · rw [index_lower]
    exact h.index_lt c hc

section Complete

variable (hs : w.stack = left ++ cell :: below) (hleft : cell ∉ left)

include hs hleft

theorem stack_complete : (w.complete g.precedentsOf cell).stack = below := by
  unfold complete
  rw [hs, popTo_append hleft]

theorem getElem?_links_complete : (w.complete g.precedentsOf cell).links[x]? =
    if x ∈ left ++ [cell] then (w.links[x]?).map fun link => { link with isOpen := false }
    else w.links[x]? := by
  unfold complete
  rw [hs, popTo_append hleft, getElem?_foldl_close]

theorem index_complete : (w.complete g.precedentsOf cell).index x = w.index x := by
  unfold index
  rw [getElem?_links_complete hs hleft]
  split
  · cases w.links[x]? <;> rfl
  · rfl

theorem low_complete : (w.complete g.precedentsOf cell).low x = w.low x := by
  unfold low
  rw [getElem?_links_complete hs hleft]
  split
  · cases w.links[x]? <;> rfl
  · rfl

end Complete

/-- A set of cells that lead to each other and to nothing else than cells left before is all that
its cells lead to and are reached from. -/
theorem mem_of_mutual (h : w.Consistent g) (hs : w.stack = left ++ cell :: below)
    (hclosed : ∀ c ∈ cell :: left, ∀ z, g.Reads c z → z ∉ w.unseen ∧ z ∉ below)
    (hz : g.Mutual cell z) : z ∈ cell :: left := by
  have hpast : ∀ {a b}, w.Past a → ReflTransGen g.Reads a b → w.Past b := by
    intro a b ha hab
    induction hab with
    | refl => exact ha
    | tail _ hbc ih => exact h.past_of_reads _ _ ih hbc
  have hreach : ∀ b, ReflTransGen g.Reads cell b → b ∈ cell :: left ∨ w.Past b := by
    intro b hb
    induction hb with
    | refl => exact .inl List.mem_cons_self
    | @tail b c _ hbc ih =>
      rcases ih with hb | hb
      · obtain ⟨hunseen, hbelow⟩ := hclosed b hb c hbc
        by_cases hc : c ∈ cell :: left
        · exact .inl hc
        · refine .inr ⟨hunseen, fun hstack => ?_⟩
          rw [hs, List.mem_append, List.mem_cons] at hstack
          rw [List.mem_cons, not_or] at hc
          tauto
      · exact .inr (h.past_of_reads b c hb hbc)
  refine (hreach z hz.1).resolve_right fun hpz => (hpast hpz hz.2).2 ?_
  rw [hs]
  simp

/-- A component of several cells, or of one that leads to itself, is on a cycle. -/
theorem Consistent.onCycle_iff_of_component (h : w.Consistent g)
    (hs : w.stack = left ++ cell :: below) (hmutual : ∀ c ∈ left, g.Mutual cell c)
    (hclosed : ∀ c ∈ cell :: left, ∀ z, g.Reads c z → z ∉ w.unseen ∧ z ∉ below) :
    (decide (1 < (left ++ [cell]).length) || (g.precedentsOf cell).contains cell) = true ↔
      g.OnCycle cell := by
  have hleft := (h.not_mem_of_split hs).1
  rw [Bool.or_eq_true, decide_eq_true_eq, List.contains_iff_mem, Graph.onCycle_iff, or_comm]
  refine or_congr Iff.rfl ?_
  rw [List.length_append, List.length_singleton, Nat.lt_add_left_iff_pos,
    List.length_pos_iff_exists_mem]
  constructor
  · rintro ⟨c, hc⟩
    exact ⟨c, fun hne => hleft (hne ▸ hc), hmutual c hc⟩
  · rintro ⟨c, hne, hc⟩
    exact ⟨c, (List.mem_cons.1 (mem_of_mutual h hs hclosed hc)).resolve_left hne⟩

theorem Consistent.past_complete (h : w.Consistent g) (hs : w.stack = left ++ cell :: below) :
    (w.complete g.precedentsOf cell).Past x ↔ w.Past x ∨ x ∈ cell :: left := by
  obtain ⟨hleft, happart⟩ := h.not_mem_of_split hs
  have hmem : x ∈ w.stack ↔ x ∈ cell :: left ∨ x ∈ below := by
    rw [hs, List.mem_append, List.mem_cons, List.mem_cons]
    tauto
  have hunseen : x ∈ cell :: left → x ∉ w.unseen := fun hx hu =>
    (h.of_mem_unseen x hu).2 (hmem.2 (.inl hx))
  unfold Past
  rw [stack_complete hs hleft, hmem]
  show x ∉ w.unseen ∧ x ∉ below ↔ _
  have := happart x
  tauto

section Order

variable (h : w.Consistent g) (hs : w.stack = left ++ cell :: below)
  (hmutual : ∀ c ∈ left, g.Mutual cell c)
  (hclosed : ∀ c ∈ cell :: left, ∀ z, g.Reads c z → z ∉ w.unseen ∧ z ∉ below)

include h hs hmutual hclosed

theorem Consistent.order_complete : (w.complete g.precedentsOf cell).order =
    open Classical in if g.OnCycle cell then w.order else cell :: w.order := by
  have htest := h.onCycle_iff_of_component hs hmutual hclosed
  unfold LinkWalk.complete
  rw [hs, popTo_append (h.not_mem_of_split hs).1]
  dsimp only
  by_cases hc : g.OnCycle cell
  · rw [if_pos hc, if_pos (htest.2 hc)]
  · rw [if_neg hc, if_neg (mt htest.1 hc)]

theorem Consistent.mem_cycles_complete : x ∈ (w.complete g.precedentsOf cell).cycles ↔
    x ∈ w.cycles ∨ x ∈ cell :: left ∧ g.OnCycle cell := by
  rw [← h.onCycle_iff_of_component hs hmutual hclosed,
    ← (List.perm_append_singleton cell left).mem_iff]
  unfold LinkWalk.complete
  rw [hs, popTo_append (h.not_mem_of_split hs).1]
  dsimp only
  split <;> simp_all

/-- A component that its cells do not lead out of, except to cells left before, can be completed. -/
theorem Consistent.complete : (w.complete g.precedentsOf cell).Consistent g := by
  obtain ⟨hleft, happart⟩ := h.not_mem_of_split hs
  have hbelow : ∀ c ∈ below, c ∈ w.stack := fun c hc => by simp [hs, hc]
  constructor
  case mem_stack =>
    intro c
    rw [stack_complete hs hleft, getElem?_links_complete hs hleft]
    split
    · rename_i hc
      simp [happart c ((List.perm_append_singleton cell left).mem_iff.1 hc)]
    · rename_i hc
      rw [← h.mem_stack, hs, List.append_cons, List.mem_append, or_iff_right hc]
  case descending =>
    have hd := h.descending
    rw [hs] at hd
    rw [stack_complete hs hleft]
    simpa only [index_complete hs hleft] using (List.pairwise_append.1 hd).2.1.of_cons
  case index_lt =>
    intro c hc
    rw [stack_complete hs hleft] at hc
    rw [index_complete hs hleft]
    exact h.index_lt c (hbelow c hc)
  case of_mem_unseen =>
    intro c hc
    rw [stack_complete hs hleft]
    exact (h.of_mem_unseen c hc).imp_right fun hstack hb => hstack (hbelow c hb)
  case past_of_reads =>
    intro a b ha hab
    rw [h.past_complete hs] at ha ⊢
    rcases ha with ha | ha
    · exact .inl (h.past_of_reads a b ha hab)
    · obtain ⟨hunseen, hb⟩ := hclosed a ha b hab
      rw [← h.past_complete hs, Past, stack_complete hs hleft]
      exact ⟨hunseen, hb⟩
  case mem_cycles =>
    intro c
    have hcycle : c ∈ cell :: left → (g.OnCycle c ↔ g.OnCycle cell) := fun hc => by
      rcases List.mem_cons.1 hc with rfl | hc
      · rfl
      · exact (hmutual c hc).onCycle_iff.symm
    rw [h.mem_cycles_complete hs hmutual hclosed, h.mem_cycles, h.past_complete hs]
    tauto

end Order

end Spreadsheet.LinkWalk
