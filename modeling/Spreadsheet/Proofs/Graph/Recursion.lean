import Spreadsheet.Proofs.Graph.Strict

/-!
A depth-first search as a plain recursion. The walks over frames do what it does: a schedule lists
the cells on no cycle in the order in which the recursion finishes them, and ordering all cells
fails where the recursion first meets a cell that it is still visiting.
-/
namespace Spreadsheet

/-- Whether a cell comes before another one row by row and, within a row, from left to right. -/
def Address.Before (a b : Address) : Prop := a.row < b.row ∨ a.row = b.row ∧ a.col < b.col

theorem Address.before_of_compare {a b : Address} (h : compare a b = .lt) : a.Before b := by
  rw [compare_def] at h
  unfold Before
  cases hrow : compare a.row b.row with
  | lt => exact .inl (Std.compare_eq_lt.1 hrow)
  | eq =>
    rw [hrow] at h
    exact .inr ⟨Std.LawfulEqCmp.compare_eq_iff_eq.1 hrow, Std.compare_eq_lt.1 h⟩
  | gt =>
    rw [hrow] at h
    cases h

/-- What a recursive search has done so far. -/
structure Tour where
  unvisited : AddressSet
  /-- The cells in the order in which they were finished. -/
  finished : List Address
  /-- The targets of the edges to cells that were still being visited, in the order in which these
  edges were met. -/
  closing : List Address

namespace Tour

def start (cells : AddressSet) : Tour := ⟨cells, [], []⟩

def enter (t : Tour) (cell : Address) : Tour := { t with unvisited := t.unvisited.erase cell }

def finish (t : Tour) (cell : Address) : Tour := { t with finished := t.finished ++ [cell] }

def close (t : Tour) (cell : Address) : Tour := { t with closing := t.closing ++ [cell] }

/-- Looks at cells in turn while the cells of `path` are being visited. A cell that has not been
visited is entered, the cells after it are looked at, and it is finished. -/
def look (next : Address → List Address) (path : List Address) (t : Tour) :
    List Address → { t' : Tour // t'.unvisited.size ≤ t.unvisited.size }
  | [] => ⟨t, Nat.le_refl _⟩
  | c :: cs =>
    if h : c ∈ t.unvisited then
      have hlt : (t.enter c).unvisited.size < t.unvisited.size := Walk.size_erase_lt h
      let inner := look next (c :: path) (t.enter c) (next c)
      have hle := Nat.lt_of_le_of_lt inner.2 hlt
      let rest := look next path (inner.1.finish c) cs
      ⟨rest.1, Nat.le_trans rest.2 (Nat.le_of_lt hle)⟩
    else if c ∈ path then
      let rest := look next path (t.close c) cs
      ⟨rest.1, rest.2⟩
    else look next path t cs
termination_by cs => (t.unvisited.size, cs.length)
decreasing_by
  · exact Prod.Lex.left _ _ hlt
  · exact Prod.Lex.left _ _ hle
  · exact Prod.Lex.right _ (Nat.lt_succ_self _)
  · exact Prod.Lex.right _ (Nat.lt_succ_self _)

variable {next : Address → List Address} {path cs : List Address} {t : Tour} {c : Address}

theorem look_nil : (look next path t []).1 = t := by
  rw [look]

theorem look_cons_of_mem (h : c ∈ t.unvisited) : (look next path t (c :: cs)).1 =
    (look next path ((look next (c :: path) (t.enter c) (next c)).1.finish c) cs).1 := by
  rw [look, dif_pos h]

theorem look_cons_of_mem_path (h : c ∉ t.unvisited) (hp : c ∈ path) :
    (look next path t (c :: cs)).1 = (look next path (t.close c) cs).1 := by
  rw [look, dif_neg h, if_pos hp]

theorem look_cons_of_not_mem (h : c ∉ t.unvisited) (hp : c ∉ path) :
    (look next path t (c :: cs)).1 = (look next path t cs).1 := by
  rw [look, dif_neg h, if_neg hp]

/-- A walk and a tour that have done the same, where the cells of `path` are being visited. -/
structure Matches (w : Walk) (path : List Address) (t : Tour) : Prop where
  unseen_eq : w.unseen = t.unvisited
  mem_active : ∀ x, x ∈ w.active ↔ x ∈ path
  finished_eq : w.finished.reverse = t.finished
  closing_eq : w.closing? = t.closing.head?

section Matches

variable {w w' : Walk} {n : Address}

theorem Matches.enter (h : Matches w path t) (n : Address) :
    Matches (w.enter n) (n :: path) (t.enter n) := by
  constructor
  case unseen_eq => exact congrArg (·.erase n) h.unseen_eq
  case mem_active =>
    intro x
    rw [Walk.mem_active_enter, h.mem_active, List.mem_cons, eq_comm]
  case finished_eq => exact h.finished_eq
  case closing_eq => exact h.closing_eq

theorem Matches.leave (h : Matches w (n :: path) t) (hn : n ∉ path) :
    Matches (w.leave n) path (t.finish n) := by
  constructor
  case unseen_eq => exact h.unseen_eq
  case mem_active =>
    intro x
    unfold Walk.leave
    rw [Std.ExtTreeSet.mem_erase, h.mem_active, List.mem_cons]
    grind
  case finished_eq =>
    rw [Walk.finished_leave, List.reverse_cons, h.finished_eq]
    rfl
  case closing_eq => exact h.closing_eq

/-- The walk keeps the first target of an edge to a cell on the path only. -/
theorem Matches.skip (h : Matches w path t) (hn : n ∈ path) :
    Matches (w.skip n) path (t.close n) := by
  constructor
  case unseen_eq =>
    rw [Walk.unseen_skip]
    exact h.unseen_eq
  case mem_active =>
    rw [Walk.active_skip]
    exact h.mem_active
  case finished_eq =>
    rw [Walk.finished_skip]
    exact h.finished_eq
  case closing_eq =>
    have hactive := (h.mem_active n).2 hn
    have hclosing := h.closing_eq
    unfold Walk.skip close
    cases hc : t.closing with
    | nil =>
      rw [hc] at hclosing
      rw [if_pos ⟨by rw [hclosing]; rfl, hactive⟩]
      rfl
    | cons c l =>
      rw [hc] at hclosing
      rw [if_neg (by rw [hclosing]; simp)]
      exact hclosing

/-- A walk that looks at cells does what the recursion over those of them does that are nodes. -/
theorem matches_look {p : Address → Bool} (h : Walk.Looks next w cs w') (hm : Matches w path t)
    (hu : ∀ x ∈ w.unseen, p x = true ∧ x ∉ path) (hp : ∀ x ∈ path, p x = true) :
    Matches w' path (look (fun c => (next c).filter p) path t (cs.filter p)).1 := by
  induction h generalizing path t with
  | nil w =>
    rw [List.filter_nil, look_nil]
    exact hm
  | @enter w w₁ w₂ n ns hn h₁ _ ih₁ ih₂ =>
    obtain ⟨hpn, hnpath⟩ := hu n hn
    rw [List.filter_cons_of_pos hpn, look_cons_of_mem (hm.unseen_eq ▸ hn)]
    have hu₁ : ∀ x ∈ (w.enter n).unseen, p x = true ∧ x ∉ n :: path := by
      intro x hx
      obtain ⟨hne, hx⟩ := Walk.mem_unseen_enter.1 hx
      obtain ⟨hpx, hxpath⟩ := hu x hx
      refine ⟨hpx, fun hmem => ?_⟩
      exact (List.mem_cons.1 hmem).elim (fun h => hne h.symm) hxpath
    have hp₁ : ∀ x ∈ n :: path, p x = true := List.forall_mem_cons.2 ⟨hpn, hp⟩
    apply ih₂ ((ih₁ (hm.enter n) hu₁ hp₁).leave hnpath) _ hp
    intro x hx
    exact hu x (Walk.mem_unseen_enter.1 (h₁.mem_unseen hx)).2
  | @skip w w₁ n ns hn _ ih =>
    have hu' : ∀ x ∈ (w.skip n).unseen, p x = true ∧ x ∉ path := by
      rw [Walk.unseen_skip]
      exact hu
    have hskip : n ∉ path → w.skip n = w := fun hpath =>
      Walk.skip_of_not_mem (mt (hm.mem_active n).1 hpath)
    have hn' : n ∉ t.unvisited := hm.unseen_eq ▸ hn
    by_cases hpath : n ∈ path
    · rw [List.filter_cons_of_pos (hp n hpath), look_cons_of_mem_path hn' hpath]
      exact ih (hm.skip hpath) hu' hp
    · have hm' : Matches (w.skip n) path t := by
        rw [hskip hpath]
        exact hm
      by_cases hpn : p n = true
      · rw [List.filter_cons_of_pos hpn, look_cons_of_not_mem hn' hpath]
        exact ih hm' hu' hp
      · rw [List.filter_cons_of_neg hpn]
        exact ih hm' hu' hp

end Matches

end Tour

namespace Graph

/-- The nodes that a cell reads. -/
def nodesReadBy (g : Graph) (c : Address) : List Address := (g.precedentsOf c).filter g.contains

/-- The recursive search from every node along the nodes that are read. -/
def tour (g : Graph) : Tour := (Tour.look g.nodesReadBy [] (.start g.nodes) g.cells).1

theorem matches_tour (g : Graph) : Tour.Matches g.search [] g.tour := by
  have hcells : g.cells.filter g.contains = g.cells := by
    refine List.filter_eq_self.2 fun c hc => ?_
    exact mem_cells.1 hc
  have hstart : Tour.Matches (Walk.start g.nodes) [] (.start g.nodes) :=
    ⟨rfl, fun x => iff_of_false (not_mem_active_start _ x) List.not_mem_nil, rfl, rfl⟩
  have h := Tour.matches_look (p := g.contains) g.looks_search hstart
    (fun x hx => ⟨mem_cells.1 (mem_nodes.1 hx), List.not_mem_nil⟩) (by simp)
  rw [hcells] at h
  exact h

/-- The order of a schedule is that in which a recursive search finishes the cells, without the cells
on cycles. Ordering all cells fails exactly if that search meets a cell that it is still visiting, and
names the first one. The search begins at the nodes and goes on to the nodes that a cell reads, both
in row-major order, and finishes every node once. -/
theorem order_eq_finished_tour (g : Graph) :
    (g.cells.Pairwise Address.Before ∧ ∀ c, (g.nodesReadBy c).Pairwise Address.Before) ∧
      (g.tour.finished.Nodup ∧ ∀ c, c ∈ g.tour.finished ↔ c ∈ g.cells) ∧
      (open Classical in g.schedule.order = g.tour.finished.filter fun c => ¬ g.OnCycle c) ∧
      g.order = match g.tour.closing with
        | [] => .ok g.tour.finished
        | c :: _ => .error (.circularReference c) := by
  have hm := g.matches_tour
  have hfinished : g.tour.finished = g.search.finished.reverse := hm.finished_eq.symm
  refine ⟨⟨?_, fun c => ?_⟩, ?_, ?_, ?_⟩
  · exact Std.ExtTreeMap.ordered_keys.imp Address.before_of_compare
  · exact List.Pairwise.filter _ (Std.ExtTreeSet.ordered_toList.imp Address.before_of_compare)
  · rw [hfinished, List.nodup_reverse]
    simpa only [List.mem_reverse] using g.finished_search
  · rw [hfinished, order_schedule]
    exact List.filter_congr fun c _ => decide_eq_decide.2 (not_congr mem_cycles)
  · rw [order, hfinished, hm.closing_eq]
    cases g.tour.closing <;> rfl

/-- `A1` and `B1` read each other, and `C1` reads `A1` and the empty cell `D1`. -/
example :
    let g := ofFormulas [(⟨0, 0⟩, .reference ⟨0, 1⟩), (⟨0, 1⟩, .reference ⟨0, 0⟩),
      (⟨0, 2⟩, .binary .add (.reference ⟨0, 0⟩) (.reference ⟨0, 3⟩))]
    (g.tour.finished, g.tour.closing) = ([⟨0, 1⟩, ⟨0, 0⟩, ⟨0, 2⟩], [⟨0, 0⟩]) := by
  cbv

end Graph

end Spreadsheet
