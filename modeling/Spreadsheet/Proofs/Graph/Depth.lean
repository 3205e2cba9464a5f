import Spreadsheet.Proofs.Graph.Layers

/-!
The number of a cell's layer is the length of the longest chain of reads that leads down from it
through cells on no cycle. A schedule is cut into layers without a gap, even over a graph that it was
not made for.
-/
namespace Spreadsheet

/-- A chain of reads that leads down from a cell through nodes on no cycle. -/
structure Graph.Descends (g : Graph) (cell : Address) (chain : List Address) : Prop where
  isChain : (cell :: chain).IsChain g.Reads
  acyclic : ∀ p ∈ chain, p ∈ g.cells ∧ ¬ g.OnCycle p

/-- Whether layers cut a list of cells: each of its cells is in one layer, no layer is empty, and the
cells of a layer keep their order. -/
structure Layering.Cuts (layers : List (List Address)) (cells : List Address) : Prop where
  existsUnique : ∀ c ∈ cells, ∃! k, c ∈ layers.getD k []
  ne_nil : ∀ layer ∈ layers, layer ≠ []
  sublist : ∀ layer ∈ layers, layer.Sublist cells

namespace Layering

variable {g : Graph} {l : Layering} {order : List Address} {c : Address} {i k : Nat}

/-- Some cell makes the depth after cells what it is. -/
theorem exists_depth_of_depthAfter {cells : List Address} (h : l.depthAfter cells = k + 1) :
    ∃ x ∈ cells, l.depths[x]? = some k := by
  have hle : ¬ l.depthAfter cells ≤ k := by omega
  rw [depthAfter_le_iff] at hle
  push Not at hle
  obtain ⟨x, hx, j, hj, hkj⟩ := hle
  have hjk : j < k + 1 := depthAfter_le_iff.1 (Nat.le_of_eq h) x hx j hj
  have hj' : j = k := by omega
  rw [hj'] at hj
  exact ⟨x, hx, hj⟩

/-- A cell below the first layer reads a cell of the layer before its own, whatever the order. -/
theorem exists_reads_of_depth (ho : order.Nodup) (hc : c ∈ order)
    (h : (order.foldl (place g) ∅).depths[c]? = some (k + 1)) :
    ∃ p ∈ order, g.Reads c p ∧ (order.foldl (place g) ∅).depths[p]? = some k := by
  induction order using List.reverseRecOn with
  | nil => cases hc
  | append_singleton order a ih =>
    rw [List.nodup_append] at ho
    have hne : ∀ x ∈ order, a ≠ x := fun x hx hax => ho.2.2 x hx a (by simp) hax.symm
    rw [List.foldl_append, List.foldl_cons, List.foldl_nil] at h ⊢
    rw [getElem?_depths_place] at h
    simp only [getElem?_depths_place]
    rcases List.mem_append.1 hc with hc | hc
    · rw [if_neg (hne c hc)] at h
      obtain ⟨p, hp, hcp, hpk⟩ := ih ho.1 hc h
      refine ⟨p, List.mem_append_left _ hp, hcp, ?_⟩
      rw [if_neg (hne p hp), hpk]
    · obtain rfl := List.mem_singleton.1 hc
      rw [if_pos rfl] at h
      obtain ⟨p, hcp, hpk⟩ := exists_depth_of_depthAfter (Option.some.inj h)
      have hp : p ∈ order := by
        by_contra hp
        rw [(arranged_foldl g ho.1).depth_of_not_mem p hp] at hpk
        cases hpk
      refine ⟨p, List.mem_append_left _ hp, hcp, ?_⟩
      rw [if_neg (hne p hp), hpk]

/-- No layer is skipped. -/
theorem layer_ne_nil (ho : order.Nodup) (hi : i < (order.foldl (place g) ∅).layers.size) :
    (order.foldl (place g) ∅).layer i ≠ [] := by
  induction order using List.reverseRecOn with
  | nil => cases hi
  | append_singleton order a ih =>
    rw [List.nodup_append] at ho
    have hd := (arranged_foldl g ho.1).depthAfter_le (g.precedentsOf a)
    rw [List.foldl_append, List.foldl_cons, List.foldl_nil] at hi ⊢
    rw [size_layers_place] at hi
    rw [layer_place]
    by_cases hlt : i < (order.foldl (place g) ∅).layers.size
    · exact List.append_ne_nil_of_left_ne_nil (ih ho.1 hlt) _
    · rw [if_pos (by omega)]
      exact List.append_ne_nil_of_right_ne_nil _ (List.cons_ne_nil _ _)

end Layering

namespace Schedule
open Layering

variable {g : Graph} {s : Schedule} {c : Address} {k : Nat}

theorem getD_layers (s : Schedule) (g : Graph) (k : Nat) :
    (s.layers g).getD k [] = (s.layering g).layer k := by
  have hlayers : s.layers g = ((s.layering g).layers.map Array.toList).toList := rfl
  rw [hlayers, layer]
  cases h : (s.layering g).layers[k]? <;> simp [h]

theorem exists_layer_of_mem_order (g : Graph) (hs : s.order.Nodup) (hc : c ∈ s.order) :
    ∃ k, c ∈ (s.layering g).layer k := by
  obtain ⟨k, -, hk⟩ := (arranged_foldl g hs).depth_of_mem c hc
  exact ⟨k, (mem_layer_iff g hs).2 ⟨hc, hk⟩⟩

/-- The layers of a list of cells without repetition cut it, over any graph. -/
theorem cuts_layers (g : Graph) (hs : s.order.Nodup) : Cuts (s.layers g) s.order := by
  have hmem : ∀ layer ∈ s.layers g,
      ∃ i < (s.layering g).layers.size, (s.layering g).layer i = layer := by
    intro layer h
    rw [layers_eq_map_layer] at h
    obtain ⟨i, hi, h⟩ := List.mem_map.1 h
    exact ⟨i, List.mem_range.1 hi, h⟩
  constructor
  · intro c hc
    obtain ⟨k, hk⟩ := exists_layer_of_mem_order g hs hc
    simp only [getD_layers]
    apply ExistsUnique.intro k hk
    intro j hj
    have h := ((mem_layer_iff g hs).1 hj).2
    rw [((mem_layer_iff g hs).1 hk).2] at h
    exact (Option.some.inj h).symm
  · intro layer h
    obtain ⟨i, hi, rfl⟩ := hmem layer h
    exact layer_ne_nil hs hi
  · intro layer h
    obtain ⟨i, -, rfl⟩ := hmem layer h
    have hlayer := (arranged_foldl g hs).layer_eq i
    rw [layering, hlayer]
    exact List.filter_sublist

end Schedule

namespace Graph
open Schedule

variable {g : Graph} {c p : Address} {chain : List Address} {j k : Nat}

theorem Descends.nil (g : Graph) (c : Address) : g.Descends c [] := by
  constructor
  · exact List.isChain_singleton c
  · intro p hp
    cases hp

theorem Descends.cons (h : g.Descends p chain) (hcp : g.Reads c p) (hp : p ∈ g.schedule.order) :
    g.Descends c (p :: chain) := by
  constructor
  · exact List.isChain_cons_cons.2 ⟨hcp, h.isChain⟩
  · intro q hq
    rcases List.mem_cons.1 hq with rfl | hq
    · exact mem_order.1 hp
    · exact h.acyclic q hq

theorem lt_of_reads_of_mem_layer (hc : c ∈ (g.schedule.layering g).layer k)
    (hp : p ∈ (g.schedule.layering g).layer j) (hcp : g.Reads c p) : j < k := by
  have hself : ∀ a ∈ g.schedule.order, ¬ g.Reads a a := by
    intro a ha h
    exact (mem_order.1 ha).2 (.single h)
  by_contra hle
  exact not_reads_of_layer_le g.nodup_order g.pairwise_order hself (Nat.not_lt.1 hle) hc hp hcp

/-- What a cell of a layer reads is in a layer before, lies on a cycle or is no node. -/
theorem exists_layer_of_reads (hc : c ∈ (g.schedule.layering g).layer k) (hcp : g.Reads c p) :
    (∃ j < k, p ∈ (g.schedule.layering g).layer j) ∨ g.OnCycle p ∨ p ∉ g.cells := by
  by_cases hp : p ∈ g.schedule.order
  · obtain ⟨j, hj⟩ := exists_layer_of_mem_order g g.nodup_order hp
    exact .inl ⟨j, lt_of_reads_of_mem_layer hc hj hcp, hj⟩
  · rw [mem_order, not_and_or, not_not] at hp
    exact .inr hp.symm

theorem exists_reads_of_mem_layer (hc : c ∈ (g.schedule.layering g).layer (k + 1)) :
    ∃ p ∈ (g.schedule.layering g).layer k, g.Reads c p := by
  obtain ⟨hc, hck⟩ := (mem_layer_iff g g.nodup_order).1 hc
  obtain ⟨p, hp, hcp, hpk⟩ := Layering.exists_reads_of_depth g.nodup_order hc hck
  exact ⟨p, (mem_layer_iff g g.nodup_order).2 ⟨hp, hpk⟩, hcp⟩

/-- Every step of a chain goes up by a layer at least. -/
theorem Descends.length_le (h : g.Descends c chain) (hc : c ∈ (g.schedule.layering g).layer k) :
    chain.length ≤ k := by
  induction chain generalizing c k with
  | nil => exact Nat.zero_le k
  | cons p chain ih =>
    obtain ⟨hcp, hchain⟩ := List.isChain_cons_cons.1 h.isChain
    have hp : p ∈ g.schedule.order := mem_order.2 (h.acyclic p List.mem_cons_self)
    obtain ⟨j, hj⟩ := exists_layer_of_mem_order g g.nodup_order hp
    have hle : chain.length ≤ j :=
      ih ⟨hchain, fun q hq => h.acyclic q (List.mem_cons_of_mem p hq)⟩ hj
    have hlt : j < k := lt_of_reads_of_mem_layer hc hj hcp
    rw [List.length_cons]
    omega

/-- From layer to layer, a chain leads from a cell to the first layer. -/
theorem exists_descends (hc : c ∈ (g.schedule.layering g).layer k) :
    ∃ chain, g.Descends c chain ∧ chain.length = k := by
  induction k generalizing c with
  | zero => exact ⟨[], Descends.nil g c, rfl⟩
  | succ k ih =>
    obtain ⟨p, hp, hcp⟩ := exists_reads_of_mem_layer hc
    obtain ⟨chain, hchain, hlength⟩ := ih hp
    have hporder := ((mem_layer_iff g g.nodup_order).1 hp).1
    refine ⟨p :: chain, hchain.cons hcp hporder, ?_⟩
    rw [List.length_cons, hlength]

/-- The layers cut the order of a schedule, over any graph. Over its own graph, a cell is in the layer
whose number is the length of the longest chain below it. It reads nothing of its own layer or of a
later one, and some cell of the layer before. -/
theorem layers_schedule (g : Graph) :
    (∀ h : Graph, Layering.Cuts (g.schedule.layers h) g.schedule.order) ∧
      ∀ k, ∀ c ∈ (g.schedule.layers g).getD k [],
        (∀ p, g.Reads c p → (∃ j < k, p ∈ (g.schedule.layers g).getD j []) ∨
          g.OnCycle p ∨ p ∉ g.cells) ∧
        IsGreatest {n | ∃ chain, g.Descends c chain ∧ chain.length = n} k ∧
        (0 < k → ∃ p ∈ (g.schedule.layers g).getD (k - 1) [], g.Reads c p) := by
  constructor
  · intro h
    exact cuts_layers h g.nodup_order
  · intro k c hc
    simp only [getD_layers] at hc ⊢
    refine ⟨fun p => exists_layer_of_reads hc, ⟨exists_descends hc, ?_⟩, ?_⟩
    · rintro n ⟨chain, hchain, rfl⟩
      exact hchain.length_le hc
    · intro hk
      obtain ⟨k, rfl⟩ := Nat.exists_eq_add_one.2 hk
      exact exists_reads_of_mem_layer hc

/-- `C1` reads `D1`, which lies on a cycle, and `B1`, which reads `A1` and the empty `E1`. -/
theorem layers_schedule_of_chain :
    let g := ofFormulas
      [(⟨0, 0⟩, .literal 1), (⟨0, 1⟩, .binary .add (.reference ⟨0, 0⟩) (.reference ⟨0, 4⟩)),
       (⟨0, 2⟩, .binary .add (.reference ⟨0, 1⟩) (.reference ⟨0, 3⟩)), (⟨0, 3⟩, .reference ⟨0, 3⟩)]
    g.schedule.layers g = [[⟨0, 0⟩], [⟨0, 1⟩], [⟨0, 2⟩]] ∧
      Layering.Cuts (g.schedule.layers ∅) g.schedule.order ∧
      IsGreatest {n | ∃ chain, g.Descends ⟨0, 2⟩ chain ∧ chain.length = n} 2 ∧
      ∃ p ∈ (g.schedule.layers g).getD 1 [], g.Reads ⟨0, 2⟩ p := by
  intro g
  have hlayers : g.schedule.layers g = [[⟨0, 0⟩], [⟨0, 1⟩], [⟨0, 2⟩]] := by
    unfold g
    cbv
  have hc : ⟨0, 2⟩ ∈ (g.schedule.layers g).getD 2 [] := by
    rw [hlayers]
    exact List.mem_singleton.2 rfl
  obtain ⟨hcuts, hlayer⟩ := layers_schedule g
  obtain ⟨-, hgreatest, hreads⟩ := hlayer 2 ⟨0, 2⟩ hc
  exact ⟨hlayers, hcuts ∅, hgreatest, hreads Nat.two_pos⟩

end Graph

end Spreadsheet
