import Spreadsheet.Proofs.Graph.Schedule

/-! The layers of a schedule hold its order, and no cell reads its own layer or a later one. -/
namespace Spreadsheet

namespace Layering

/-- The cells of a layer. -/
def layer (l : Layering) (i : Nat) : List Address := (l.layers[i]?.getD #[]).toList

/-- The layers hold the placed cells, each in the layer of its depth and in the order of
placing. -/
structure Arranged (placed : List Address) (l : Layering) : Prop where
  depth_of_not_mem : ∀ c, c ∉ placed → l.depths[c]? = none
  depth_of_mem : ∀ c ∈ placed, ∃ d < l.layers.size, l.depths[c]? = some d
  layer_eq : ∀ i, l.layer i = placed.filter fun c => l.depths[c]? = some i

variable {g : Graph} {l : Layering} {placed : List Address} {c : Address}

theorem depthAfter_le_iff {cells : List Address} {n : Nat} :
    l.depthAfter cells ≤ n ↔ ∀ x ∈ cells, ∀ k, l.depths[x]? = some k → k < n := by
  have h : ∀ m, cells.foldl (fun depth x => max depth (l.depths[x]?.elim 0 (· + 1))) m ≤ n ↔
      m ≤ n ∧ ∀ x ∈ cells, ∀ k, l.depths[x]? = some k → k < n := by
    induction cells with
    | nil => simp
    | cons x cells ih =>
      intro m
      rw [List.foldl_cons, ih, Nat.max_le, List.forall_mem_cons, and_assoc]
      cases l.depths[x]? <;> simp
  exact (h 0).trans (by simp)

theorem Arranged.depthAfter_le (h : Arranged placed l) (cells : List Address) :
    l.depthAfter cells ≤ l.layers.size := by
  refine depthAfter_le_iff.2 fun x _ k hk => ?_
  by_cases hx : x ∈ placed
  · obtain ⟨d, hd, hdx⟩ := h.depth_of_mem x hx
    rw [hk] at hdx
    exact Option.some.inj hdx ▸ hd
  · simp [h.depth_of_not_mem x hx] at hk

theorem getElem?_depths_place (x : Address) :
    (place g l c).depths[x]? =
      if c = x then some (l.depthAfter (g.precedentsOf c)) else l.depths[x]? := by
  simp [place, Std.ExtTreeMap.getElem?_insert]

theorem size_grow (l : Layering) (n : Nat) : (l.grow n).size = max l.layers.size n := by
  rw [grow, Array.size_append, Array.size_replicate]
  omega

theorem getD_grow (l : Layering) (n i : Nat) : (l.grow n)[i]?.getD #[] = l.layers[i]?.getD #[] := by
  rw [grow]
  by_cases hi : i < l.layers.size
  · rw [Array.getElem?_append_left hi]
  · rw [Array.getElem?_append_right (Nat.le_of_not_lt hi), Array.getElem?_replicate,
      Array.getElem?_eq_none (Nat.le_of_not_lt hi)]
    split <;> rfl

theorem size_layers_place (g : Graph) (l : Layering) (c : Address) :
    (place g l c).layers.size = max l.layers.size (l.depthAfter (g.precedentsOf c) + 1) := by
  rw [place, Array.size_modify, size_grow]

theorem layer_place (g : Graph) (l : Layering) (c : Address) (i : Nat) :
    (place g l c).layer i =
      l.layer i ++ if l.depthAfter (g.precedentsOf c) = i then [c] else [] := by
  have hgrown := getD_grow l (l.depthAfter (g.precedentsOf c) + 1) i
  have hsize := size_grow l (l.depthAfter (g.precedentsOf c) + 1)
  rw [layer, layer, place, ← hgrown, Array.getElem?_modify]
  by_cases hi : l.depthAfter (g.precedentsOf c) = i
  · have hlt : i < (l.grow (l.depthAfter (g.precedentsOf c) + 1)).size := by omega
    rw [if_pos hi, if_pos hi, Array.getElem?_eq_getElem hlt, Option.map_some, Option.getD_some,
      Option.getD_some, Array.toList_push]
  · rw [if_neg hi, if_neg hi, List.append_nil]

theorem Arranged.place (h : Arranged placed l) (hc : c ∉ placed) :
    Arranged (placed ++ [c]) (place g l c) := by
  have hne : ∀ x ∈ placed, c ≠ x := fun x hx hcx => hc (hcx ▸ hx)
  refine ⟨fun x hx => ?_, fun x hx => ?_, fun i => ?_⟩
  · simp only [List.mem_append, List.mem_singleton, not_or] at hx
    rw [getElem?_depths_place, if_neg (Ne.symm hx.2)]
    exact h.depth_of_not_mem x hx.1
  · rw [getElem?_depths_place, size_layers_place]
    rcases List.mem_append.1 hx with hx | hx
    · obtain ⟨d, hd, hdx⟩ := h.depth_of_mem x hx
      exact ⟨d, by omega, by rw [if_neg (hne x hx), hdx]⟩
    · exact ⟨l.depthAfter (g.precedentsOf c), by omega, if_pos (List.mem_singleton.1 hx).symm⟩
  · rw [layer_place, h.layer_eq, List.filter_append]
    congr 1
    · refine List.filter_congr fun x hx => ?_
      rw [getElem?_depths_place, if_neg (hne x hx)]
    · rw [List.filter_singleton, getElem?_depths_place, if_pos rfl]
      simp

theorem arranged_empty : Arranged [] ∅ :=
  ⟨fun _ _ => Std.ExtTreeMap.getElem?_empty, by simp, fun _ => rfl⟩

theorem arranged_foldl (g : Graph) {order : List Address} (ho : order.Nodup) :
    Arranged order (order.foldl (Layering.place g) ∅) := by
  induction order using List.reverseRecOn with
  | nil => exact arranged_empty
  | append_singleton order c ih =>
    rw [List.nodup_append] at ho
    rw [List.foldl_append]
    exact (ih ho.1).place fun hc => ho.2.2 c hc c (by simp) rfl

/-- A cell that was placed after the cells that it reads is deeper than these. -/
theorem depth_lt {order : List Address} (ho : order.Nodup)
    (hr : order.Pairwise fun a b => ¬ g.Reads a b) {a b : Address} (ha : a ∈ order)
    (hab : g.Reads a b) (hne : a ≠ b) {j k : Nat}
    (hj : (order.foldl (Layering.place g) ∅).depths[a]? = some j)
    (hk : (order.foldl (Layering.place g) ∅).depths[b]? = some k) : k < j := by
  induction order using List.reverseRecOn with
  | nil => simp at ha
  | append_singleton order c ih =>
    rw [List.nodup_append] at ho
    rw [List.pairwise_append] at hr
    rw [List.foldl_append, List.foldl_cons, List.foldl_nil, getElem?_depths_place] at hj hk
    rcases List.mem_append.1 ha with ha | ha
    · have hca : c ≠ a := fun h => ho.2.2 a ha c (by simp) h.symm
      have hcb : c ≠ b := fun h => hr.2.2 a ha c (by simp) (h ▸ hab)
      rw [if_neg hca] at hj
      rw [if_neg hcb] at hk
      exact ih ho.1 hr.1 ha hj hk
    · obtain rfl := List.mem_singleton.1 ha
      rw [if_pos rfl] at hj
      rw [if_neg hne] at hk
      have h := depthAfter_le_iff.1 (Nat.le_of_eq (Option.some.inj hj)) b hab k hk
      exact h

end Layering

namespace Schedule
open Layering

variable {g : Graph} {s : Schedule}

/-- The layers of a schedule and the depths of its cells. -/
def layering (s : Schedule) (g : Graph) : Layering := s.order.foldl (place g) ∅

theorem layers_eq_map_layer (s : Schedule) (g : Graph) :
    s.layers g = (List.range (s.layering g).layers.size).map (s.layering g).layer := by
  have hlayers : s.layers g = ((s.layering g).layers.map Array.toList).toList := rfl
  rw [hlayers]
  refine List.ext_getElem (by simp) fun i hi _ => ?_
  have hi : i < (s.layering g).layers.size := by simpa using hi
  simp [layer, hi]

/-- Where a cell of a layer stands: it is listed, and its depth is the number of the layer. -/
theorem mem_layer_iff (g : Graph) (hs : s.order.Nodup) {i : Nat} {c : Address} :
    c ∈ (s.layering g).layer i ↔ c ∈ s.order ∧ (s.layering g).depths[c]? = some i := by
  have hlayer := (arranged_foldl g hs).layer_eq i
  rw [layering, hlayer]
  simp

theorem nodup_layer (g : Graph) (hs : s.order.Nodup) (i : Nat) :
    ((s.layering g).layer i).Nodup := by
  have hlayer := (arranged_foldl g hs).layer_eq i
  rw [layering, hlayer]
  exact hs.filter _

/-- The layers hold the cells of the order, each once. -/
theorem flatten_layers_perm (g : Graph) (hs : s.order.Nodup) :
    (s.layers g).flatten.Perm s.order := by
  rw [layers_eq_map_layer]
  refine (List.perm_ext_iff_of_nodup ?_ hs).2 fun c => ?_
  · refine List.nodup_flatten.2 ⟨fun L hL => ?_, ?_⟩
    · obtain ⟨i, -, rfl⟩ := List.mem_map.1 hL
      exact nodup_layer g hs i
    · refine List.pairwise_map.2 (List.nodup_range.imp fun hij c hc hc' => hij ?_)
      have h := ((mem_layer_iff g hs).1 hc).2
      rw [((mem_layer_iff g hs).1 hc').2] at h
      exact (Option.some.inj h).symm
  · simp only [List.mem_flatten, List.mem_map, List.mem_range]
    constructor
    · rintro ⟨_, ⟨i, -, rfl⟩, hc⟩
      exact ((mem_layer_iff g hs).1 hc).1
    · intro hc
      obtain ⟨d, hd, hdc⟩ := (arranged_foldl g hs).depth_of_mem c hc
      exact ⟨_, ⟨d, hd, rfl⟩, (mem_layer_iff g hs).2 ⟨hc, hdc⟩⟩

/-- No cell reads its own layer or a later one, as long as it stands after what it reads. -/
theorem not_reads_of_layer_le (hs : s.order.Nodup) (hr : s.order.Pairwise fun a b => ¬ g.Reads a b)
    (hself : ∀ a ∈ s.order, ¬ g.Reads a a) {i j : Nat} {a b : Address} (hij : i ≤ j)
    (ha : a ∈ (s.layering g).layer i) (hb : b ∈ (s.layering g).layer j) : ¬ g.Reads a b := by
  intro hab
  obtain ⟨ha, hda⟩ := (mem_layer_iff g hs).1 ha
  have hne : a ≠ b := fun h => hself a ha (h ▸ hab)
  have h := depth_lt hs hr ha hab hne hda ((mem_layer_iff g hs).1 hb).2
  omega

end Schedule

end Spreadsheet
