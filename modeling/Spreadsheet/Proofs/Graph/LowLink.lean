import Spreadsheet.Proofs.Graph.Links
import Spreadsheet.Proofs.Graph.Walk

/-!
Low-links find the roots of components. Between two steps the open cells are cut into territories,
one for each cell on the path: the cell and what was left since and is in its component. A step
changes the territory on top, and leaving a cell either completes its territory or leaves it to the
cell before.
-/
namespace Spreadsheet.LinkWalk

open Relation

variable {g : Graph} {w w' : LinkWalk} {v : Walk} {path : List Frame}
  {stack left below : List Address} {c cell n z : Address}

/-- Whether a cell that is looked at has been entered and, if it is open and below, has been noted in
the low-link of `cell`. -/
def Noted (w : LinkWalk) (cell : Address) (below : List Address) (z : Address) : Prop :=
  z ∉ w.unseen ∧ (z ∈ below → w.low cell ≤ w.index z)

/-- The open cells from a cell on the path to the next one above it: the cells left since, which are
in the component of the cell. -/
structure Territory (g : Graph) (w : LinkWalk) (frame : Frame) (left below : List Address) :
    Prop where
  reads_pending : ∀ n ∈ frame.pending, g.Reads frame.cell n
  mutual_left : ∀ c ∈ left, g.Mutual frame.cell c
  low_eq : w.low frame.cell = w.index frame.cell ∨
    ∃ z ∈ below, w.index z = w.low frame.cell ∧ ReflTransGen g.Reads frame.cell z
  noted_left : ∀ c ∈ left, ∀ z, g.Reads c z → w.Noted frame.cell below z
  noted : ∀ z, g.Reads frame.cell z → z ∉ frame.pending → w.Noted frame.cell below z

/-- Whether the open cells are the territories of the cells on a path. -/
def Spans (g : Graph) (w : LinkWalk) : List Frame → List Address → Prop
  | [], stack => stack = []
  | frame :: path, stack => ∃ left below, stack = left ++ frame.cell :: below ∧
      Territory g w frame left below ∧ (∀ parent ∈ path.head?, g.Reads parent.cell frame.cell) ∧
      Spans g w path below

/-- Territories stay as they are while other cells are entered and noted. -/
theorem Spans.congr (h : Spans g w path stack) (hindex : ∀ c ∈ stack, w'.index c = w.index c)
    (hlow : ∀ c ∈ stack, w'.low c = w.low c) (hunseen : ∀ c ∈ w'.unseen, c ∈ w.unseen) :
    Spans g w' path stack := by
  induction path generalizing stack with
  | nil => exact h
  | cons frame path ih =>
    obtain ⟨left, below, rfl, ht, hread, hbelow⟩ := h
    have hcell : frame.cell ∈ left ++ frame.cell :: below := by simp
    have hin : ∀ c ∈ below, c ∈ left ++ frame.cell :: below := fun c hc => by simp [hc]
    have hnoted : ∀ z, w.Noted frame.cell below z → w'.Noted frame.cell below z := by
      intro z hz
      refine ⟨mt (hunseen z) hz.1, fun hb => ?_⟩
      rw [hlow _ hcell, hindex _ (hin z hb)]
      exact hz.2 hb
    refine ⟨left, below, rfl, ⟨ht.reads_pending, ht.mutual_left, ?_, ?_, ?_⟩, hread,
      ih hbelow (fun c hc => hindex c (hin c hc)) fun c hc => hlow c (hin c hc)⟩
    · rw [hlow _ hcell, hindex _ hcell]
      refine ht.low_eq.imp_right ?_
      rintro ⟨z, hz, hzi, hr⟩
      exact ⟨z, hz, (hindex z (hin z hz)).trans hzi, hr⟩
    · exact fun c hc z hz => hnoted z (ht.noted_left c hc z hz)
    · exact fun z hz hp => hnoted z (ht.noted z hz hp)

/-- Every open cell leads to the last cell on the path. -/
theorem Spans.reaches {frame : Frame} (h : Spans g w (frame :: path) stack) (hz : z ∈ stack) :
    ReflTransGen g.Reads z frame.cell := by
  induction path generalizing frame stack with
  | nil =>
    obtain ⟨left, below, rfl, ht, -, rfl⟩ := h
    rcases List.mem_append.1 hz with hz | hz
    · exact (ht.mutual_left z hz).2
    · rw [List.mem_singleton.1 hz]
  | cons parent path ih =>
    obtain ⟨left, below, rfl, ht, hread, hbelow⟩ := h
    rcases List.mem_append.1 hz with hz | hz
    · exact (ht.mutual_left z hz).2
    rcases List.mem_cons.1 hz with rfl | hz
    · exact .refl
    · exact (ih hbelow hz).tail (hread parent rfl)

theorem index_lt_of_append (h : w.Consistent g) (hs : w.stack = left ++ cell :: below) :
    (∀ c ∈ left, w.index cell < w.index c) ∧ ∀ c ∈ below, w.index c < w.index cell := by
  have hd := h.descending
  rw [hs, List.pairwise_append, List.pairwise_cons] at hd
  exact ⟨fun c hc => hd.2.2 c hc cell List.mem_cons_self, hd.2.1.1⟩

theorem Territory.low_le {frame : Frame} (ht : Territory g w frame left below)
    (hlt : ∀ c ∈ below, w.index c < w.index frame.cell) :
    w.low frame.cell ≤ w.index frame.cell := by
  rcases ht.low_eq with hl | ⟨z, hz, hzi, -⟩
  · exact Nat.le_of_eq hl
  · rw [← hzi]
    exact Nat.le_of_lt (hlt z hz)

/-- A neighbour that has been noted is no longer pending. -/
theorem Spans.advance {pending : List Address} (h : Spans g w (⟨cell, n :: pending⟩ :: path) stack)
    (hunseen : n ∉ w.unseen) (hnoted : n ∈ stack → w.low cell ≤ w.index n) :
    Spans g w (⟨cell, pending⟩ :: path) stack := by
  obtain ⟨left, below, rfl, ht, hrest⟩ := h
  refine ⟨left, below, rfl, ⟨fun m hm => ht.reads_pending m (List.mem_cons_of_mem n hm),
    ht.mutual_left, ht.low_eq, ht.noted_left, fun z hz hp => ?_⟩, hrest⟩
  by_cases hzn : z = n
  · subst hzn
    exact ⟨hunseen, fun hb => hnoted (by simp [hb])⟩
  · refine ht.noted z hz fun hmem => ?_
    exact (List.mem_cons.1 hmem).elim hzn hp

theorem Spans.enter (h : Spans g w path w.stack) (hc : w.Consistent g) (hn : n ∈ w.unseen)
    (hread : ∀ parent ∈ path.head?, g.Reads parent.cell n) :
    Spans g (w.enter n) (⟨n, g.precedentsOf n⟩ :: path) (w.enter n).stack := by
  have hne : ∀ c ∈ w.stack, c ≠ n := fun c hcs hcn => (hc.of_mem_unseen n hn).2 (hcn ▸ hcs)
  refine ⟨[], w.stack, rfl, ⟨fun m hm => hm, by simp, .inl ?_, by simp, fun z hz hp => ?_⟩, hread, ?_⟩
  · rw [low_enter_self, index_enter_self]
  · exact absurd hz hp
  · refine h.congr (fun c hcs => index_enter_of_ne (hne c hcs))
      (fun c hcs => low_enter_of_ne (hne c hcs)) fun c hcu => ?_
    exact Std.ExtTreeSet.mem_of_mem_erase hcu

/-- The low-link of the last cell on the path may be lowered to the index of an open cell that it
leads to. -/
theorem Spans.lower {frame : Frame} (h : Spans g w (frame :: path) stack)
    (hd : stack.Pairwise fun a b => w.index b < w.index a) (hz : z ∈ stack)
    (hr : ReflTransGen g.Reads frame.cell z) :
    Spans g (w.lower frame.cell (w.index z)) (frame :: path) stack := by
  obtain ⟨left, below, rfl, ht, hread, hbelow⟩ := h
  rw [List.pairwise_append, List.pairwise_cons] at hd
  obtain ⟨-, ⟨hlt, -⟩, hgt⟩ := hd
  have hlow : (w.lower frame.cell (w.index z)).low frame.cell =
      min (w.low frame.cell) (w.index z) := by rw [low_lower, if_pos rfl]
  have hnoted : ∀ c, w.Noted frame.cell below c →
      (w.lower frame.cell (w.index z)).Noted frame.cell below c := by
    intro c hc
    refine ⟨hc.1, fun hb => ?_⟩
    rw [hlow, index_lower]
    exact Nat.le_trans (Nat.min_le_left _ _) (hc.2 hb)
  have hcongr : Spans g (w.lower frame.cell (w.index z)) path below := by
    refine hbelow.congr (fun c _ => index_lower) (fun c hc => ?_) fun c hc => hc
    rw [low_lower, if_neg]
    rintro rfl
    exact Nat.lt_irrefl _ (hlt _ hc)
  refine ⟨left, below, rfl, ⟨ht.reads_pending, ht.mutual_left, ?_,
    fun c hc z hz => hnoted z (ht.noted_left c hc z hz),
    fun z hz hp => hnoted z (ht.noted z hz hp)⟩, hread, hcongr⟩
  rw [hlow, index_lower]
  rcases Nat.le_total (w.low frame.cell) (w.index z) with hle | hle
  · rw [Nat.min_eq_left hle]
    simpa only [index_lower] using ht.low_eq
  · rw [Nat.min_eq_right hle]
    rcases List.mem_append.1 hz with hz | hz
    · have hle' := ht.low_le hlt
      have hgt' := hgt z hz frame.cell List.mem_cons_self
      omega
    · refine (List.mem_cons.1 hz).imp (fun hz => by rw [hz]) fun hz => ?_
      exact ⟨z, hz, index_lower, hr⟩

/-- A cell that is no root of a component is left to the territory of the cell before it. -/
theorem Spans.merge {parent : Frame} (h : Spans g w (⟨cell, []⟩ :: parent :: path) stack)
    (hd : stack.Pairwise fun a b => w.index b < w.index a) (hlow : w.low cell ≠ w.index cell) :
    Spans g (w.lower parent.cell (w.low cell)) (parent :: path) stack ∧ g.Mutual parent.cell cell := by
  obtain ⟨left, below, rfl, ht, hread, hbelow⟩ := h
  obtain ⟨z, hz, hzi, hr⟩ := ht.low_eq.resolve_left hlow
  have hpc : g.Reads parent.cell cell := hread parent rfl
  have hmutual : g.Mutual parent.cell cell := ⟨.single hpc, hr.trans (hbelow.reaches hz)⟩
  rw [List.pairwise_append, List.pairwise_cons] at hd
  have hlowered := hbelow.lower hd.2.1.2 hz (.head hpc hr)
  rw [hzi] at hlowered
  obtain ⟨leftp, belowp, rfl, htp, hrest⟩ := hlowered
  have hnoted : ∀ y, w.Noted cell (leftp ++ parent.cell :: belowp) y →
      (w.lower parent.cell (w.low cell)).Noted parent.cell belowp y := by
    intro y hy
    refine ⟨hy.1, fun hb => ?_⟩
    rw [low_lower, if_pos rfl, index_lower]
    exact Nat.le_trans (Nat.min_le_right _ _) (hy.2 (by simp [hb]))
  refine ⟨⟨left ++ cell :: leftp, belowp, by simp, ⟨htp.reads_pending, fun c hc => ?_, htp.low_eq,
    fun c hc y hy => ?_, htp.noted⟩, hrest⟩, hmutual⟩
  · rcases List.mem_append.1 hc with hc | hc
    · exact hmutual.trans (ht.mutual_left c hc)
    rcases List.mem_cons.1 hc with rfl | hc
    · exact hmutual
    · exact htp.mutual_left c hc
  · rcases List.mem_append.1 hc with hc | hc
    · exact hnoted y (ht.noted_left c hc y hy)
    rcases List.mem_cons.1 hc with rfl | hc
    · exact hnoted y (ht.noted y hy List.not_mem_nil)
    · exact htp.noted_left c hc y hy

/-- What holds between any two steps of a walk with low-links and of a plain walk beside it. -/
structure Sound (g : Graph) (v : Walk) (w : LinkWalk) (path : List Frame) : Prop where
  consistent : w.Consistent g
  spans : Spans g w path w.stack
  unseen_eq : v.unseen = w.unseen
  order_eq : w.order = open Classical in v.finished.filter fun c => ¬ g.OnCycle c

theorem Sound.enter (h : Sound g v w path) (hn : n ∈ w.unseen)
    (hread : ∀ parent ∈ path.head?, g.Reads parent.cell n) :
    Sound g (v.enter n) (w.enter n) (⟨n, g.precedentsOf n⟩ :: path) := by
  refine ⟨h.consistent.enter hn, h.spans.enter h.consistent hn hread, ?_, h.order_eq⟩
  show v.unseen.erase n = w.unseen.erase n
  rw [h.unseen_eq]

theorem Sound.advance {pending : List Address} (h : Sound g v w (⟨cell, n :: pending⟩ :: path))
    (hunseen : n ∉ w.unseen) (hnoted : n ∈ w.stack → w.low cell ≤ w.index n) :
    Sound g v w (⟨cell, pending⟩ :: path) :=
  ⟨h.consistent, h.spans.advance hunseen hnoted, h.unseen_eq, h.order_eq⟩

/-- A pending neighbour is entered and put on the path. -/
theorem Sound.descend {pending : List Address} (h : Sound g v w (⟨cell, n :: pending⟩ :: path))
    (hn : n ∈ w.unseen) :
    Sound g (v.enter n) (w.enter n) (⟨n, g.precedentsOf n⟩ :: ⟨cell, pending⟩ :: path) := by
  have hread : ∀ parent ∈ (⟨cell, n :: pending⟩ :: path : List Frame).head?,
      g.Reads parent.cell n := by
    obtain ⟨left, below, -, ht, -⟩ := h.spans
    intro parent hp
    cases hp
    exact ht.reads_pending n List.mem_cons_self
  have he := h.enter hn hread
  obtain ⟨left, below, hs, ht, -, hbelow⟩ := he.spans
  have hbelow' := (he.consistent.not_mem_of_split hs).2 n List.mem_cons_self
  refine ⟨he.consistent, ⟨left, below, hs, ht, ?_, hbelow.advance ?_ ?_⟩, he.unseen_eq, he.order_eq⟩
  · intro parent hp
    cases hp
    exact hread ⟨cell, n :: pending⟩ rfl
  · simp [LinkWalk.enter, Std.ExtTreeSet.mem_erase]
  · exact fun hb => absurd hb hbelow'

theorem mem_stack_of_spans {frame : Frame} (h : Spans g w (frame :: path) stack) :
    frame.cell ∈ stack := by
  obtain ⟨left, below, rfl, -⟩ := h
  simp

theorem Sound.look {pending : List Address} (h : Sound g v w (⟨cell, n :: pending⟩ :: path))
    (hn : n ∉ w.unseen) :
    Sound g (v.skip n) (w.look cell n) (⟨cell, pending⟩ :: path) := by
  have hskip : ∀ {w'}, Sound g v w' (⟨cell, pending⟩ :: path) →
      Sound g (v.skip n) w' (⟨cell, pending⟩ :: path) := fun h' =>
    ⟨h'.consistent, h'.spans, (Walk.unseen_skip v n).trans h'.unseen_eq, by
      rw [h'.order_eq, Walk.finished_skip]⟩
  have hread : g.Reads cell n := by
    obtain ⟨left, below, -, ht, -⟩ := h.spans
    exact ht.reads_pending n List.mem_cons_self
  unfold LinkWalk.look
  split
  · rename_i i l hl
    have hstack : n ∈ w.stack := (h.consistent.mem_stack n).2 ⟨_, hl, rfl⟩
    have hi : w.index n = i := by
      unfold LinkWalk.index
      rw [hl]
      rfl
    have hlowered := h.spans.lower h.consistent.descending hstack (.single hread)
    rw [hi] at hlowered
    refine hskip (Sound.advance ⟨h.consistent.lower cell i, hlowered, h.unseen_eq, h.order_eq⟩ hn ?_)
    intro _
    rw [low_lower, if_pos rfl, index_lower, hi]
    exact Nat.min_le_right _ _
  · rename_i hl
    refine hskip (h.advance hn fun hstack => ?_)
    obtain ⟨⟨isOpen, i, l⟩, hlink, hopen⟩ := (h.consistent.mem_stack n).1 hstack
    cases hopen
    exact absurd hlink (hl i l)

/-- The cell on top of the path is the root of a component: all open cells down to it. -/
theorem Sound.leave_root (h : Sound g v w (⟨cell, []⟩ :: path)) (hroot : w.low cell = w.index cell) :
    Sound g (v.leave cell) (w.complete g.precedentsOf cell) path := by
  obtain ⟨left, below, hs, ht, -, hbelow⟩ := h.spans
  have hlt := (index_lt_of_append h.consistent hs).2
  have hleft := (h.consistent.not_mem_of_split hs).1
  have hnoted : ∀ z, w.Noted cell below z → z ∉ w.unseen ∧ z ∉ below := fun z hz => by
    refine ⟨hz.1, fun hb => ?_⟩
    have hle := hz.2 hb
    have hzlt := hlt z hb
    dsimp only at hzlt
    omega
  have hclosed : ∀ c ∈ cell :: left, ∀ z, g.Reads c z → z ∉ w.unseen ∧ z ∉ below := by
    intro c hc z hz
    rcases List.mem_cons.1 hc with rfl | hc
    · exact hnoted z (ht.noted z hz List.not_mem_nil)
    · exact hnoted z (ht.noted_left c hc z hz)
  refine ⟨h.consistent.complete hs ht.mutual_left hclosed, ?_, h.unseen_eq, ?_⟩
  · rw [stack_complete hs hleft]
    exact hbelow.congr (fun c _ => index_complete hs hleft) (fun c _ => low_complete hs hleft)
      fun c hc => hc
  · rw [h.consistent.order_complete hs ht.mutual_left hclosed, h.order_eq, Walk.finished_leave, List.filter_cons]
    by_cases hc : g.OnCycle cell <;> simp [hc]

theorem Sound.leave_merge {parent : Frame} (h : Sound g v w (⟨cell, []⟩ :: parent :: path))
    (hroot : w.low cell ≠ w.index cell) :
    Sound g (v.leave cell) (w.lower parent.cell (w.low cell)) (parent :: path) := by
  obtain ⟨hspans, hmutual⟩ := h.spans.merge h.consistent.descending hroot
  refine ⟨h.consistent.lower _ _, hspans, h.unseen_eq, ?_⟩
  have hcycle : g.OnCycle cell := by
    obtain ⟨left, below, hs, -, -, hbelow⟩ := h.spans
    have hlt := (index_lt_of_append h.consistent hs).2 _ (mem_stack_of_spans hbelow)
    have hne : parent.cell ≠ cell := fun hne => by
      rw [hne] at hlt
      exact Nat.lt_irrefl _ hlt
    exact Graph.onCycle_iff.2 (.inr ⟨parent.cell, hne, hmutual.symm⟩)
  show w.order = _
  rw [h.order_eq, Walk.finished_leave, List.filter_cons]
  simp [hcycle]

theorem Sound.leave (h : Sound g v w (⟨cell, []⟩ :: path)) :
    Sound g (v.leave cell) (w.leave g.precedentsOf cell (path.head?.map Frame.cell)) path := by
  obtain ⟨link, hlink, -⟩ := (h.consistent.mem_stack cell).1 (mem_stack_of_spans h.spans)
  have hlow : link.low = w.low cell := by
    unfold LinkWalk.low
    rw [hlink]
    rfl
  have hindex : link.index = w.index cell := by
    unfold LinkWalk.index
    rw [hlink]
    rfl
  unfold LinkWalk.leave
  rw [hlink]
  dsimp only
  rw [hlow, hindex]
  obtain ⟨left, below, hs, ht, -, hbelow⟩ := h.spans
  split
  · rename_i hroot
    cases path with
    | nil => exact h.leave_root hroot
    | cons parent path =>
      -- The low-link of the cell before is lower already, as that cell was entered earlier.
      have hparent : w.low parent.cell ≤ w.low cell := by
        obtain ⟨leftp, belowp, hbelows, htp, -⟩ := hbelow
        have hsp : w.stack = (left ++ cell :: leftp) ++ parent.cell :: belowp := by
          rw [hs, hbelows]
          simp
        have hle := htp.low_le (index_lt_of_append h.consistent hsp).2
        have hlt := (index_lt_of_append h.consistent hs).2 parent.cell (by simp [hbelows])
        rw [hroot]
        exact Nat.le_trans hle (Nat.le_of_lt hlt)
      show Sound g _ ((w.lower parent.cell (w.low cell)).complete g.precedentsOf cell) _
      rw [lower_eq_self hparent]
      exact h.leave_root hroot
  · rename_i hroot
    cases path with
    | nil =>
      obtain ⟨z, hz, -⟩ := ht.low_eq.resolve_left hroot
      rw [hbelow] at hz
      cases hz
    | cons parent path => exact h.leave_merge hroot

/-- A walk with low-links goes where a plain walk goes. -/
theorem Sound.run (h : Sound g v w path) :
    Sound g (Walk.run g.precedentsOf v path) (LinkWalk.run g.precedentsOf w path) [] := by
  induction w, path using LinkWalk.run.induct g.precedentsOf generalizing v with
  | case1 w =>
    rw [Walk.run, LinkWalk.run]
    exact h
  | case2 w cell path ih =>
    rw [Walk.run, LinkWalk.run]
    exact ih h.leave
  | case3 w cell n pending path hn ih =>
    rw [Walk.run, LinkWalk.run, if_pos hn, if_pos (h.unseen_eq ▸ hn)]
    exact ih (h.descend hn)
  | case4 w cell n pending path hn ih =>
    rw [Walk.run, LinkWalk.run, if_neg hn, if_neg (h.unseen_eq ▸ hn)]
    exact ih (h.look hn)

theorem Sound.visit (h : Sound g v w []) (root : Address) :
    Sound g (Walk.visit g.precedentsOf v root) (LinkWalk.visit g.precedentsOf w root) [] := by
  unfold Walk.visit LinkWalk.visit
  rw [h.unseen_eq]
  split
  · rename_i hroot
    exact (h.enter hroot (by simp)).run
  · exact h

theorem Sound.foldl_visit (h : Sound g v w []) (roots : List Address) :
    Sound g (roots.foldl (Walk.visit g.precedentsOf) v)
      (roots.foldl (LinkWalk.visit g.precedentsOf) w) [] := by
  induction roots generalizing v w with
  | nil => exact h
  | cons root roots ih => exact ih (h.visit root)

theorem sound_start (g : Graph) : Sound g (Walk.start g.nodes) (LinkWalk.start g.nodes) [] := by
  refine ⟨⟨fun c => ?_, .nil, by simp [start], fun c hc => ⟨Graph.mem_nodes.1 hc, by simp [start]⟩,
    fun a b ha hab => ?_, fun c => ?_⟩, rfl, rfl, rfl⟩
  · simp [start]
  · exact absurd (Graph.mem_nodes.2 hab.mem_cells) ha.1
  · refine iff_of_false Std.ExtTreeSet.not_mem_empty ?_
    rintro ⟨hp, hc⟩
    exact hp.1 (Graph.mem_nodes.2 hc.mem_cells)

end Spreadsheet.LinkWalk
