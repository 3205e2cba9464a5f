import Spreadsheet.Proofs.Address.Form
import Spreadsheet.Proofs.Sheet.Rows

/-! The used area of a sheet. It starts at A1 and is the least that holds every cell with a text if all
of these can be named; a cell beyond the limit of names is in no area. -/
namespace Spreadsheet

/-- Counting from one needs one number more than there are words, so the last word wraps around. -/
theorem Address.toNat_add_one (x : UInt32) :
    (x + 1).toNat = if x.toNat < maxNumber then x.toNat + 1 else 0 := by
  have hx := x.toNat_lt
  have hone : (1 : UInt32).toNat = 1 := rfl
  have hmax : maxNumber = 2 ^ 32 - 1 := rfl
  rw [UInt32.toNat_add, hone]
  split <;> omega

theorem foldl_max_le_iff (f : Address → UInt32) (l : List Address) (start : UInt32) (n : Nat) :
    (l.foldl (fun k c => max k (f c)) start).toNat ≤ n ↔
      start.toNat ≤ n ∧ ∀ c ∈ l, (f c).toNat ≤ n := by
  induction l generalizing start with
  | nil => simp
  | cons c l ih =>
    rw [List.foldl_cons, ih, List.forall_mem_cons, ← and_assoc, UInt32.toNat_max, Nat.max_le]

/-- Rows and columns are counted apart. -/
theorem foldl_area_eq (l : List Address) (start : UInt32 × UInt32) :
    l.foldl (fun (rows, cols) cell => (max rows (cell.row + 1), max cols (cell.col + 1))) start =
      (l.foldl (fun k c => max k (c.row + 1)) start.1,
        l.foldl (fun k c => max k (c.col + 1)) start.2) := by
  induction l generalizing start with
  | nil => rfl
  | cons c l ih => exact ih _

namespace Sheet

/-- Whether every cell with a text can be named. -/
def Nameable (s : Sheet) : Prop := ∀ c, (s.text? c).isSome → c.Nameable

variable {s s' : Sheet} {c x : Address} {n : Nat}

theorem mem_keys_iff : c ∈ s.cells.keys ↔ (s.text? c).isSome := by
  rw [Std.ExtTreeMap.mem_keys, Std.ExtTreeMap.mem_iff_isSome_getElem?]
  rfl

theorem rows_le_iff :
    s.dimensions.1.toNat ≤ n ↔ ∀ c, (s.text? c).isSome → (c.row + 1).toNat ≤ n := by
  simp only [dimensions, foldl_area_eq, foldl_max_le_iff, mem_keys_iff, UInt32.toNat_zero,
    Nat.zero_le, true_and]

theorem cols_le_iff :
    s.dimensions.2.toNat ≤ n ↔ ∀ c, (s.text? c).isSome → (c.col + 1).toNat ≤ n := by
  simp only [dimensions, foldl_area_eq, foldl_max_le_iff, mem_keys_iff, UInt32.toNat_zero,
    Nat.zero_le, true_and]

/-- The area depends on nothing but which cells have a text. -/
theorem dimensions_congr (h : ∀ c, (s.text? c).isSome = (s'.text? c).isSome) :
    s.dimensions = s'.dimensions := by
  apply Prod.ext
  · rw [← UInt32.toNat_inj]
    apply eq_of_forall_ge_iff
    intro n
    simp only [rows_le_iff, h]
  · rw [← UInt32.toNat_inj]
    apply eq_of_forall_ge_iff
    intro n
    simp only [cols_le_iff, h]

/-- The cells with a text that are in the area are those that can be named. -/
theorem lt_dimensions_iff (h : (s.text? c).isSome) :
    (c.row.toNat < s.dimensions.1.toNat ∧ c.col.toNat < s.dimensions.2.toNat) ↔ c.Nameable := by
  have hrow := rows_le_iff.1 (Nat.le_refl s.dimensions.1.toNat) c h
  have hcol := cols_le_iff.1 (Nat.le_refl s.dimensions.2.toNat) c h
  have hrows := s.dimensions.1.toNat_lt
  have hcols := s.dimensions.2.toNat_lt
  have hmax : Address.maxNumber = 2 ^ 32 - 1 := rfl
  rw [Address.toNat_add_one] at hrow hcol
  rw [Address.Nameable]
  constructor
  · omega
  · rintro ⟨hr, hc⟩
    rw [if_pos hr] at hrow
    rw [if_pos hc] at hcol
    exact ⟨hrow, hcol⟩

/-- The area holds every cell with a text exactly if all of these can be named. -/
theorem forall_lt_dimensions_iff : (∀ c, (s.text? c).isSome →
    c.row.toNat < s.dimensions.1.toNat ∧ c.col.toNat < s.dimensions.2.toNat) ↔ s.Nameable :=
  forall₂_congr fun _ hc => lt_dimensions_iff hc

theorem Nameable.rows_le_iff (h : s.Nameable) :
    s.dimensions.1.toNat ≤ n ↔ ∀ c, (s.text? c).isSome → c.row.toNat < n :=
  Sheet.rows_le_iff.trans (forall₂_congr fun c hc => by
    rw [Address.toNat_add_one, if_pos (h c hc).1, Nat.succ_le_iff])

theorem Nameable.cols_le_iff (h : s.Nameable) :
    s.dimensions.2.toNat ≤ n ↔ ∀ c, (s.text? c).isSome → c.col.toNat < n :=
  Sheet.cols_le_iff.trans (forall₂_congr fun c hc => by
    rw [Address.toNat_add_one, if_pos (h c hc).2, Nat.succ_le_iff])

theorem Nameable.isLeast_dimensions (h : s.Nameable) :
    IsLeast {area : Nat × Nat | ∀ c, (s.text? c).isSome →
      c.row.toNat < area.1 ∧ c.col.toNat < area.2}
      (s.dimensions.1.toNat, s.dimensions.2.toNat) := by
  constructor
  · exact forall_lt_dimensions_iff.2 h
  · intro area harea
    constructor
    · exact h.rows_le_iff.2 fun c hc => (harea c hc).1
    · exact h.cols_le_iff.2 fun c hc => (harea c hc).2

/-- The cells of a grid within the limit of names can be named. -/
theorem nameable_ofRows {rows : List (List String)} (hlength : rows.length ≤ Address.maxNumber)
    (hrows : ∀ row ∈ rows, row.length ≤ Address.maxNumber) : (ofRows rows).Nameable := by
  have hmax : Address.maxNumber ≤ 2 ^ 32 := by decide
  have hfits : Fits rows := ⟨hlength.trans hmax, fun row hrow => (hrows row hrow).trans hmax⟩
  intro c hc
  obtain ⟨t, ht⟩ := Option.isSome_iff_exists.1 hc
  rw [text?_ofRows hfits, Option.bind_eq_some_iff] at ht
  obtain ⟨u, hu, -⟩ := ht
  obtain ⟨row, hrow, hcol⟩ := Option.bind_eq_some_iff.1 hu
  have hlt := (List.getElem?_eq_some_iff.1 hrow).1
  have hlt' := (List.getElem?_eq_some_iff.1 hcol).1
  exact ⟨hlt.trans_le hlength, hlt'.trans_le (hrows row (List.mem_of_getElem? hrow))⟩

theorem isSome_text?_clear : ((s.clear x).text? c).isSome ↔ c ≠ x ∧ (s.text? c).isSome := by
  rw [text?_clear]
  split <;> simp_all

theorem Nameable.clear (h : s.Nameable) (x : Address) : (s.clear x).Nameable :=
  fun c hc => h c (isSome_text?_clear.1 hc).2

theorem dimensions_clear_le (s : Sheet) (x : Address) :
    (s.clear x).dimensions.1.toNat ≤ s.dimensions.1.toNat ∧
      (s.clear x).dimensions.2.toNat ≤ s.dimensions.2.toNat := by
  constructor
  · exact rows_le_iff.2 fun c hc =>
      rows_le_iff.1 (Nat.le_refl _) c (isSome_text?_clear.1 hc).2
  · exact cols_le_iff.2 fun c hc =>
      cols_le_iff.1 (Nat.le_refl _) c (isSome_text?_clear.1 hc).2

/-- A bound on members gets smaller without one of them if the others are below the last place. -/
theorem lt_of_le_iff {α : Type} {P : α → Prop} {f : α → Nat} {a : α} {n m : Nat}
    (hn : ∀ k, n ≤ k ↔ ∀ b, P b → f b < k) (hm : ∀ k, m ≤ k ↔ ∀ b, b ≠ a ∧ P b → f b < k) :
    m < n ↔ P a ∧ ∀ b, b ≠ a → P b → f b + 1 < n := by
  have hlt : ∀ b, P b → f b < n := (hn n).1 (Nat.le_refl n)
  constructor
  · intro h
    have hothers : ∀ b, b ≠ a → P b → f b < m := fun b hb hP => (hm m).1 (Nat.le_refl m) b ⟨hb, hP⟩
    constructor
    · by_contra ha
      have hle : n ≤ m := (hn m).2 fun b hP => hothers b (fun hb => ha (hb ▸ hP)) hP
      omega
    · intro b hb hP
      have := hothers b hb hP
      omega
  · rintro ⟨ha, hothers⟩
    have hpos := hlt a ha
    have hle : m ≤ n - 1 := (hm (n - 1)).2 fun b hb => by
      have := hothers b hb.1 hb.2
      omega
    omega

/-- Rows are lost with a cell if it has a text and all others are above the last row. -/
theorem Nameable.rows_clear_lt_iff (h : s.Nameable) :
    (s.clear x).dimensions.1.toNat < s.dimensions.1.toNat ↔
      (s.text? x).isSome ∧
        ∀ c, c ≠ x → (s.text? c).isSome → c.row.toNat + 1 < s.dimensions.1.toNat :=
  lt_of_le_iff (fun _ => h.rows_le_iff) fun _ => by
    simp only [(h.clear x).rows_le_iff, isSome_text?_clear]

theorem Nameable.cols_clear_lt_iff (h : s.Nameable) :
    (s.clear x).dimensions.2.toNat < s.dimensions.2.toNat ↔
      (s.text? x).isSome ∧
        ∀ c, c ≠ x → (s.text? c).isSome → c.col.toNat + 1 < s.dimensions.2.toNat :=
  lt_of_le_iff (fun _ => h.cols_le_iff) fun _ => by
    simp only [(h.clear x).cols_le_iff, isSome_text?_clear]

end Sheet

end Spreadsheet
