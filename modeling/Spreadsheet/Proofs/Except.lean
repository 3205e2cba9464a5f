/-! Results that can fail: what is left when the reason is dropped, and when it is replaced. -/
namespace Spreadsheet

variable {α β γ ε ε' : Type}

/-- The reason why there is no result. -/
def error? : Except ε α → Option ε
  | .error e => some e
  | .ok _ => none

theorem toOption_eq_some_iff {r : Except ε α} {a : α} : r.toOption = some a ↔ r = .ok a := by
  cases r <;> simp [Except.toOption]

theorem toOption_eq_none_iff {r : Except ε α} : r.toOption = none ↔ ∃ e, r = .error e := by
  cases r <;> simp [Except.toOption]

theorem error?_eq_some_iff {r : Except ε α} {e : ε} : error? r = some e ↔ r = .error e := by
  cases r <;> simp [error?]

theorem error?_eq_none_iff {r : Except ε α} : error? r = none ↔ ∃ a, r = .ok a := by
  cases r <;> simp [error?]

@[simp] theorem toOption_mapError (f : ε → ε') (r : Except ε α) :
    (r.mapError f).toOption = r.toOption := by
  cases r <;> rfl

@[simp] theorem mapError_id (r : Except ε α) : r.mapError id = r := by
  cases r <;> rfl

theorem mapError_mapError {ε'' : Type} (g : ε' → ε'') (f : ε → ε') (r : Except ε α) :
    (r.mapError f).mapError g = r.mapError (g ∘ f) := by
  cases r <;> rfl

theorem bind_eq_ok_iff {r : Except ε α} {f : α → Except ε β} {b : β} :
    r >>= f = .ok b ↔ ∃ a, r = .ok a ∧ f a = .ok b := by
  cases r <;> simp [bind, Except.bind]

theorem mapM_cons_eq_ok_iff {f : α → Except ε β} {a : α} {l : List α} {bs : List β} :
    (a :: l).mapM f = .ok bs ↔ ∃ b bs', f a = .ok b ∧ l.mapM f = .ok bs' ∧ b :: bs' = bs := by
  rw [List.mapM_cons, bind_eq_ok_iff]
  simp only [bind_eq_ok_iff, pure, Except.pure, Except.ok.injEq, exists_and_left]

/-- Steps that fail together give lists that fail together. -/
theorem toOption_mapM {f : α → Except ε β} {g : α → Option γ} {h : γ → β}
    (hfg : ∀ a, (f a).toOption = (g a).map h) (l : List α) :
    (l.mapM f).toOption = (l.mapM g).map (List.map h) := by
  induction l with
  | nil => rfl
  | cons a l ih =>
    have hcons : ((a :: l).mapM f).toOption =
        (f a).toOption.bind fun b => (l.mapM f).toOption.map (b :: ·) := by
      rw [List.mapM_cons]
      cases f a with
      | error e => rfl
      | ok b => cases l.mapM f <;> rfl
    rw [hcons, hfg, ih, List.mapM_cons]
    cases g a with
    | none => rfl
    | some c => cases l.mapM g <;> rfl

end Spreadsheet
