import Mathlib
import Spreadsheet.Csv.Write

/-! The bytes that rows are written as are cut into records again: one for each row, with the bytes
of its texts as fields. -/
namespace Spreadsheet.Csv

/-- Whether the two bytes of a dialect are told apart from each other and from line breaks. -/
structure Dialect.Proper (d : Dialect) : Prop where
  delimiter_ne_quote : d.delimiter ≠ d.quote
  endsRecord_delimiter : endsRecord d.delimiter = false
  endsRecord_quote : endsRecord d.quote = false

theorem Dialect.Proper.ne_of_endsRecord {d : Dialect} (hd : d.Proper) {b : UInt8}
    (hb : endsRecord b = true) : b ≠ d.delimiter ∧ b ≠ d.quote := by
  constructor
  · rintro rfl
    rw [hd.endsRecord_delimiter] at hb
    cases hb
  · rintro rfl
    rw [hd.endsRecord_quote] at hb
    cases hb

/-- A row as it is read back: one without fields comes back with an empty one. -/
def padRow (row : List String) : List String := if row.isEmpty then [""] else row

namespace Scanner

/-- What a scanner holds: the complete records, and the fields so far of the next one, the last of
which may go on. -/
structure Holds (s : Scanner) (records : List (List Bytes)) (fields : List Bytes) : Prop where
  records_eq : s.records.reverse.map Record.fields = records
  fields_eq : s.fields.reverse ++ [s.field.reverse] = fields

variable {d : Dialect} {s : Scanner} {records : List (List Bytes)} {fields : List Bytes}
  {field bytes : Bytes} {b : UInt8} {place : Place}

@[simp] theorem place_advance (s : Scanner) (b : UInt8) : (s.advance b).place = s.place := rfl

theorem Holds.advance (h : s.Holds records fields) (b : UInt8) :
    (s.advance b).Holds records fields := ⟨h.records_eq, h.fields_eq⟩

theorem Holds.quote (h : s.Holds records fields) (place : Place) :
    { s with place }.Holds records fields := ⟨h.records_eq, h.fields_eq⟩

theorem Holds.copy (h : s.Holds records (fields ++ [field])) (b : UInt8) (place : Place) :
    (s.copy b place).Holds records (fields ++ [field ++ [b]]) := by
  obtain ⟨hfields, hfield⟩ := List.append_inj' h.fields_eq rfl
  refine ⟨h.records_eq, ?_⟩
  simp only [Scanner.copy, List.reverse_cons, hfields, List.singleton_inj.1 hfield]

theorem Holds.endField (h : s.Holds records fields) : s.endField.Holds records (fields ++ [[]]) := by
  refine ⟨h.records_eq, ?_⟩
  rw [← h.fields_eq]
  simp only [Scanner.endField, List.reverse_cons, List.reverse_nil]

theorem Holds.endRecord (h : s.Holds records fields) :
    s.endRecord.Holds (records ++ [fields]) [[]] := by
  refine ⟨?_, rfl⟩
  rw [← h.records_eq, ← h.fields_eq]
  simp [Scanner.endRecord]

/-- Outside quotes a field takes in all bytes that neither end a field nor a record. -/
theorem holds_plain (h : s.Holds records (fields ++ [field])) (hp : s.place = .plain)
    (hb : ∀ b ∈ bytes, b ≠ d.delimiter ∧ endsRecord b = false) :
    (bytes.foldl (step d) s).Holds records (fields ++ [field ++ bytes]) ∧
      (bytes.foldl (step d) s).place = .plain := by
  induction bytes generalizing s field with
  | nil =>
    rw [List.append_nil]
    exact ⟨h, hp⟩
  | cons b bytes ih =>
    obtain ⟨hd, he⟩ := hb b List.mem_cons_self
    have hstep : step d s b = (s.advance b).copy b .plain := by
      simp [step, hp, plainStep, hd, he]
    rw [List.foldl_cons, hstep, List.append_cons field b bytes]
    exact ih ((h.advance b).copy b .plain) rfl fun b' hb' => hb b' (List.mem_cons_of_mem b hb')

/-- Inside quotes a field takes in all bytes, doubled quotes as one. -/
theorem holds_quoted (bytes : Bytes) (h : s.Holds records (fields ++ [field]))
    (hp : s.place = .quoted) :
    let s' := (bytes.flatMap fun b => if b = d.quote then [b, b] else [b]).foldl (step d) s
    s'.Holds records (fields ++ [field ++ bytes]) ∧ s'.place = .quoted := by
  induction bytes generalizing s field with
  | nil =>
    rw [List.append_nil]
    exact ⟨h, hp⟩
  | cons b bytes ih =>
    rw [List.flatMap_cons, List.foldl_append, List.append_cons field b bytes]
    by_cases hq : b = d.quote
    · have hstep : [b, b].foldl (step d) s =
          (({ s.advance b with place := .quoteSeen } : Scanner).advance b).copy b .quoted := by
        simp [step, hp, hq]
      rw [if_pos hq, hstep]
      exact ih ((((h.advance b).quote .quoteSeen).advance b).copy b .quoted) rfl
    · have hstep : [b].foldl (step d) s = (s.advance b).copy b .quoted := by
        simp [step, hp, hq]
      rw [if_neg hq, hstep]
      exact ih ((h.advance b).copy b .quoted) rfl

/-- A delimiter outside quotes begins the next field. -/
theorem holds_delimiter (hd : d.Proper) (h : s.Holds records fields) (hp : s.place ≠ .quoted) :
    (step d s d.delimiter).Holds records (fields ++ [[]]) ∧
      (step d s d.delimiter).place = .fieldStart := by
  have hstep : step d s d.delimiter = (s.advance d.delimiter).endField := by
    have hne := hd.delimiter_ne_quote
    have he := hd.endsRecord_delimiter
    cases hplace : s.place <;> simp_all [step, plainStep, fieldStep]
  rw [hstep]
  exact ⟨(h.advance _).endField, rfl⟩

/-- A line break outside quotes completes a record that has begun. -/
theorem holds_lineBreak (hd : d.Proper) (hb : endsRecord b = true) (h : s.Holds records fields)
    (hp : s.place ≠ .quoted) (hp' : s.place ≠ .between) :
    (step d s b).Holds (records ++ [fields]) [[]] ∧ (step d s b).place = .between := by
  have hstep : step d s b = (s.advance b).endRecord := by
    obtain ⟨hdelimiter, hquote⟩ := hd.ne_of_endsRecord hb
    cases hplace : s.place <;> simp_all [step, plainStep, fieldStep]
  rw [hstep]
  exact ⟨(h.advance _).endRecord, rfl⟩

/-- A field in quotes, from where a field begins to its last quote. -/
theorem holds_quoteField (hd : d.Proper) (bytes : Bytes) (h : s.Holds records (fields ++ [[]]))
    (hp : s.place = .between ∨ s.place = .fieldStart) :
    ((quoteField d bytes).foldl (step d) s).Holds records (fields ++ [bytes]) ∧
      ((quoteField d bytes).foldl (step d) s).place = .quoteSeen := by
  have hopen : (step d s d.quote).Holds records (fields ++ [[]]) ∧
      (step d s d.quote).place = .quoted := by
    have hstep : step d s d.quote = { s.advance d.quote with place := .quoted } := by
      have he := hd.endsRecord_quote
      rcases hp with hp | hp <;> simp [step, hp, fieldStep, he]
    rw [hstep]
    exact ⟨(h.advance _).quote _, rfl⟩
  obtain ⟨hin, hplace⟩ := holds_quoted bytes hopen.1 hopen.2
  rw [quoteField, List.cons_append, List.foldl_cons, List.foldl_append]
  generalize (bytes.flatMap _).foldl (step d) (step d s d.quote) = s' at hin hplace ⊢
  have hclose : step d s' d.quote = { s'.advance d.quote with place := .quoteSeen } := by
    simp [step, hplace]
  rw [List.foldl_cons, List.foldl_nil, hclose]
  exact ⟨(hin.advance _).quote _, rfl⟩

/-- The written form of a field, from where a field begins. Nothing but the empty form leaves the
scanner between records. -/
theorem holds_encodeField (hd : d.Proper) (t : String) (h : s.Holds records (fields ++ [[]]))
    (hp : s.place = .between ∨ s.place = .fieldStart) :
    let s' := (encodeField d t).foldl (step d) s
    s'.Holds records (fields ++ [Text.encode t]) ∧ s'.place ≠ .quoted ∧
      (s'.place = .between → s.place = .between ∧ encodeField d t = []) := by
  intro s'
  by_cases hn : needsQuotes d (Text.encode t) = true
  · obtain ⟨hs, hplace⟩ := holds_quoteField hd (Text.encode t) h hp
    have hs' : s' = (quoteField d (Text.encode t)).foldl (step d) s := by
      simp only [s', encodeField, hn, if_true]
    rw [hs', hplace]
    exact ⟨hs, by simp, by simp⟩
  · have hform : encodeField d t = Text.encode t := if_neg hn
    have hbytes : ∀ b ∈ Text.encode t, b ≠ d.delimiter ∧ b ≠ d.quote ∧ endsRecord b = false := by
      simpa [needsQuotes, and_assoc] using hn
    simp only [s', hform]
    cases hb : Text.encode t with
    | nil =>
      refine ⟨h, ?_, fun hplace => ⟨hplace, rfl⟩⟩
      rcases hp with hp | hp <;> simp [hp]
    | cons b bytes =>
      rw [hb] at hbytes
      obtain ⟨hdelimiter, hquote, he⟩ := hbytes b List.mem_cons_self
      have hstep : step d s b = (s.advance b).copy b .plain := by
        rcases hp with hp | hp <;> simp [step, hp, fieldStep, plainStep, hdelimiter, hquote, he]
      have hrest : ∀ b' ∈ bytes, b' ≠ d.delimiter ∧ endsRecord b' = false := fun b' hb' =>
        ⟨(hbytes b' (List.mem_cons_of_mem b hb')).1, (hbytes b' (List.mem_cons_of_mem b hb')).2.2⟩
      obtain ⟨hs, hplace⟩ := holds_plain ((h.advance b).copy b .plain) rfl hrest
      rw [List.foldl_cons, hstep, hplace]
      exact ⟨hs, by simp, by simp⟩

/-- The fields of a row with delimiters between them, from where a record begins. -/
theorem holds_fields (hd : d.Proper) (row : List String) (hne : row ≠ [])
    (h : s.Holds records (fields ++ [[]])) (hp : s.place = .between ∨ s.place = .fieldStart) :
    let s' := ([d.delimiter].intercalate (row.map (encodeField d))).foldl (step d) s
    s'.Holds records (fields ++ row.map Text.encode) ∧ s'.place ≠ .quoted ∧
      (s'.place = .between →
        s.place = .between ∧ [d.delimiter].intercalate (row.map (encodeField d)) = []) := by
  induction row generalizing s fields with
  | nil => exact absurd rfl hne
  | cons t row ih =>
    obtain ⟨ht, hquoted, hbetween⟩ := holds_encodeField hd t h hp
    cases row with
    | nil => simpa using ⟨ht, hquoted, hbetween⟩
    | cons u row =>
      obtain ⟨hs, hplace⟩ := holds_delimiter hd ht hquoted
      obtain ⟨hrow, hquoted', hbetween'⟩ := ih (List.cons_ne_nil u row) hs (.inr hplace)
      rw [hplace] at hbetween'
      have hform : [d.delimiter].intercalate ((t :: u :: row).map (encodeField d)) =
          encodeField d t ++ d.delimiter :: [d.delimiter].intercalate ((u :: row).map (encodeField d)) := by
        simp only [List.map_cons, List.intercalate_cons_cons, List.append_assoc,
          List.singleton_append]
      have hfields : fields ++ (t :: u :: row).map Text.encode =
          fields ++ [Text.encode t] ++ (u :: row).map Text.encode := by simp
      intro s'
      have hs' : s' = ([d.delimiter].intercalate ((u :: row).map (encodeField d))).foldl (step d)
          (step d ((encodeField d t).foldl (step d) s) d.delimiter) := by
        simp only [s', hform, List.foldl_append, List.foldl_cons]
      rw [hs', hfields]
      exact ⟨hrow, hquoted', fun hb => by cases (hbetween' hb).1⟩

/-- A written row and a line break after it make one record. -/
theorem holds_encodeRow (hd : d.Proper) (row : List String) (hb : endsRecord b = true)
    (h : s.Holds records [[]]) (hp : s.place = .between) :
    let s' := (encodeRow d row ++ [b]).foldl (step d) s
    s'.Holds (records ++ [(padRow row).map Text.encode]) [[]] ∧ s'.place = .between := by
  suffices hrow : ((encodeRow d row).foldl (step d) s).Holds records ((padRow row).map Text.encode) ∧
      ((encodeRow d row).foldl (step d) s).place ≠ .quoted ∧
      ((encodeRow d row).foldl (step d) s).place ≠ .between by
    intro s'
    obtain ⟨hs, hquoted, hbetween⟩ := hrow
    have hs' : s' = step d ((encodeRow d row).foldl (step d) s) b := by
      simp only [s', List.foldl_append, List.foldl_cons, List.foldl_nil]
    rw [hs']
    exact holds_lineBreak hd hb hs hquoted hbetween
  have hstart : s.Holds records ([] ++ [[]]) := h
  have hempty : ((quoteField d []).foldl (step d) s).Holds records [[]] ∧
      ((quoteField d []).foldl (step d) s).place = .quoteSeen :=
    holds_quoteField hd [] hstart (.inl hp)
  cases row with
  | nil =>
    obtain ⟨hs, hplace⟩ := hempty
    have hform : encodeRow d [] = quoteField d [] := rfl
    rw [hform, hplace]
    exact ⟨hs, by simp, by simp⟩
  | cons t row =>
    obtain ⟨hs, hquoted, hbetween⟩ :=
      holds_fields hd (t :: row) (List.cons_ne_nil t row) hstart (.inl hp)
    rw [encodeRow]
    split
    · rename_i hform
      rw [List.isEmpty_iff.1 hform] at hs
      -- Nothing was written, so the row has the fields that the scanner has at the start.
      have hfields : (padRow (t :: row)).map Text.encode = [[]] :=
        hs.fields_eq.symm.trans h.fields_eq
      obtain ⟨hs, hplace⟩ := hempty
      rw [hplace, hfields]
      exact ⟨hs, by simp, by simp⟩
    · rename_i hform
      exact ⟨hs, hquoted, fun hplace => hform (List.isEmpty_iff.2 (hbetween hplace).2)⟩

/-- A line break between records is skipped. -/
theorem holds_skip (hb : endsRecord b = true) (h : s.Holds records fields)
    (hp : s.place = .between) :
    (step d s b).Holds records fields ∧ (step d s b).place = .between := by
  have hstep : step d s b = s.advance b := by simp [step, hp, hb]
  rw [hstep]
  exact ⟨h.advance b, hp⟩

/-- Written rows make one record each. -/
theorem holds_write {o : WriteOptions} (hd : o.Proper) (rows : List (List String))
    (h : s.Holds records [[]]) (hp : s.place = .between) :
    ((write o rows).foldl (step o.toDialect) s).Holds
        (records ++ rows.map fun row => (padRow row).map Text.encode) [[]] ∧
      ((write o rows).foldl (step o.toDialect) s).place = .between := by
  induction rows generalizing s records with
  | nil =>
    rw [List.map_nil, List.append_nil]
    exact ⟨h, hp⟩
  | cons row rows ih =>
    rw [write, List.flatMap_cons, List.foldl_append, List.map_cons, List.append_cons]
    cases hcrlf : o.crlf with
    | false =>
      obtain ⟨hs, hplace⟩ := holds_encodeRow hd row (b := lineFeed) rfl h hp
      have hrest := ih hs hplace
      rw [write, hcrlf] at hrest
      exact hrest
    | true =>
      obtain ⟨hs, hplace⟩ := holds_encodeRow hd row (b := carriageReturn) rfl h hp
      obtain ⟨hs, hplace⟩ := holds_skip (d := o.toDialect) (b := lineFeed) rfl hs hplace
      have hrest := ih hs hplace
      rw [write, hcrlf] at hrest
      have hform : encodeRow o.toDialect row ++ [carriageReturn, lineFeed] =
          encodeRow o.toDialect row ++ [carriageReturn] ++ [lineFeed] := by simp
      simp only [if_true] at hrest ⊢
      rw [hform, List.foldl_append, List.foldl_cons, List.foldl_nil]
      exact hrest

end Scanner

/-- Unless they begin with a byte order mark, written rows are cut into one record for each row. -/
theorem fields_records_write {o : WriteOptions} (hd : o.Proper) (rows : List (List String))
    (hbom : ¬ byteOrderMark <+: write o rows) :
    (records o.toDialect (write o rows)).map Record.fields =
      rows.map fun row => (padRow row).map Text.encode := by
  have hmark : byteOrderMark.isPrefixOf (write o rows) = false :=
    Bool.eq_false_iff.2 fun h => hbom (List.isPrefixOf_iff_prefix.1 h)
  let start : Scanner := ⟨.between, [], [], [], ⟨0, 1, 0⟩, ⟨0, 1, 0⟩⟩
  have hstart : start.Holds [] [[]] := ⟨rfl, rfl⟩
  obtain ⟨hs, hplace⟩ := Scanner.holds_write hd rows hstart rfl
  have hrecords : records o.toDialect (write o rows) =
      ((write o rows).foldl (Scanner.step o.toDialect) start).finish := by
    simp only [records, hmark]
    rfl
  rw [hrecords, Scanner.finish, hplace]
  exact hs.records_eq

end Spreadsheet.Csv
