import Spreadsheet.Csv.Read
import Spreadsheet.Proofs.Text.Trim

/-! Texts are read back from their bytes, and removing ASCII blanks around the bytes removes blanks
around the text. -/
namespace Spreadsheet.Text

variable {c : Char} {s t : String} {bytes : Bytes}

theorem encode_eq_flatMap (s : String) : encode s = s.toList.flatMap String.utf8EncodeChar := by
  rw [encode, ← String.utf8Encode_toList, List.utf8Encode, List.toList_data_toByteArray]

theorem decode?_encode (s : String) : decode? (encode s) = some s := by
  have h : (⟨(encode s).toArray⟩ : ByteArray) = s.toByteArray := by
    rw [encode, Array.toArray_toList]
  rw [decode?, h, String.fromUTF8?, dif_pos s.isValidUTF8]
  rfl

theorem decode?_eq_some_iff : decode? bytes = some s ↔ bytes = encode s := by
  constructor
  · intro h
    rw [decode?, String.fromUTF8?] at h
    split at h
    · cases h
      rw [encode]
      rfl
    · cases h
  · rintro rfl
    exact decode?_encode s

/-- A character is one byte below 128 or made of bytes from 128 on. -/
theorem utf8EncodeChar_cases (c : Char) :
    c.toNat < 128 ∧ String.utf8EncodeChar c = [UInt8.ofNat c.toNat] ∨
      String.utf8EncodeChar c ≠ [] ∧ ∀ b ∈ String.utf8EncodeChar c, 128 ≤ b.toNat := by
  have hc : c.val.toNat = c.toNat := rfl
  have hnil : ∀ b ∈ ([] : Bytes), 128 ≤ b.toNat := List.forall_mem_nil _
  have hcons : ∀ {n : Nat} {bs : Bytes}, 128 ≤ n % 256 → (∀ b ∈ bs, 128 ≤ b.toNat) →
      ∀ b ∈ UInt8.ofNat n :: bs, 128 ≤ b.toNat := fun hn hbs =>
    List.forall_mem_cons.2 ⟨by rwa [UInt8.toNat_ofNat'], hbs⟩
  simp only [String.utf8EncodeChar, hc]
  split
  · exact .inl ⟨by omega, rfl⟩
  · refine .inr ?_
    split
    · exact ⟨List.cons_ne_nil _ _, hcons (by omega) (hcons (by omega) hnil)⟩
    · split
      · exact ⟨List.cons_ne_nil _ _, hcons (by omega) (hcons (by omega) (hcons (by omega) hnil))⟩
      · exact ⟨List.cons_ne_nil _ _, hcons (by omega) (hcons (by omega) (hcons (by omega)
          (hcons (by omega) hnil)))⟩

theorem isAsciiBlank_iff {b : UInt8} : Csv.isAsciiBlank b = true ↔
    b = 9 ∨ b = 10 ∨ b = 12 ∨ b = 13 ∨ b = 32 := by
  simp [Csv.isAsciiBlank]

/-- An ASCII blank among bytes is a blank character. -/
theorem exists_blank_of_isAsciiBlank {b : UInt8} (h : Csv.isAsciiBlank b = true) :
    ∃ c, isBlank c = true ∧ String.utf8EncodeChar c = [b] := by
  rcases isAsciiBlank_iff.1 h with rfl | rfl | rfl | rfl | rfl
  · exact ⟨'\t', by decide, by decide⟩
  · exact ⟨'\n', by decide, by decide⟩
  · exact ⟨'\x0c', by decide, by decide⟩
  · exact ⟨'\r', by decide, by decide⟩
  · exact ⟨' ', by decide, by decide⟩

theorem exists_blanks (h : ∀ b ∈ bytes, Csv.isAsciiBlank b = true) :
    ∃ cs : List Char, bytes = cs.flatMap String.utf8EncodeChar ∧ ∀ c ∈ cs, isBlank c = true := by
  induction bytes with
  | nil => exact ⟨[], rfl, by simp⟩
  | cons b bytes ih =>
    obtain ⟨c, hc, hb⟩ := exists_blank_of_isAsciiBlank (h b List.mem_cons_self)
    obtain ⟨cs, hcs, hblank⟩ := ih fun b' hb' => h b' (List.mem_cons_of_mem b hb')
    refine ⟨c :: cs, by rw [List.flatMap_cons, hb, ← hcs]; rfl, fun c' hc' => ?_⟩
    rcases List.mem_cons.1 hc' with rfl | hc'
    · exact hc
    · exact hblank c' hc'

/-- Removing the ASCII blanks around the bytes of a text leaves the bytes of a text. -/
theorem exists_trimBytes_encode (s : String) : ∃ t, Csv.trimBytes (encode s) = encode t := by
  have hclass : ∀ c, (String.utf8EncodeChar c).all Csv.isAsciiBlank = true ∧
      (∀ b ∈ String.utf8EncodeChar c, Csv.isAsciiBlank b = true) ∨
      (String.utf8EncodeChar c).all Csv.isAsciiBlank = false ∧ String.utf8EncodeChar c ≠ [] ∧
        ∀ b ∈ String.utf8EncodeChar c, Csv.isAsciiBlank b = false := by
    intro c
    rcases utf8EncodeChar_cases c with ⟨-, hc⟩ | ⟨hne, hc⟩
    · rw [hc]
      cases hb : Csv.isAsciiBlank (UInt8.ofNat c.toNat) <;> simp [hb]
    · have hb : ∀ b ∈ String.utf8EncodeChar c, Csv.isAsciiBlank b = false := by
        intro b hb
        have hge := hc b hb
        refine Bool.eq_false_iff.2 fun h => ?_
        rcases isAsciiBlank_iff.1 h with rfl | rfl | rfl | rfl | rfl <;> revert hge <;> decide
      obtain ⟨b, bs, hbs⟩ := List.exists_cons_of_ne_nil hne
      refine .inr ⟨?_, hne, hb⟩
      rw [hbs, List.all_cons, hb b (by simp [hbs]), Bool.false_and]
  have hstrip := strip_flatMap hclass s.toList
  exact ⟨String.ofList _, by
    rw [encode_eq_flatMap, encode_eq_flatMap, String.toList_ofList]
    exact hstrip⟩

/-- Bytes are those of a text before ASCII blanks around them are removed if they are after it, and
the two texts are the same once trimmed. -/
theorem map_trim_decode?_trimBytes (bytes : Bytes) :
    (decode? (Csv.trimBytes bytes)).map trim = (decode? bytes).map trim := by
  obtain ⟨before, after, hbytes, hb, ha⟩ := exists_strip Csv.isAsciiBlank bytes
  obtain ⟨cs, rfl, hcs⟩ := exists_blanks hb
  obtain ⟨ds, rfl, hds⟩ := exists_blanks ha
  cases h : decode? (Csv.trimBytes bytes) with
  | some t =>
    have hs : decode? bytes = some (String.ofList (cs ++ t.toList ++ ds)) := by
      rw [decode?_eq_some_iff, encode_eq_flatMap, String.toList_ofList, List.flatMap_append,
        List.flatMap_append, ← encode_eq_flatMap, ← decode?_eq_some_iff.1 h]
      exact hbytes
    rw [hs, Option.map_some, Option.map_some, trim_ofList, strip_append hcs hds]
    rfl
  | none =>
    cases h' : decode? bytes with
    | none => rfl
    | some s =>
      rw [decode?_eq_some_iff.1 h'] at h
      obtain ⟨t, ht⟩ := exists_trimBytes_encode s
      rw [ht, decode?_encode] at h
      cases h

end Spreadsheet.Text
