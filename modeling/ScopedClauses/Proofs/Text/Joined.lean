import Mathlib.Data.List.Infix
import ScopedClauses.Text.Piece

/-!
Texts that are joined by a separator and cut at it again. The cut is made at the first occurrence of
the separator, which may begin inside a text and end inside the separator that was put after it.
-/

namespace ScopedClauses

namespace Text

section Pieces

variable {separator text rest piece : List Char}

theorem dropLeading?_eq_some : dropLeading? separator text = some rest ↔ text = separator ++ rest := by
  induction separator generalizing text with
  | nil => simp [dropLeading?]
  | cons char separator ih =>
      cases text with
      | nil => simp [dropLeading?]
      | cons first text =>
          by_cases same : char = first
          · subst same
            simp [dropLeading?, ih]
          · simp [dropLeading?, same, Ne.symm same]

theorem dropLeading?_eq_none (absent : ¬separator <+: text) : dropLeading? separator text = none := by
  cases found : dropLeading? separator text with
  | none => rfl
  | some rest => exact absurd ⟨rest, (dropLeading?_eq_some.mp found).symm⟩ absent

theorem pieces_passing (passed : List Char) :
    pieces separator piece passed.length (passed ++ text) = pieces separator piece 0 text := by
  induction passed with
  | nil => rfl
  | cons char passed ih =>
      rw [List.length_cons, List.cons_append, pieces]
      exact ih

theorem pieces_separator (nonempty : separator ≠ []) :
    pieces separator piece 0 (separator ++ text) = piece.reverse :: pieces separator [] 0 text := by
  cases separator with
  | nil => exact absurd rfl nonempty
  | cons char separator =>
      have found : dropLeading? (char :: separator) (char :: (separator ++ text)) = some text :=
        dropLeading?_eq_some.mpr rfl
      rw [List.cons_append, pieces, found]
      exact congrArg _ (pieces_passing separator)

theorem pieces_char {char : Char} (absent : ¬separator <+: char :: text) :
    pieces separator piece 0 (char :: text) = pieces separator (char :: piece) 0 text := by
  rw [pieces, dropLeading?_eq_none absent]

/-- What is left of a separator without its last character leads what the separator leads. -/
theorem dropLast_leads (text separator rest : List Char) :
    text ++ separator.dropLast <+: text ++ separator ++ rest := by
  rw [List.append_assoc, List.prefix_append_right_inj]
  exact (List.dropLast_prefix separator).trans (List.prefix_append _ _)

theorem pieces_last (absent : ¬separator <:+: text) :
    pieces separator piece 0 text = [piece.reverse ++ text] := by
  induction text generalizing piece with
  | nil => simp [pieces]
  | cons char text ih =>
      rw [List.infix_cons_iff, not_or] at absent
      rw [pieces_char absent.1, ih absent.2, List.reverse_cons, List.append_assoc, List.singleton_append]

theorem pieces_cut (apart : ¬separator <:+: text ++ separator.dropLast) :
    pieces separator piece 0 (text ++ separator ++ rest) =
      (piece.reverse ++ text) :: pieces separator [] 0 rest := by
  induction text generalizing piece with
  | nil =>
      have nonempty : separator ≠ [] := by
        rintro rfl
        exact apart (List.nil_infix)
      rw [List.nil_append, pieces_separator nonempty, List.append_nil]
  | cons char text ih =>
      rw [List.cons_append, List.infix_cons_iff, not_or] at apart
      have later : ¬separator <+: char :: (text ++ separator ++ rest) := by
        intro leads
        -- one that begins at this character ends before the last one of the separator after the text
        refine apart.1 (List.prefix_of_prefix_length_le leads
          (dropLast_leads (char :: text) separator rest) ?_)
        simp only [List.length_cons, List.length_append, List.length_dropLast]
        omega
      rw [List.cons_append, List.cons_append, pieces_char later, ih apart.2, List.reverse_cons,
        List.append_assoc, List.singleton_append]

theorem exists_cut (nonempty : separator ≠ []) (occurs : separator <:+: text) :
    ∃ before after, text = before ++ separator ++ after ∧
      ¬separator <:+: before ++ separator.dropLast := by
  induction text with
  | nil => exact absurd (List.infix_nil.mp occurs) nonempty
  | cons char text ih =>
      by_cases leads : separator <+: char :: text
      · obtain ⟨after, same⟩ := leads
        refine ⟨[], after, same.symm, fun shorter => ?_⟩
        have lengths := shorter.length_le
        have positive := List.length_pos_of_ne_nil nonempty
        rw [List.nil_append, List.length_dropLast] at lengths
        omega
      · have inside := (List.infix_cons_iff.mp occurs).resolve_left leads
        obtain ⟨before, after, rfl, apart⟩ := ih inside
        refine ⟨char :: before, after, rfl, fun found => ?_⟩
        rcases List.infix_cons_iff.mp found with first | further
        · exact leads (first.trans (dropLast_leads (char :: before) separator after))
        · exact apart further

theorem pieces_head_iff (nonempty : separator ≠ []) {others : List (List Char)} :
    pieces separator [] 0 (text ++ separator ++ rest) = text :: others ↔
      ¬separator <:+: text ++ separator.dropLast ∧ pieces separator [] 0 rest = others := by
  constructor
  · intro cut
    have occurs : separator <:+: text ++ separator ++ rest := ⟨text, rest, rfl⟩
    obtain ⟨before, after, same, apart⟩ := exists_cut nonempty occurs
    rw [same, pieces_cut apart, List.reverse_nil, List.nil_append, List.cons.injEq] at cut
    obtain ⟨rfl, later⟩ := cut
    rw [List.append_cancel_left_eq] at same
    exact ⟨apart, same ▸ later⟩
  · rintro ⟨apart, rfl⟩
    rw [pieces_cut apart, List.reverse_nil, List.nil_append]

theorem pieces_intercalate_iff (nonempty : separator ≠ []) {texts : List (List Char)}
    (present : texts ≠ []) (absent : ∀ text ∈ texts, ¬separator <:+: text) :
    pieces separator [] 0 (separator.intercalate texts) = texts ↔
      ∀ text ∈ texts.dropLast, ¬separator <:+: text ++ separator.dropLast := by
  induction texts with
  | nil => exact absurd rfl present
  | cons text texts ih =>
      obtain ⟨here, later⟩ := List.forall_mem_cons.mp absent
      cases texts with
      | nil => simp [pieces_last here]
      | cons next texts =>
          rw [List.intercalate_cons_cons, pieces_head_iff nonempty, ih (by simp) later,
            List.dropLast_cons_cons, List.forall_mem_cons]

end Pieces

def Occurs (part text : String) : Prop := part.toList <:+: text.toList

def RunsInto (text separator : String) : Prop :=
  separator.toList <:+: text.toList ++ separator.toList.dropLast

instance (part text : String) : Decidable (Occurs part text) :=
  inferInstanceAs (Decidable (part.toList <:+: text.toList))

instance (text separator : String) : Decidable (RunsInto text separator) :=
  inferInstanceAs (Decidable (separator.toList <:+: text.toList ++ separator.toList.dropLast))

/-- No text runs into a separator of one character that is not in it. -/
theorem runsInto_single {text separator : String} (single : separator.length = 1) :
    RunsInto text separator ↔ Occurs separator text := by
  rw [← String.length_toList, List.length_eq_one_iff] at single
  obtain ⟨char, same⟩ := single
  simp [RunsInto, Occurs, same]

/-- Texts that are joined by a separator that is in none of them are cut apart again exactly when
none but the last runs into it. -/
theorem split_intercalate_iff {separator : String} (nonempty : separator ≠ "") {texts : List String}
    (present : texts ≠ []) (absent : ∀ text ∈ texts, ¬Occurs separator text) :
    split separator (separator.intercalate texts) = texts ↔
      ∀ text ∈ texts.dropLast, ¬RunsInto text separator := by
  have chars : separator.toList ≠ [] := by simpa using nonempty
  have cut : split separator (separator.intercalate texts) =
      (pieces separator.toList [] 0 (separator.toList.intercalate (texts.map String.toList))).map
        String.ofList := by
    rw [split, String.toList_intercalate]
    split
    · contradiction
    · rfl
  have back : (texts.map String.toList).map String.ofList = texts := by simp [Function.comp_def]
  have injective : Function.Injective String.ofList := fun _ _ => String.ofList_inj.mp
  have listed : texts.map String.toList ≠ [] := by simpa using present
  have characters := pieces_intercalate_iff chars listed (by simpa [Occurs] using absent)
  rw [cut, ← back, (List.map_injective_iff.mpr injective).eq_iff, back, characters]
  simp only [← List.map_dropLast, List.forall_mem_map, RunsInto]

end Text

end ScopedClauses
