import Choreo.Text.Blank
import Choreo.Text.Lines
import Mathlib.Data.List.DropRight
import Mathlib.Data.List.Forall2

/-! # Trimmed texts and their pieces

What is left of a text without certain characters at both ends (`trims_trimBoth`), and the pieces of
a text that was put together with a mark between them (`pieces_intercalate`). -/

namespace Choreo

variable {drop : Char → Bool} {text rest : List Char} {mark : Char}

/-! ### Trimming -/

/-- The text is `rest` with characters to drop at both ends, and `rest` neither begins nor ends with
one. -/
structure Trims (drop : Char → Bool) (text rest : List Char) : Prop where
  split : ∃ before after, text = before ++ rest ++ after ∧ ∀ c ∈ before ++ after, drop c = true
  first : ∀ c ∈ rest.head?, drop c = false
  last : ∀ c ∈ rest.getLast?, drop c = false

theorem Trims.self (hfirst : ∀ c ∈ text.head?, drop c = false)
    (hlast : ∀ c ∈ text.getLast?, drop c = false) : Trims drop text text :=
  ⟨⟨[], [], by simp, by simp⟩, hfirst, hlast⟩

theorem trimBoth_eq (drop : Char → Bool) (text : List Char) :
    trimBoth drop text = (text.dropWhile drop).rdropWhile drop := rfl

theorem trims_trimBoth (drop : Char → Bool) (text : List Char) :
    Trims drop text (trimBoth drop text) := by
  rw [trimBoth_eq]
  refine ⟨⟨text.takeWhile drop, (text.dropWhile drop).rtakeWhile drop, ?_, fun c hc => ?_⟩,
    fun c hc => ?_, fun c hc => ?_⟩
  · rw [List.append_assoc, List.rdropWhile_append_rtakeWhile, List.takeWhile_append_dropWhile]
  · rcases List.mem_append.mp hc with hc | hc
    · exact List.mem_takeWhile_imp hc
    · exact List.mem_rtakeWhile_imp hc
  · -- what is dropped at the end leaves the first character in its place
    obtain ⟨more, hmore⟩ := List.rdropWhile_prefix drop (l := text.dropWhile drop)
    have hfirst : c ∈ (text.dropWhile drop).head? := by
      rw [← hmore, List.head?_append, Option.mem_def.mp hc]
      rfl
    have hnot := List.head?_dropWhile_not drop text
    rwa [Option.mem_def.mp hfirst] at hnot
  · obtain ⟨hne, rfl⟩ := List.mem_getLast?_eq_getLast hc
    exact Bool.eq_false_iff.mpr (List.rdropWhile_last_not drop _ hne)

theorem Trims.eq (h : Trims drop text rest) : trimBoth drop text = rest := by
  obtain ⟨⟨before, after, rfl, hdrop⟩, hfirst, hlast⟩ := h
  rw [List.forall_mem_append] at hdrop
  rw [trimBoth_eq, List.append_assoc, List.dropWhile_append_of_pos hdrop.1]
  rcases rest with _ | ⟨c, rest⟩
  · rw [List.nil_append, List.dropWhile_eq_nil_iff.mpr hdrop.2, List.rdropWhile_nil]
  · have hkeep : ¬ drop c = true := Bool.eq_false_iff.mp (hfirst c rfl)
    rw [List.cons_append, List.dropWhile_cons_of_neg hkeep, ← List.cons_append]
    rw [List.rdropWhile, List.reverse_append, List.dropWhile_append_of_pos (by simpa using hdrop.2),
      ← List.rdropWhile, List.rdropWhile_eq_self_iff]
    exact fun hne => Bool.eq_false_iff.mp (hlast _ (List.getLast?_eq_some_getLast hne))

/-! ### Cutting -/

theorem pieces_eq_splitOn (mark : Char) (text : List Char) :
    pieces mark text = text.splitOn mark := by
  induction text with
  | nil => rfl
  | cons c rest ih =>
    rw [pieces, List.splitOn_cons_eq_if_modifyHead, ih]
    by_cases hc : c = mark
    · simp [hc]
    · rcases h : rest.splitOn mark with _ | ⟨piece, more⟩
      · exact absurd h (List.splitOn_ne_nil mark rest)
      · simp [hc]

theorem intercalate_pieces (mark : Char) (text : List Char) :
    [mark].intercalate (pieces mark text) = text := by
  rw [pieces_eq_splitOn, List.intercalate_splitOn]

theorem pieces_ne_nil (mark : Char) (text : List Char) : pieces mark text ≠ [] := by
  rw [pieces_eq_splitOn]
  exact List.splitOn_ne_nil mark text

theorem pieces_intercalate {parts : List (List Char)} (hne : parts ≠ [])
    (hmark : ∀ part ∈ parts, mark ∉ part) : pieces mark ([mark].intercalate parts) = parts := by
  rw [pieces_eq_splitOn, List.splitOn_intercalate mark hmark hne]

theorem intercalate_ne_nil {between : List Char} {parts : List (List Char)} (hne : parts ≠ [])
    (h : ∀ part ∈ parts, part ≠ []) : between.intercalate parts ≠ [] := by
  obtain ⟨part, more, rfl⟩ := List.exists_cons_of_ne_nil hne
  have hpart : part ≠ [] := h part List.mem_cons_self
  rcases more with _ | ⟨next, more⟩
  · rwa [List.intercalate_singleton]
  · rw [List.intercalate_cons_cons, List.append_assoc]
    exact List.append_ne_nil_of_left_ne_nil hpart _

theorem mem_intercalate {between : List Char} {parts : List (List Char)} {c : Char}
    (h : c ∈ between.intercalate parts) : c ∈ between ∨ ∃ part ∈ parts, c ∈ part := by
  induction parts with
  | nil => cases h
  | cons part more ih =>
    rcases more with _ | ⟨next, more⟩
    · rw [List.intercalate_singleton] at h
      exact Or.inr ⟨part, List.mem_cons_self, h⟩
    · rw [List.intercalate_cons_cons, List.mem_append, List.mem_append] at h
      rcases h with (h | h) | h
      · exact Or.inr ⟨part, List.mem_cons_self, h⟩
      · exact Or.inl h
      · exact (ih h).imp_right fun ⟨q, hq, hc⟩ => ⟨q, List.mem_cons_of_mem _ hq, hc⟩

theorem exists_part_of_mem_ends {between : List Char} {parts : List (List Char)} {c : Char}
    (h : ∀ part ∈ parts, part ≠ [])
    (hc : c ∈ (between.intercalate parts).head? ∨ c ∈ (between.intercalate parts).getLast?) :
    ∃ part ∈ parts, c ∈ part := by
  induction parts with
  | nil => rcases hc with hc | hc <;> exact nomatch hc
  | cons part more ih =>
    rcases more with _ | ⟨next, more⟩
    · rw [List.intercalate_singleton] at hc
      exact ⟨part, List.mem_cons_self, hc.elim List.mem_of_mem_head? List.mem_of_mem_getLast?⟩
    · have hmore : ∀ part ∈ next :: more, part ≠ [] := fun q hq => h q (List.mem_cons_of_mem _ hq)
      rw [List.intercalate_cons_cons, List.append_assoc] at hc
      rcases hc with hc | hc
      · rw [List.head?_append_of_ne_nil _ (h part List.mem_cons_self)] at hc
        exact ⟨part, List.mem_cons_self, List.mem_of_mem_head? hc⟩
      · rw [← List.append_assoc, List.getLast?_append_of_ne_nil _
          (intercalate_ne_nil (List.cons_ne_nil _ _) hmore)] at hc
        obtain ⟨q, hq, hcq⟩ := ih hmore (Or.inr hc)
        exact ⟨q, List.mem_cons_of_mem _ hq, hcq⟩

end Choreo
