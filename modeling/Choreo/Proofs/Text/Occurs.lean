import Choreo.Proofs.Text.Cut
import Choreo.Text.Lines
import Mathlib.Data.List.Infix

/-! # Pieces of a text

`occursIn` searches a text for a piece and finds it exactly if it stands there (`occursIn_iff`). Where
a text is put together, a piece stands in one of the parts if it has nothing of what stands between them
(`infix_append_cons_iff`), and it does not reach into a part without its first or its last
character. -/

namespace Choreo

theorem occursIn_iff {piece text : List Char} : occursIn piece text = true ↔ piece <:+: text := by
  induction text with
  | nil => rw [occursIn, List.isEmpty_iff, List.infix_nil]
  | cons c rest ih =>
    rw [occursIn, Bool.or_eq_true, List.isPrefixOf_iff_prefix, ih, List.infix_cons_iff]

section
variable {piece before rest after : List Char} {c : Char}

theorem not_infix_of_not_mem (hc : c ∈ piece) (h : c ∉ rest) : ¬ piece <:+: rest :=
  fun hpiece => h (hpiece.subset hc)

theorem infix_append_cons_iff (hc : c ∉ piece) :
    piece <:+: before ++ c :: rest ↔ piece <:+: before ∨ piece <:+: rest := by
  have hnone : ∀ {part : List Char}, c ∉ part → part <+: c :: rest → part = [] := by
    rintro (_ | ⟨d, part⟩) hpart h
    · rfl
    · exact absurd ((List.cons_prefix_cons.mp h).1 ▸ List.mem_cons_self) hpart
  rw [List.infix_append_iff, List.infix_cons_iff]
  constructor
  · rintro (h | (h | h) | ⟨first, second, rfl, hfirst, hsecond⟩)
    · exact Or.inl h
    · rw [hnone hc h]
      exact Or.inl List.nil_infix
    · exact Or.inr h
    · rw [List.mem_append, not_or] at hc
      rw [hnone hc.2 hsecond, List.append_nil]
      exact Or.inl hfirst.isInfix
  · rintro (h | h)
    · exact Or.inl h
    · exact Or.inr (Or.inl (Or.inr h))

theorem infix_append_left_iff (hfirst : ∃ c ∈ piece.head?, c ∉ before) :
    piece <:+: before ++ rest ↔ piece <:+: rest := by
  refine ⟨fun h => ?_, List.infix_append_of_infix_right⟩
  obtain ⟨c, hc, hnot⟩ := hfirst
  rcases List.infix_append_iff.mp h with h | h | ⟨first, second, rfl, hbefore, hrest⟩
  · exact absurd (h.subset (List.mem_of_mem_head? hc)) hnot
  · exact h
  · rcases first with _ | ⟨d, first⟩
    · exact hrest.isInfix
    · obtain rfl : d = c := Option.some.inj hc
      exact absurd (hbefore.subset List.mem_cons_self) hnot

theorem infix_append_right_iff (hlast : ∃ c ∈ piece.getLast?, c ∉ after) :
    piece <:+: rest ++ after ↔ piece <:+: rest := by
  rw [← List.reverse_infix, List.reverse_append, infix_append_left_iff, List.reverse_infix]
  obtain ⟨c, hc, hnot⟩ := hlast
  exact ⟨c, by rwa [List.head?_reverse], by rwa [List.mem_reverse]⟩

/-- A piece that begins and ends with characters that are not dropped stays when a text is trimmed. -/
theorem infix_trimBoth_iff {drop : Char → Bool} {text : List Char}
    (hfirst : ∃ c ∈ piece.head?, drop c = false) (hlast : ∃ c ∈ piece.getLast?, drop c = false) :
    piece <:+: trimBoth drop text ↔ piece <:+: text := by
  obtain ⟨before, after, hsplit, hdrop⟩ := (trims_trimBoth drop text).split
  have hkeep : ∀ {c}, drop c = false → c ∉ before ∧ c ∉ after := by
    intro c hc
    rw [← not_or, ← List.mem_append]
    intro hmem
    rw [hdrop c hmem] at hc
    cases hc
  obtain ⟨c, hc, hfirst⟩ := hfirst
  obtain ⟨d, hd, hlast⟩ := hlast
  conv_rhs => rw [hsplit, infix_append_right_iff ⟨d, hd, (hkeep hlast).2⟩,
    infix_append_left_iff ⟨c, hc, (hkeep hfirst).1⟩]

end

end Choreo
