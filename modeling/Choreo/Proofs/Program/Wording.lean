import Choreo.Proofs.Number.Positional
import Choreo.Proofs.Text.Occurs
import Choreo.Toml.Fault

/-! # The words of a message about kinds

A message about an unknown kind starts with `hintWords`, and other messages quote the file. A string
between quotes has the words exactly if it has them without the quotes: what stands for a character
that is not shown itself is none of the words and does not begin them (`hints_quoted_iff`). Numbers do
not have them, since they are written without a `w` (`hints_found_iff`). -/

namespace Choreo

/-- The words that a message about an unknown kind starts with. -/
def hintWords : List Char := "unknown variant".toList

/-- The words stand in the text. -/
def Hints (text : List Char) : Prop := hintWords <:+: text

instance : DecidablePred Hints := fun _ => decidable_of_iff _ occursIn_iff

theorem hintWords_eq : hintWords =
    ['u', 'n', 'k', 'n', 'o', 'w', 'n', ' ', 'v', 'a', 'r', 'i', 'a', 'n', 't'] := rfl

namespace Hints

variable {before rest after text : List Char} {c : Char}

theorem of_not_mem (hc : c ∈ hintWords) (h : c ∉ text) : ¬ Hints text := not_infix_of_not_mem hc h

theorem append_cons_iff (hc : c ∉ hintWords) :
    Hints (before ++ c :: rest) ↔ Hints before ∨ Hints rest := infix_append_cons_iff hc

theorem append_left_iff (h : 'u' ∉ before) : Hints (before ++ rest) ↔ Hints rest :=
  infix_append_left_iff ⟨'u', rfl, h⟩

theorem append_right_iff (h : 't' ∉ after) : Hints (rest ++ after) ↔ Hints rest :=
  infix_append_right_iff ⟨'t', rfl, h⟩

end Hints

/-! ### Quoted texts -/

theorem exists_digitChar_of_mem_toDigits {b n : ℕ} {c : Char} (hb : 1 < b)
    (h : c ∈ Nat.toDigits b n) : ∃ d, Nat.digitChar d = c := by
  induction n using Nat.strong_induction_on with
  | _ n ih =>
    rw [Nat.toDigits_eq_if hb] at h
    split_ifs at h with hn
    · exact ⟨n, (List.mem_singleton.mp h).symm⟩
    · rcases List.mem_append.mp h with h | h
      · exact ih (n / b) (Nat.div_lt_self (by omega) hb) h
      · exact ⟨_, (List.mem_singleton.mp h).symm⟩

theorem not_mem_hexDigits (n : ℕ) : 'w' ∉ hexDigits n := by
  intro h
  obtain ⟨d, hd⟩ := exists_digitChar_of_mem_toDigits (by norm_num) h
  exact Nat.digitChar_ne _ (by decide) hd

/-- The number of a character, as a quoted text has it, neither has the words nor begins them. -/
theorem Hints.of_number {digits rest : List Char} (hdigits : 'w' ∉ digits)
    (h : Hints ('u' :: '\x7b' :: digits ++ '\x7d' :: rest)) : Hints rest := by
  refine ((append_cons_iff (by decide)).mp h).resolve_left (of_not_mem (c := 'w') (by decide) ?_)
  simpa using hdigits

/-- What stands for a character is the character, or a backslash and something that does not begin
the words; the character is then none of theirs. -/
theorem quotedChar_cases (c : Char) :
    quotedChar c = [c] ∨ c ∉ hintWords ∧
      ∃ tail, quotedChar c = '\\' :: tail ∧ ∀ rest, Hints (tail ++ rest) ↔ Hints rest := by
  unfold quotedChar
  split
  iterate 6 exact Or.inr ⟨by decide, _, rfl, fun rest => Hints.append_left_iff (by decide)⟩
  · split_ifs with hunseen
    · have hseen : ∀ d ∈ hintWords, isUnseen d = false := by simp [hintWords_eq, isUnseen]
      refine Or.inr ⟨fun hmem => ?_, _, rfl, fun rest =>
        ⟨fun h => ?_, List.infix_append_of_infix_right⟩⟩
      · rw [hseen c hmem] at hunseen
        cases hunseen
      · exact .of_number (not_mem_hexDigits c.toNat) (by simpa using h)
    · exact Or.inl rfl

theorem prefix_quoted_iff {piece : List Char} (h : piece ⊆ hintWords) {s : List Char} :
    piece <+: s.flatMap quotedChar ↔ piece <+: s := by
  induction piece generalizing s with
  | nil => exact iff_of_true List.nil_prefix List.nil_prefix
  | cons d piece ih =>
    rw [List.cons_subset] at h
    cases s with
    | nil => rfl
    | cons c s =>
      rw [List.flatMap_cons]
      rcases quotedChar_cases c with hc | ⟨hc, tail, htail, -⟩
      · rw [hc, List.singleton_append, List.cons_prefix_cons, List.cons_prefix_cons, ih h.2]
      · rw [htail, List.cons_append, List.cons_prefix_cons, List.cons_prefix_cons]
        refine iff_of_false ?_ ?_
        · rintro ⟨rfl, -⟩
          exact absurd h.1 (by decide)
        · rintro ⟨rfl, -⟩
          exact hc h.1

/-- **Quoting** neither hides the words nor brings them about. -/
theorem hints_quoted_iff {s : List Char} : Hints (s.flatMap quotedChar) ↔ Hints s := by
  induction s with
  | nil => rfl
  | cons c s ih =>
    rw [List.flatMap_cons]
    rcases quotedChar_cases c with hc | ⟨hc, tail, htail, hskip⟩
    · have hstart : hintWords <+: c :: s.flatMap quotedChar ↔ hintWords <+: c :: s := by
        rw [← prefix_quoted_iff (List.Subset.refl _) (s := c :: s), List.flatMap_cons, hc,
          List.singleton_append]
      rw [hc, List.singleton_append, Hints, Hints, List.infix_cons_iff, List.infix_cons_iff]
      exact or_congr hstart ih
    · rw [htail, List.cons_append, ← List.nil_append ('\\' :: _), ← List.nil_append (c :: s),
        Hints.append_cons_iff (by decide), Hints.append_cons_iff hc, hskip, ih]

/-! ### Numbers -/

theorem not_mem_decimalDigits (n : ℕ) : 'w' ∉ decimalDigits n :=
  fun h => absurd (isDigit_of_mem_decimalDigits h) (by decide)

theorem not_mem_writePositional (d : Decimal) : 'w' ∉ NumberFormat.writePositional [] d := by
  have hdigits := not_mem_decimalDigits d.digits
  unfold NumberFormat.writePositional
  simp only
  split_ifs
  · simp [hdigits]
  · have hpadded : ∀ k, 'w' ∉ List.replicate k '0' ++ decimalDigits d.digits := by simp [hdigits]
    rw [List.mem_append, List.mem_cons, not_or, not_or]
    exact ⟨fun h => hpadded _ (List.mem_of_mem_take h), by decide,
      fun h => hpadded _ (List.mem_of_mem_drop h)⟩

theorem not_mem_plain (x : Float) : 'w' ∉ (NumberFormat.plain.write x).toList := by
  have hmagnitude : 'w' ∉ NumberFormat.plain.writeMagnitude .double (Double.code x) := by
    rw [NumberFormat.writeMagnitude]
    split_ifs
    · decide
    · simp only [NumberFormat.plain, Bool.or_true, if_true]
      exact not_mem_writePositional _
  rw [NumberFormat.write, String.toList_ofList, NumberFormat.writeChars]
  split_ifs
  · decide
  · simpa using hmagnitude
  · exact hmagnitude

theorem not_mem_faultNumber (x : Float) : 'w' ∉ (Toml.faultNumber x).toList := by
  rw [Toml.faultNumber]
  split_ifs
  · rw [String.toList_append, List.mem_append, not_or]
    exact ⟨not_mem_plain x, by decide⟩
  · exact not_mem_plain x

theorem not_mem_nat (n : ℕ) : 'w' ∉ (toString n).toList := by
  have hshown : (toString n).toList = decimalDigits n := String.toList_ofList
  rw [hshown]
  exact not_mem_decimalDigits n

theorem not_mem_int (n : ℤ) : 'w' ∉ (toString n).toList := by
  cases n with
  | ofNat n => exact not_mem_nat n
  | negSucc n =>
    have hshown : (toString (Int.negSucc n)).toList = '-' :: decimalDigits (n + 1) := by
      simp [toString, Int.repr, decimalDigits]
    rw [hshown, List.mem_cons, not_or]
    exact ⟨by decide, not_mem_decimalDigits _⟩

/-! ### What was found -/

theorem not_mem_between {c : Char} {before text after : String} (hbefore : c ∉ before.toList)
    (htext : c ∉ text.toList) (hafter : c ∉ after.toList) :
    c ∉ (before ++ text ++ after).toList := by
  rw [String.toList_append, String.toList_append, List.mem_append, List.mem_append, not_or, not_or]
  exact ⟨⟨hbefore, htext⟩, hafter⟩

namespace Toml

theorem hints_found_iff (found : Found) :
    Hints found.text.toList ↔ ∃ s, found = .scalar (.text s) ∧ Hints s.toList := by
  have hnone : (∀ s, found ≠ .scalar (.text s)) → 'w' ∉ found.text.toList →
      (Hints found.text.toList ↔ ∃ s, found = .scalar (.text s) ∧ Hints s.toList) :=
    fun hfound h => iff_of_false (Hints.of_not_mem (by decide) h) fun ⟨s, hs, _⟩ => hfound s hs
  match found with
  | .scalar (.text s) =>
    have htext : (Found.scalar (.text s)).text = "string " ++ quoted s := rfl
    have hquoted : (quoted s).toList = '"' :: s.toList.flatMap quotedChar ++ ['"'] :=
      String.toList_ofList
    rw [htext, String.toList_append, hquoted, Hints.append_left_iff (by decide),
      Hints.append_right_iff (by decide), ← List.singleton_append, Hints.append_left_iff (by decide),
      hints_quoted_iff]
    exact ⟨fun h => ⟨s, rfl, h⟩, fun ⟨_, hs, h⟩ => by cases hs; exact h⟩
  | .scalar (.integer n) =>
    have htext : (Found.scalar (.integer n)).text = "integer `" ++ toString n ++ "`" := rfl
    refine hnone nofun ?_
    rw [htext]
    exact not_mem_between (by decide) (not_mem_int n) (by decide)
  | .scalar (.float x) =>
    have htext : (Found.scalar (.float x)).text =
        "floating point `" ++ faultNumber x ++ "`" := rfl
    refine hnone nofun ?_
    rw [htext]
    exact not_mem_between (by decide) (not_mem_faultNumber x) (by decide)
  | .scalar (.boolean b) =>
    refine hnone nofun ?_
    cases b <;> decide
  | .scalar .moment => exact hnone nofun (by decide)
  | .sequence => exact hnone nofun (by decide)
  | .map => exact hnone nofun (by decide)

end Toml

end Choreo
