import Choreo.Proofs.Number.Positional
import Choreo.Toml.Statement

/-! # Numbers in TOML

The text of a positive number, as program files have it, is digits, a point and more digits
(`exists_writeChars`). Such a text is a word of TOML that is read as that number and as nothing
else: it is no date, no integer and no string (`NumberText.ofWord?_eq`). -/

namespace Choreo.Toml

/-! ### Digits -/

theorem readDigits_eq {digits : List Char} (h0 : digits ≠ [])
    (h : ∀ c ∈ digits, isDigit c = true) : readDigits isDigit digits = some digits := by
  induction digits with
  | nil => exact absurd rfl h0
  | cons c rest ih =>
    have hc := h c List.mem_cons_self
    rcases rest with _ | ⟨d, rest⟩
    · rw [readDigits, if_pos hc]
    · have hd : d ≠ '_' := by
        rintro rfl
        exact absurd (h '_' (by simp)) (by decide)
      rw [readDigits.eq_4 _ _ _ (by simp) (fun r hr => hd (List.cons.inj hr).1), if_pos hc,
        ih (List.cons_ne_nil _ _) fun x hx => h x (List.mem_cons_of_mem _ hx)]
      rfl

theorem isDigit_of_readDigits {text digits : List Char}
    (h : readDigits isDigit text = some digits) : ∀ c ∈ text, isDigit c = true ∨ c = '_' := by
  fun_induction readDigits isDigit text generalizing digits with
  | case1 => simp
  | case2 c hc => simpa using Or.inl hc
  | case3 => cases h
  | case4 c rest hc ih =>
    obtain ⟨more, hmore, -⟩ := Option.map_eq_some_iff.mp h
    intro x hx
    rcases List.mem_cons.mp hx with rfl | hx
    · exact Or.inl hc
    rcases List.mem_cons.mp hx with rfl | hx
    · exact Or.inr rfl
    · exact ih hmore x hx
  | case5 => cases h
  | case6 c rest _ _ hc ih =>
    obtain ⟨more, hmore, -⟩ := Option.map_eq_some_iff.mp h
    intro x hx
    rcases List.mem_cons.mp hx with rfl | hx
    · exact Or.inl hc
    · exact ih hmore x hx
  | case7 => cases h

/-! ### Dates and times -/

theorem readMark_eq_none {c : Char} {text : List Char} (h : c ∉ text) : readMark c text = none := by
  rcases text with _ | ⟨d, rest⟩
  · rfl
  · rw [readMark, if_neg]
    rintro rfl
    exact h List.mem_cons_self

theorem readField_rest {count low high n : ℕ} {text rest : List Char}
    (h : readField count low high text = some (n, rest)) : rest = text.drop count := by
  unfold readField at h
  simp only at h
  split_ifs at h
  rw [Option.some.injEq, Prod.mk.injEq] at h
  exact h.2.symm

theorem isMoment_eq_false {text : List Char} (hdash : '-' ∉ text) (hcolon : ':' ∉ text) :
    isMoment text = false := by
  have hmark : ∀ (c : Char), c ∉ text → ∀ count low high n rest,
      readField count low high text = some (n, rest) → readMark c rest = none := by
    intro c hc count low high n rest hfield
    rw [readField_rest hfield]
    exact readMark_eq_none fun hmem => hc (List.mem_of_mem_drop hmem)
  have hdate : readDate text = none := by
    unfold readDate
    rcases hfield : readField 4 0 9999 text with _ | ⟨n, rest⟩
    · rfl
    · simp [hmark '-' hdash _ _ _ _ _ hfield]
  have htime : readTime text = none := by
    unfold readTime
    rcases hfield : readField 2 0 23 text with _ | ⟨n, rest⟩
    · rfl
    · simp [hmark ':' hcolon _ _ _ _ _ hfield]
  rw [isMoment, hdate, htime]
  rfl

/-! ### Numbers -/

theorem splitSign_eq {text : List Char} (hminus : '-' ∉ text) (hplus : '+' ∉ text) :
    splitSign text = (false, text) := by
  unfold splitSign
  split
  · exact absurd List.mem_cons_self hminus
  · exact absurd List.mem_cons_self hplus
  · rfl

theorem readDigits_eq_none {text : List Char} (h : '.' ∈ text) :
    readDigits isDigit text = none := by
  rcases hd : readDigits isDigit text with _ | digits
  · rfl
  · rcases isDigit_of_readDigits hd '.' h with hc | hc
    · exact absurd hc (by decide)
    · exact absurd hc (by decide)

theorem readWhole_eq_none {text : List Char} (h : '.' ∈ text) : readWhole text = none := by
  unfold readWhole
  rw [readDigits_eq_none h]

theorem readWhole_eq {digits : List Char} (h0 : digits ≠ []) (h : ∀ c ∈ digits, isDigit c = true)
    (hzero : ∀ rest, digits = '0' :: rest → rest = []) : readWhole digits = some digits := by
  unfold readWhole
  rw [readDigits_eq h0 h]
  split
  · rename_i c rest hd
    exact absurd (hzero _ (Option.some.inj hd)) (List.cons_ne_nil _ _)
  · rfl

/-- The text of a number: digits, a point and digits, with no zero before another digit. -/
structure NumberText (whole fraction : List Char) : Prop where
  whole_ne : whole ≠ []
  fraction_ne : fraction ≠ []
  digits : ∀ c ∈ whole ++ fraction, isDigit c = true
  zero : ∀ rest, whole = '0' :: rest → rest = []

namespace NumberText

variable {whole fraction : List Char} (h : NumberText whole fraction)
include h

theorem not_mem {c : Char} (hc : isDigit c = false) (hpoint : c ≠ '.') :
    c ∉ whole ++ '.' :: fraction := by
  intro hmem
  rcases List.mem_append.mp hmem with hmem | hmem
  · rw [h.digits c (List.mem_append_left _ hmem)] at hc
    cases hc
  · rcases List.mem_cons.mp hmem with rfl | hmem
    · exact hpoint rfl
    · rw [h.digits c (List.mem_append_right _ hmem)] at hc
      cases hc

theorem exists_cons : ∃ c rest, whole ++ '.' :: fraction = c :: rest ∧ isDigit c = true := by
  obtain ⟨hne, -, hdigits, -⟩ := h
  rcases whole with _ | ⟨c, whole⟩
  · exact absurd rfl hne
  · exact ⟨c, _, rfl, hdigits c List.mem_cons_self⟩

theorem readInteger_eq_none : readInteger (whole ++ '.' :: fraction) = none := by
  have hnot := fun (c : Char) (hc : isDigit c = false) (hpoint : c ≠ '.') => h.not_mem hc hpoint
  generalize htext : whole ++ '.' :: fraction = text at hnot
  have hpoint : '.' ∈ text := by simp [← htext]
  unfold readInteger
  split
  · exact absurd (by simp) (hnot 'x' (by decide) (by decide))
  · exact absurd (by simp) (hnot 'o' (by decide) (by decide))
  · exact absurd (by simp) (hnot 'b' (by decide) (by decide))
  · rw [splitSign_eq (hnot _ (by decide) (by decide)) (hnot _ (by decide) (by decide))]
    simp [readWhole_eq_none hpoint]

theorem readDecimalWord_eq : readDecimalWord (whole ++ '.' :: fraction) =
    some (.ofDigits whole fraction 0) := by
  have hmark : ∀ c ∈ whole ++ '.' :: fraction, (!(c = 'e' || c = 'E' : Bool)) = true := by
    intro c hc
    rw [Bool.not_eq_true', Bool.or_eq_false_iff, decide_eq_false_iff_not, decide_eq_false_iff_not]
    exact ⟨fun he => h.not_mem (by decide) (by decide) (he ▸ hc),
      fun he => h.not_mem (by decide) (by decide) (he ▸ hc)⟩
  have hpoint : ∀ c ∈ whole, decide (c ≠ '.') = true := by
    intro c hc
    have hdigit := h.digits c (List.mem_append_left _ hc)
    refine decide_eq_true fun he => ?_
    rw [he] at hdigit
    exact absurd hdigit (by decide)
  have htake : (whole ++ '.' :: fraction).takeWhile (fun c => decide (c ≠ '.')) = whole := by
    rw [List.takeWhile_append_of_pos hpoint]
    simp
  have hdrop : (whole ++ '.' :: fraction).dropWhile (fun c => decide (c ≠ '.')) =
      '.' :: fraction := by
    rw [List.dropWhile_append_of_pos hpoint]
    simp
  unfold readDecimalWord
  simp only
  rw [List.takeWhile_eq_self_iff.mpr hmark, List.dropWhile_eq_nil_iff.mpr hmark, htake, hdrop]
  simp only [Option.bind_eq_bind, Option.bind_some]
  rw [readWhole_eq h.whole_ne (fun c hc => h.digits c (List.mem_append_left _ hc)) h.zero,
    readDigits_eq h.fraction_ne fun c hc => h.digits c (List.mem_append_right _ hc)]
  rfl

/-- **The text of a number is read as that number.** -/
theorem ofWord?_eq
    (hfinite : ((Decimal.ofDigits whole fraction 0).toDouble false).isFinite = true) :
    Scalar.ofWord? (whole ++ '.' :: fraction) =
      some (.float ((Decimal.ofDigits whole fraction 0).toDouble false)) := by
  have hnot := fun (c : Char) (hc : isDigit c = false) (hpoint : c ≠ '.') => h.not_mem hc hpoint
  have hne : ∀ (word : List Char) (c : Char), c ∈ word → isDigit c = false → c ≠ '.' →
      whole ++ '.' :: fraction ≠ word := by
    rintro word c hmem hc hpoint rfl
    exact hnot c hc hpoint hmem
  rw [Scalar.ofWord?, if_neg (hne _ 't' (by simp) (by decide) (by decide)),
    if_neg (hne _ 'f' (by simp) (by decide) (by decide)),
    isMoment_eq_false (hnot _ (by decide) (by decide)) (hnot _ (by decide) (by decide)),
    if_neg Bool.false_ne_true, h.readInteger_eq_none, Option.none_or, readFloat,
    splitSign_eq (hnot _ (by decide) (by decide)) (hnot _ (by decide) (by decide))]
  simp only
  rw [if_neg (hne _ 'i' (by simp) (by decide) (by decide)),
    if_neg (hne _ 'n' (by simp) (by decide) (by decide)), h.readDecimalWord_eq]
  simp only [Option.bind_eq_bind, Option.bind_some]
  rw [if_pos (by rw [hfinite]; rfl)]

theorem splitWord_eq (rest : List Char) :
    splitWord (whole ++ '.' :: fraction ++ '\n' :: rest) =
      (whole ++ '.' :: fraction, '\n' :: rest) := by
  have hword : ∀ c ∈ whole ++ '.' :: fraction, (!endsWord c) = true := by
    intro c hc
    have hnot : ∀ d : Char, isDigit d = false → d ≠ '.' → c ≠ d := by
      rintro d hd hpoint rfl
      exact h.not_mem hd hpoint hc
    simp only [endsWord, Bool.not_eq_true', Bool.or_eq_false_iff, decide_eq_false_iff_not]
    exact ⟨⟨⟨⟨⟨⟨⟨hnot _ (by decide) (by decide), hnot _ (by decide) (by decide)⟩,
      hnot _ (by decide) (by decide)⟩, hnot _ (by decide) (by decide)⟩,
      hnot _ (by decide) (by decide)⟩, hnot _ (by decide) (by decide)⟩,
      hnot _ (by decide) (by decide)⟩, hnot _ (by decide) (by decide)⟩
  have hend : (!endsWord '\n') = false := by decide
  unfold splitWord
  rw [List.takeWhile_append_of_pos hword, List.dropWhile_append_of_pos hword,
    List.takeWhile_cons_of_neg (by simp [hend]), List.dropWhile_cons_of_neg (by simp [hend]),
    List.append_nil]
  rfl

theorem readString_eq_none (rest : List Char) :
    readString (whole ++ '.' :: fraction ++ rest) = none := by
  obtain ⟨c, more, hcons, hc⟩ := h.exists_cons
  have hquote : c ≠ '"' ∧ c ≠ '\'' := by
    constructor
    · rintro rfl
      exact absurd hc (by decide)
    · rintro rfl
      exact absurd hc (by decide)
  rw [hcons, readString, List.cons_append]
  have hopening : readOpening (c :: (more ++ rest)) = none := by
    unfold readOpening
    split
    · rename_i heq
      exact absurd (List.cons.inj heq).1 hquote.1
    · rename_i heq
      exact absurd (List.cons.inj heq).1 hquote.2
    · rename_i heq
      exact absurd (List.cons.inj heq).1 hquote.1
    · rename_i heq
      exact absurd (List.cons.inj heq).1 hquote.2
    · rfl
  rw [hopening]
  rfl

end NumberText

/-! ### Numbers of program files -/

/-- **The text of a positive number is read back as that number**, bit for bit. -/
theorem exists_writeChars {x : Float} (hfinite : Double.code x < BinaryFormat.double.infinity)
    (h0 : Double.code x ≠ 0) (hsign : Double.isNegative x = false) :
    ∃ whole fraction, NumberFormat.filed.writeChars x = whole ++ '.' :: fraction ∧
      NumberText whole fraction ∧ (Decimal.ofDigits whole fraction 0).toDouble false = x := by
  have hdigits := Decimal.digits_shortest_ne_zero .up hfinite h0
  obtain ⟨whole, fraction, htext, hw, hf, hd, hz, hvalue⟩ :=
    NumberFormat.exists_writePositional hdigits
  refine ⟨whole, fraction, ?_, ⟨hw, hf, hd, hz⟩, ?_⟩
  · rw [NumberFormat.writeChars, Double.isNaN_eq_false hfinite.le, if_neg Bool.false_ne_true]
    simp only
    rw [hsign, if_neg Bool.false_ne_true, NumberFormat.writeMagnitude, if_neg hfinite.ne, ← htext]
    exact if_pos (by simp [NumberFormat.filed])
  · rw [Decimal.toDouble, Decimal.code_congr hvalue, Decimal.code_shortest _ hfinite]
    have hself := Double.ofCode_code hfinite.le
    rwa [hsign] at hself

end Choreo.Toml
