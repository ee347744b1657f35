import Choreo.Path
import Choreo.Proofs.Number.Positional
import Choreo.Proofs.Text.Cut

/-! # The texts of paths

A path has one text and is named by many: with blanks around it, with slashes more or fewer at both
ends, with plus signs and leading zeros. `Path.Spells` is the grammar of all texts that name a path.
Reading accepts exactly these (`Path.ofChars?_eq_some_iff`), each of them for one path, and the text
of a path is among those that name it (`Path.spells_chars`). -/

namespace Choreo

/-! ### Numbers -/

/-- The text is a number of 64 bits: after at most one plus sign there are only digits, at least
one. -/
structure SpellsNatural (text : List Char) (n : Nat) : Prop where
  digits : ∃ digits, (text = digits ∨ text = '+' :: digits) ∧ digits ≠ [] ∧
    (∀ c ∈ digits, c.isDigit = true) ∧ Nat.ofDigitChars 10 digits 0 = n
  fits : n < 2 ^ 64

/-- The text without a plus sign at its beginning. -/
def withoutPlus : List Char → List Char
  | '+' :: rest => rest
  | text => text

theorem withoutPlus_of_ne {c : Char} (h : c ≠ '+') (rest : List Char) :
    withoutPlus (c :: rest) = c :: rest := by
  unfold withoutPlus
  split
  · next heq => exact absurd (List.cons.inj heq).1 h
  · rfl

theorem eq_or_eq_plus (text : List Char) :
    text = withoutPlus text ∨ text = '+' :: withoutPlus text := by
  unfold withoutPlus
  split
  · exact Or.inr rfl
  · exact Or.inl rfl

theorem readNatural_cons (c : Char) (rest : List Char) : readNatural (c :: rest) =
    match withoutPlus (c :: rest) with
    | [] => .error .invalidDigit
    | d :: more => if (d :: more).all isDigit then
        if digitsValue 10 (d :: more) < 2 ^ 64 then .ok (digitsValue 10 (d :: more))
          else .error .tooLarge
      else .error .invalidDigit := by
  by_cases hc : c = '+'
  · subst hc
    rcases rest with _ | ⟨d, more⟩ <;> rfl
  · rw [withoutPlus_of_ne hc]
    simp [readNatural, hc]

theorem readNatural_eq_ok {text : List Char} {n : Nat} : readNatural text = .ok n ↔
    withoutPlus text ≠ [] ∧ (withoutPlus text).all isDigit = true ∧
      digitsValue 10 (withoutPlus text) = n ∧ n < 2 ^ 64 := by
  rcases text with _ | ⟨c, rest⟩
  · exact ⟨nofun, fun h => absurd rfl h.1⟩
  rw [readNatural_cons]
  rcases withoutPlus (c :: rest) with _ | ⟨d, more⟩
  · exact ⟨nofun, fun h => absurd rfl h.1⟩
  simp only
  split_ifs with hdigits hfits
  · rw [Except.ok.injEq]
    constructor
    · rintro rfl
      exact ⟨List.cons_ne_nil _ _, hdigits, rfl, hfits⟩
    · exact fun h => h.2.2.1
  · refine ⟨nofun, fun h => absurd ?_ hfits⟩
    rw [h.2.2.1]
    exact h.2.2.2
  · exact ⟨nofun, fun h => absurd h.2.1 hdigits⟩

/-- **Reading a natural number** accepts the texts that spell one. -/
theorem readNatural_eq_ok_iff {text : List Char} {n : Nat} :
    readNatural text = .ok n ↔ SpellsNatural text n := by
  rw [readNatural_eq_ok]
  constructor
  · rintro ⟨hne, hall, hvalue, hfits⟩
    rw [List.all_eq_true] at hall
    refine ⟨⟨withoutPlus text, eq_or_eq_plus text, hne, fun c hc => ?_, ?_⟩, hfits⟩
    · rw [← isDigit_eq]
      exact hall c hc
    · rw [← digitsValue_eq hall, hvalue]
  · rintro ⟨⟨digits, htext, hne, hdigits, hvalue⟩, hfits⟩
    have hwithout : withoutPlus text = digits := by
      rcases htext with rfl | rfl
      · obtain ⟨c, rest, rfl⟩ := List.exists_cons_of_ne_nil hne
        refine withoutPlus_of_ne ?_ rest
        rintro rfl
        exact absurd (hdigits '+' List.mem_cons_self) (by decide)
      · rfl
    have hall : ∀ c ∈ digits, isDigit c = true := fun c hc => (isDigit_eq c).trans (hdigits c hc)
    rw [hwithout]
    exact ⟨hne, List.all_eq_true.mpr hall, (digitsValue_eq hall).trans hvalue, hfits⟩

theorem spellsNatural_decimalDigits {n : Nat} (h : n < 2 ^ 64) :
    SpellsNatural (decimalDigits n) n :=
  ⟨⟨decimalDigits n, Or.inl rfl, Nat.toDigits_ne_nil,
    fun _ hc => (isDigit_eq _).symm.trans (isDigit_of_mem_decimalDigits hc),
    Nat.ofDigitChars_ten_toDigits⟩, h⟩

theorem SpellsNatural.slash_not_mem {text : List Char} {n : Nat} (h : SpellsNatural text n) :
    text ≠ [] ∧ '/' ∉ text := by
  obtain ⟨⟨digits, htext, hne, hdigits, -⟩, -⟩ := h
  have hslash : '/' ∉ digits := fun hmem => absurd (hdigits _ hmem) (by decide)
  rcases htext with rfl | rfl
  · exact ⟨hne, hslash⟩
  · exact ⟨List.cons_ne_nil _ _, by simp [hslash]⟩

/-! ### Paths -/

namespace Path

/-- The text names the path: without blanks and then without slashes at both ends nothing is left of
it, for the root, or the indices, with a slash between them. -/
def Spells (text : List Char) (p : Path) : Prop :=
  ∃ body rest, Trims isBlank text body ∧ Trims (· = '/') body rest ∧
    ((rest = [] ∧ p = root) ∨
      ∃ parts, parts ≠ [] ∧ rest = ['/'].intercalate parts ∧
        List.Forall₂ SpellsNatural parts p.indices)

theorem mapM_eq_some_iff {parts : List (List Char)} {indices : List Nat} :
    parts.mapM (fun part => (readNatural part).toOption) = some indices ↔
      List.Forall₂ SpellsNatural parts indices := by
  induction parts generalizing indices with
  | nil =>
    rw [List.forall₂_nil_left_iff]
    exact ⟨fun h => (Option.some.inj h).symm, fun h => h ▸ rfl⟩
  | cons part parts ih =>
    have hpart : ∀ i, (readNatural part).toOption = some i ↔ SpellsNatural part i := by
      intro i
      rw [← readNatural_eq_ok_iff]
      rcases readNatural part with e | j <;> simp [Except.toOption]
    rw [List.mapM_cons, List.forall₂_cons_left_iff]
    constructor
    · intro h
      obtain ⟨i, hi, h⟩ := Option.bind_eq_some_iff.mp h
      obtain ⟨is, his, h⟩ := Option.bind_eq_some_iff.mp h
      exact ⟨i, is, (hpart i).mp hi, ih.mp his, (Option.some.inj h).symm⟩
    · rintro ⟨i, is, hi, his, rfl⟩
      exact Option.bind_eq_some_iff.mpr ⟨i, (hpart i).mpr hi,
        Option.bind_eq_some_iff.mpr ⟨is, ih.mpr his, rfl⟩⟩

theorem ofChars?_of_nil {text : List Char} (h : trimBoth (· = '/') (trimBlank text) = []) :
    ofChars? text = some root := by
  rw [ofChars?, h]

theorem ofChars?_of_ne_nil {text : List Char} (h : trimBoth (· = '/') (trimBlank text) ≠ []) :
    ofChars? text = ((pieces '/' (trimBoth (· = '/') (trimBlank text))).mapM
      fun part => (readNatural part).toOption).map Path.mk := by
  rw [ofChars?]
  split
  · next hnil => exact absurd hnil h
  · rfl

theorem part_without_slash {parts : List (List Char)} {indices : List Nat}
    (h : List.Forall₂ SpellsNatural parts indices) : ∀ part ∈ parts, part ≠ [] ∧ '/' ∉ part := by
  intro part hmem
  obtain ⟨k, hk, rfl⟩ := List.getElem_of_mem hmem
  exact (h.get hk (h.length_eq ▸ hk)).slash_not_mem

/-- **Reading accepts the texts that name a path**, each of them for this path. -/
theorem ofChars?_eq_some_iff {text : List Char} {p : Path} :
    ofChars? text = some p ↔ Spells text p := by
  constructor
  · intro h
    refine ⟨_, _, trims_trimBoth isBlank text, trims_trimBoth (· = '/') (trimBlank text), ?_⟩
    by_cases hnil : trimBoth (· = '/') (trimBlank text) = []
    · rw [ofChars?_of_nil hnil] at h
      exact Or.inl ⟨hnil, (Option.some.inj h).symm⟩
    · rw [ofChars?_of_ne_nil hnil] at h
      obtain ⟨indices, hindices, rfl⟩ := Option.map_eq_some_iff.mp h
      exact Or.inr ⟨_, pieces_ne_nil '/' _, (intercalate_pieces '/' _).symm,
        mapM_eq_some_iff.mp hindices⟩
  · rintro ⟨body, rest, hbody, hrest, ⟨rfl, rfl⟩ | ⟨parts, hne, rfl, hparts⟩⟩
    · refine ofChars?_of_nil ?_
      rw [trimBlank, hbody.eq, hrest.eq]
    · have hpart := part_without_slash hparts
      have hcut : trimBoth (· = '/') (trimBlank text) = ['/'].intercalate parts := by
        rw [trimBlank, hbody.eq, hrest.eq]
      have hsome : ['/'].intercalate parts ≠ [] :=
        intercalate_ne_nil hne fun part h => (hpart part h).1
      rw [ofChars?_of_ne_nil (by rwa [hcut]), hcut,
        pieces_intercalate hne fun part h => (hpart part h).2, mapM_eq_some_iff.mpr hparts]
      rfl

/-! ### The text of a path -/

theorem chars_eq {p : Path} (h : p.indices ≠ []) :
    p.chars = '/' :: ['/'].intercalate (p.indices.map decimalDigits) := by
  have hflat : ∀ is : List Nat, is ≠ [] → (is.flatMap fun i => '/' :: decimalDigits i) =
      '/' :: ['/'].intercalate (is.map decimalDigits) := by
    intro is his
    induction is with
    | nil => exact absurd rfl his
    | cons i is ih =>
      rcases is with _ | ⟨j, is⟩
      · simp
      · rw [List.flatMap_cons, ih (List.cons_ne_nil _ _)]
        simp only [List.map_cons, List.intercalate_cons_cons]
        simp
  rw [chars, isRoot, if_neg (by simpa using h), hflat _ h]

theorem mem_chars {p : Path} {c : Char} (hc : c ∈ p.chars) : c = '/' ∨ isDigit c = true := by
  unfold chars at hc
  split at hc
  · exact Or.inl (List.mem_singleton.mp hc)
  · obtain ⟨i, -, hc⟩ := List.mem_flatMap.mp hc
    rcases List.mem_cons.mp hc with rfl | hc
    · exact Or.inl rfl
    · exact Or.inr (isDigit_of_mem_decimalDigits hc)

theorem isBlank_of_isDigit {c : Char} (h : isDigit c = true) : isBlank c = false := by
  have hcode : 48 ≤ c.toNat ∧ c.toNat ≤ 57 := by
    simpa [isDigit, Char.le_def, UInt32.le_iff_toNat_le] using h
  simp only [isBlank, Bool.or_eq_false_iff, Bool.and_eq_false_imp, decide_eq_true_eq,
    decide_eq_false_iff_not, not_le]
  omega

/-- **The text of a path names it.** -/
theorem spells_chars {p : Path} (h : ∀ i ∈ p.indices, i < 2 ^ 64) : Spells p.chars p := by
  have hblank : ∀ c ∈ p.chars, isBlank c = false := by
    intro c hc
    rcases mem_chars hc with rfl | hc
    · decide
    · exact isBlank_of_isDigit hc
  have hbody : Trims isBlank p.chars p.chars :=
    Trims.self (fun c hc => hblank c (List.mem_of_mem_head? hc))
      fun c hc => hblank c (List.mem_of_mem_getLast? hc)
  by_cases hroot : p.indices = []
  · obtain rfl : p = root := by
      obtain ⟨indices⟩ := p
      exact congrArg mk hroot
    exact ⟨_, [], hbody, ⟨⟨['/'], [], rfl, by simp⟩, nofun, nofun⟩, Or.inl ⟨rfl, rfl⟩⟩
  · have hdigits : ∀ part ∈ p.indices.map decimalDigits, ∀ c ∈ part, c ≠ '/' := by
      intro part hpart c hc
      obtain ⟨i, -, rfl⟩ := List.mem_map.mp hpart
      rintro rfl
      exact absurd (isDigit_of_mem_decimalDigits hc) (by decide)
    have hne : ∀ part ∈ p.indices.map decimalDigits, part ≠ [] := by
      intro part hpart
      obtain ⟨i, -, rfl⟩ := List.mem_map.mp hpart
      exact Nat.toDigits_ne_nil
    have hends : ∀ c, c ∈ (['/'].intercalate (p.indices.map decimalDigits)).head? ∨
        c ∈ (['/'].intercalate (p.indices.map decimalDigits)).getLast? →
        decide (c = '/') = false := by
      intro c hc
      obtain ⟨part, hpart, hc⟩ := exists_part_of_mem_ends hne hc
      exact decide_eq_false (hdigits part hpart c hc)
    refine ⟨_, _, hbody, ⟨⟨['/'], [], ?_, by simp⟩, fun c hc => hends c (Or.inl hc),
      fun c hc => hends c (Or.inr hc)⟩, Or.inr ⟨p.indices.map decimalDigits, ?_, rfl, ?_⟩⟩
    · rw [chars_eq hroot]
      simp
    · simpa using hroot
    · rw [List.forall₂_map_left_iff, List.forall₂_same]
      exact fun i hi => spellsNatural_decimalDigits (h i hi)

theorem Spells.fits {text : List Char} {p : Path} (h : Spells text p) :
    ∀ i ∈ p.indices, i < 2 ^ 64 := by
  obtain ⟨-, -, -, -, ⟨-, rfl⟩ | ⟨parts, -, -, hparts⟩⟩ := h
  · nofun
  · intro i hi
    obtain ⟨k, hk, rfl⟩ := List.getElem_of_mem hi
    exact (hparts.get (hparts.length_eq ▸ hk) hk).fits

theorem ofText_eq_ok_iff {s : String} {p : Path} : ofText s = .ok p ↔ Spells s.toList p := by
  rw [ofText, ← ofChars?_eq_some_iff]
  rcases ofChars? s.toList with _ | q <;> simp

theorem ofText_eq_error_iff {s : String} {e : SyntaxError} :
    ofText s = .error e ↔ e = ⟨s⟩ ∧ ∀ p, ¬ Spells s.toList p := by
  simp only [← ofChars?_eq_some_iff]
  rw [ofText]
  rcases ofChars? s.toList with _ | q <;> simp [eq_comm]

/-- **The texts of paths.** -/
theorem texts_spell_paths :
    (∀ p : Path, (∀ i ∈ p.indices, i < 2 ^ 64) → ofText p.text = .ok p) ∧
    (∀ s p, ofText s = .ok p ↔ Spells s.toList p) ∧
    (∀ s p, ofText s = .ok p → ofText p.text = .ok p) ∧
    (∀ s e, ofText s = .error e ↔ e = ⟨s⟩ ∧ ∀ p, ¬ Spells s.toList p) := by
  have hcodec : ∀ p : Path, (∀ i ∈ p.indices, i < 2 ^ 64) → ofText p.text = .ok p := by
    intro p hp
    rw [ofText_eq_ok_iff, text, String.toList_ofList]
    exact spells_chars hp
  exact ⟨hcodec, fun s p => ofText_eq_ok_iff,
    fun s p h => hcodec p (ofText_eq_ok_iff.mp h).fits, fun s e => ofText_eq_error_iff⟩

theorem last_index_reads_back :
    (∀ i ∈ [2, 2 ^ 64 - 1], i < 2 ^ 64) ∧
    ofText (text ⟨[2, 2 ^ 64 - 1]⟩) = .ok ⟨[2, 2 ^ 64 - 1]⟩ ∧
    Spells " //+2/007/ ".toList ⟨[2, 7]⟩ ∧ ofText (text ⟨[2, 7]⟩) = .ok ⟨[2, 7]⟩ ∧
    (∀ p, ¬ Spells "/2/ 0".toList p) ∧ ∀ p, ¬ Spells "18446744073709551616".toList p :=
  have hlenient : ofText " //+2/007/ " = .ok ⟨[2, 7]⟩ := by decide
  ⟨by decide, texts_spell_paths.1 ⟨[2, 2 ^ 64 - 1]⟩ (by decide),
    (texts_spell_paths.2.1 _ _).mp hlenient, texts_spell_paths.2.2.1 _ _ hlenient,
    ((texts_spell_paths.2.2.2 "/2/ 0" ⟨"/2/ 0"⟩).mp (by decide)).2,
    ((texts_spell_paths.2.2.2 _ ⟨"18446744073709551616"⟩).mp (by decide)).2⟩

end Path

end Choreo
