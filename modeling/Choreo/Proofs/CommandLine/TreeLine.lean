import Choreo.CommandLine.Execution
import Choreo.Proofs.Block.Valid
import Choreo.Proofs.Path
import Choreo.Proofs.Program.Lines

/-! # The lines of a listing

The line of a node has the path of the node, its kind and its settings, with a space between two of
them (`toList_treeLine`). None of these words has a blank in it, so the line is cut into them again;
and each word says what it was written for, since different paths, kinds and parameters have different
names and different numbers have different texts. Hence a line tells the path, the kind and the settings
of its node (`treeLine_inj`). -/

namespace Choreo

theorem eq_of_map_eq_map {α β : Type*} {f : α → β} {as bs : List α}
    (hinj : ∀ a ∈ as, ∀ b ∈ bs, f a = f b → a = b) (h : as.map f = bs.map f) : as = bs := by
  induction as generalizing bs with
  | nil => exact (List.map_eq_nil_iff.mp h.symm).symm
  | cons a as ih =>
    obtain ⟨b, bs, rfl, hab, hrest⟩ := List.map_eq_cons_iff.mp h.symm
    rw [hinj a List.mem_cons_self b List.mem_cons_self hab.symm,
      ih (fun a ha b hb => hinj a (List.mem_cons_of_mem _ ha) b (List.mem_cons_of_mem _ hb))
        hrest.symm]

/-! ### Numbers -/

namespace NumberFormat

theorem writePositional_mark (mark : List Char) (d : Decimal) :
    writePositional mark d =
      if '.' ∈ writePositional [] d then writePositional [] d else writePositional [] d ++ mark := by
  have hpoint : '.' ∉ decimalDigits d.digits := fun h =>
    absurd (isDigit_of_mem_decimalDigits h) (by decide)
  unfold writePositional
  by_cases he : 0 ≤ d.exponent
  · simp [he, hpoint]
  · simp [he]

theorem writeChars_eq {style : NumberFormat} (hstyle : ∀ e, style.positional e = true) {x : Float}
    (hfinite : Double.code x < BinaryFormat.double.infinity) (hsign : Double.isNegative x = false) :
    style.writeChars x =
      writePositional style.wholeMark (Decimal.shortest .double style.tie (Double.code x)) := by
  rw [writeChars, Double.isNaN_eq_false hfinite.le, if_neg Bool.false_ne_true]
  simp only [hsign, Bool.false_eq_true, if_false, writeMagnitude, if_neg hfinite.ne, hstyle,
    Bool.or_true, if_true]

/-- A number stands in a file as it does in a listing, with a fraction after a whole one. -/
theorem filed_eq {x : Float} (hfinite : Double.code x < BinaryFormat.double.infinity)
    (hsign : Double.isNegative x = false) :
    filed.writeChars x = if '.' ∈ plain.writeChars x then plain.writeChars x
      else plain.writeChars x ++ ".0".toList := by
  rw [writeChars_eq (fun _ => rfl) hfinite hsign, writeChars_eq (fun _ => rfl) hfinite hsign]
  exact writePositional_mark _ _

end NumberFormat

namespace Param.Admits

variable {p q : Param} {x y : Float}

theorem exists_filed (h : p.Admits x) : ∃ whole fraction,
    NumberFormat.filed.writeChars x = whole ++ '.' :: fraction ∧ Toml.NumberText whole fraction ∧
      (Decimal.ofDigits whole fraction 0).toDouble false = x := by
  obtain ⟨hsign, hlow, hhigh⟩ := h.bounds
  exact Toml.exists_writeChars (lt_of_le_of_lt hhigh p.code_high_lt)
    (lt_of_lt_of_le p.code_low_pos hlow).ne' hsign

theorem filed_eq (h : p.Admits x) : NumberFormat.filed.writeChars x =
    if '.' ∈ NumberFormat.plain.writeChars x then NumberFormat.plain.writeChars x
    else NumberFormat.plain.writeChars x ++ ".0".toList := by
  obtain ⟨hsign, -, hhigh⟩ := h.bounds
  exact NumberFormat.filed_eq (lt_of_le_of_lt hhigh p.code_high_lt) hsign

/-- **The text of a number of a domain tells the number**, bit for bit. -/
theorem eq_of_plain_eq (hx : p.Admits x) (hy : q.Admits y)
    (h : NumberFormat.plain.writeChars x = NumberFormat.plain.writeChars y) : x = y := by
  obtain ⟨whole, fraction, hxtext, hxdigits, hxvalue⟩ := hx.exists_filed
  obtain ⟨whole', fraction', hytext, -, hyvalue⟩ := hy.exists_filed
  have hfiled : whole ++ '.' :: fraction = whole' ++ '.' :: fraction' := by
    rw [← hxtext, ← hytext, hx.filed_eq, hy.filed_eq, h]
  have hpoint : '.' ∉ whole ++ fraction := fun hmem =>
    absurd (hxdigits.digits _ hmem) (by decide)
  rw [List.mem_append, not_or] at hpoint
  obtain ⟨rfl, -, rfl⟩ := (List.append_cons_inj_of_notMem hpoint.1 hpoint.2).mp hfiled
  rw [← hxvalue, hyvalue]

theorem mem_plain (h : p.Admits x) {c : Char} (hc : c ∈ NumberFormat.plain.writeChars x) :
    c = '.' ∨ isDigit c = true := by
  obtain ⟨whole, fraction, htext, hdigits, -⟩ := h.exists_filed
  have hmem : c ∈ NumberFormat.filed.writeChars x := by
    rw [h.filed_eq]
    split_ifs
    · exact hc
    · exact List.mem_append_left _ hc
  rw [htext, List.mem_append, List.mem_cons] at hmem
  rcases hmem with hmem | rfl | hmem
  · exact Or.inr (hdigits.digits c (List.mem_append_left _ hmem))
  · exact Or.inl rfl
  · exact Or.inr (hdigits.digits c (List.mem_append_right _ hmem))

end Param.Admits

/-! ### Words -/

/-- A setting as it stands in a listing. -/
def settingWord (p : Param) (x : Float) : List Char :=
  p.name.toList ++ '=' :: NumberFormat.plain.writeChars x

theorem Param.name_injective : Function.Injective Param.name := fun p q h =>
  Option.some.inj (by rw [← ofName?_name p, h, ofName?_name q])

theorem Kind.name_injective : Function.Injective Kind.name := fun k l h =>
  Option.some.inj (by rw [← ofName?_name k, h, ofName?_name l])

theorem isBlank_of_isKeyChar {c : Char} (h : Toml.isKeyChar c = true) : isBlank c = false := by
  have hcode : 45 ≤ c.toNat ∧ c.toNat ≤ 122 := by
    simp only [Toml.isKeyChar, Char.isAlphanum, Char.isAlpha, Char.isUpper, Char.isLower,
      Char.isDigit, Bool.or_eq_true, Bool.and_eq_true, decide_eq_true_eq] at h
    simp only [ge_iff_le, UInt32.le_iff_toNat_le] at h
    rcases h with (((h | h) | h) | rfl) | rfl
    · exact ⟨(by decide : 45 ≤ 65).trans h.1, h.2.trans (by decide)⟩
    · exact ⟨(by decide : 45 ≤ 97).trans h.1, h.2⟩
    · exact ⟨(by decide : 45 ≤ 48).trans h.1, h.2.trans (by decide)⟩
    · decide
    · decide
  simp only [isBlank, Bool.or_eq_false_iff, Bool.and_eq_false_imp, decide_eq_true_eq,
    decide_eq_false_iff_not, not_le]
  omega

theorem decimalDigits_injective : Function.Injective decimalDigits := fun m n h => by
  have hm : Nat.ofDigitChars 10 (decimalDigits m) 0 = m := Nat.ofDigitChars_ten_toDigits
  have hn : Nat.ofDigitChars 10 (decimalDigits n) 0 = n := Nat.ofDigitChars_ten_toDigits
  rw [← hm, h, hn]

/-- **Different paths have different texts.** -/
theorem Path.chars_injective : Function.Injective Path.chars := by
  have hslash : ∀ (p : Path), ∀ part ∈ p.indices.map decimalDigits, '/' ∉ part := by
    intro p part hpart hmem
    obtain ⟨i, -, rfl⟩ := List.mem_map.mp hpart
    exact absurd (isDigit_of_mem_decimalDigits hmem) (by decide)
  have hpieces : ∀ p : Path, p.indices ≠ [] →
      pieces '/' p.chars = [] :: p.indices.map decimalDigits := by
    intro p hp
    rw [chars_eq hp, pieces, if_pos rfl, pieces_intercalate (by simpa using hp) (hslash p)]
  have hmixed : ∀ p q : Path, p.indices = [] → q.indices ≠ [] → p.chars ≠ q.chars := by
    rintro ⟨_⟩ q rfl hq h
    have hcut : [[], []] = [] :: q.indices.map decimalDigits := by
      rw [← hpieces q hq, ← h]
      rfl
    have hempty : ([] : List Char) ∈ q.indices.map decimalDigits := by
      rw [← (List.cons.inj hcut).2]
      exact List.mem_singleton_self _
    obtain ⟨i, -, hi⟩ := List.mem_map.mp hempty
    exact Nat.toDigits_ne_nil hi
  intro p q h
  by_cases hp : p.indices = [] <;> by_cases hq : q.indices = []
  · exact congrArg Path.mk (hp.trans hq.symm)
  · exact absurd h (hmixed p q hp hq)
  · exact absurd h.symm (hmixed q p hq hp)
  · have hcut := congrArg (pieces '/') h
    rw [hpieces p hp, hpieces q hq] at hcut
    exact congrArg Path.mk (decimalDigits_injective.list_map (List.cons.inj hcut).2)

theorem Path.exists_chars_cons (p : Path) : ∃ rest, p.chars = '/' :: rest := by
  rcases eq_or_ne p.indices [] with h | h
  · exact ⟨[], by rw [chars, isRoot, h]; rfl⟩
  · exact ⟨_, chars_eq h⟩

namespace Execution

/-! ### Lines -/

/-- The words of the line of a node. -/
def treeWords (path : Path) (n : Node) : List (List Char) :=
  path.chars :: n.kind.name.toList :: n.settings.toList.map fun (p, x) => settingWord p x

theorem toList_settings_text (s : Settings) : s.text.toList =
    [' '].intercalate (s.toList.map fun (p, x) => settingWord p x) := by
  rw [Settings.text, String.toList_intercalate, List.map_map]
  congr 1
  refine List.map_congr_left fun e _ => ?_
  simp [settingWord, NumberFormat.write, toString]

/-- **The line of a node** is its words, with a space between two of them, after the indent. -/
theorem toList_treeLine (path : Path) (n : Node) : (treeLine path n).toList =
    List.replicate (2 * (path.depth - 1)) ' ' ++ [' '].intercalate (treeWords path n) := by
  have hline : (treeLine path n).toList = List.replicate (2 * (path.depth - 1)) ' ' ++ (path.chars ++
      ' ' :: (n.kind.name.toList ++
        if n.settings.isEmpty then [] else ' ' :: n.settings.text.toList)) := by
    rw [treeLine]
    split_ifs <;> simp [toString, Path.text]
  rw [hline, treeWords, List.intercalate_cons_cons, toList_settings_text, Settings.isEmpty]
  rcases n.settings.toList with _ | ⟨e, rest⟩
  · simp
  · simp

theorem isBlank_of_mem_treeWords {path : Path} {n : Node} (hn : n.settings.Fits n.kind) :
    ∀ w ∈ treeWords path n, ∀ c ∈ w, isBlank c = false := by
  intro w hw c hc
  rw [treeWords, List.mem_cons, List.mem_cons, List.mem_map] at hw
  rcases hw with rfl | rfl | ⟨⟨p, x⟩, hpx, rfl⟩
  · rcases Path.mem_chars hc with rfl | hc
    · decide
    · exact Path.isBlank_of_isDigit hc
  · exact isBlank_of_isKeyChar ((BlockFile.isName_kind_name n.kind).2 c hc)
  · have hadmits := (hn p x (Settings.mem_toList_iff.mp hpx)).2
    rcases List.mem_append.mp hc with hc | hc
    · exact isBlank_of_isKeyChar ((BlockFile.isName_param p).2 c hc)
    · rcases List.mem_cons.mp hc with rfl | hc
      · decide
      · rcases hadmits.mem_plain hc with rfl | hc
        · decide
        · exact Path.isBlank_of_isDigit hc

theorem pieces_treeLine {path : Path} {n : Node} (hn : n.settings.Fits n.kind) :
    pieces ' ' ((treeLine path n).toList.dropWhile (· = ' ')) = treeWords path n := by
  obtain ⟨rest, hrest⟩ := path.exists_chars_cons
  have hstart : ∃ more, [' '].intercalate (treeWords path n) = '/' :: more := by
    rw [treeWords, List.intercalate_cons_cons, hrest]
    exact ⟨_, rfl⟩
  obtain ⟨more, hmore⟩ := hstart
  have hindent : ∀ c ∈ List.replicate (2 * (path.depth - 1)) ' ', (decide (c = ' ')) = true :=
    fun c hc => decide_eq_true (List.eq_of_mem_replicate hc)
  have hwords : ∀ w ∈ treeWords path n, ' ' ∉ w := fun w hw hmem =>
    absurd (isBlank_of_mem_treeWords hn w hw _ hmem) (by decide)
  rw [toList_treeLine, List.dropWhile_append_of_pos hindent, hmore,
    List.dropWhile_cons_of_neg (by decide), ← hmore]
  exact pieces_intercalate (List.cons_ne_nil _ _) hwords

/-- **The setting of a listing tells the parameter and the value.** -/
theorem settingWord_inj {p q : Param} {x y : Float} (hx : p.Admits x) (hy : q.Admits y)
    (h : settingWord p x = settingWord q y) : p = q ∧ x = y := by
  have hname : ∀ r : Param, '=' ∉ r.name.toList := fun r hmem =>
    absurd ((BlockFile.isName_param r).2 _ hmem) (by decide)
  have hvalue : '=' ∉ NumberFormat.plain.writeChars x := fun hmem => by
    rcases hx.mem_plain hmem with h | h <;> revert h <;> decide
  obtain ⟨hpq, -, hxy⟩ := (List.append_cons_inj_of_notMem (hname p) hvalue).mp h
  exact ⟨Param.name_injective (String.toList_injective hpq), hx.eq_of_plain_eq hy hxy⟩

/-- **A line tells the path, the kind and the settings of its node.** -/
theorem treeLine_inj {path path' : Path} {n n' : Node} (hn : n.settings.Fits n.kind)
    (hn' : n'.settings.Fits n'.kind) (h : treeLine path n = treeLine path' n') :
    path = path' ∧ n.kind = n'.kind ∧ n.settings = n'.settings := by
  have hwords : treeWords path n = treeWords path' n' := by
    rw [← pieces_treeLine hn, ← pieces_treeLine hn', h]
  obtain ⟨hpath, hwords⟩ := List.cons.inj hwords
  obtain ⟨hkind, hwords⟩ := List.cons.inj hwords
  have hlist : n.settings.toList = n'.settings.toList := by
    refine eq_of_map_eq_map (fun e he e' he' hword => ?_) hwords
    have hadmits := (hn e.1 e.2 (Settings.mem_toList_iff.mp he)).2
    have hadmits' := (hn' e'.1 e'.2 (Settings.mem_toList_iff.mp he')).2
    obtain ⟨h1, h2⟩ := settingWord_inj hadmits hadmits' hword
    exact Prod.ext h1 h2
  refine ⟨Path.chars_injective hpath, Kind.name_injective (String.toList_injective hkind),
    Settings.ext_get? fun p => Option.ext fun x => ?_⟩
  rw [← Settings.mem_toList_iff, hlist, Settings.mem_toList_iff]

theorem newline_not_mem_treeLine {path : Path} {n : Node} (hn : n.settings.Fits n.kind) :
    '\n' ∉ (treeLine path n).toList := by
  rw [toList_treeLine, List.mem_append]
  rintro (h | h)
  · exact absurd (List.eq_of_mem_replicate h) (by decide)
  · rcases mem_intercalate h with h | ⟨w, hw, h⟩
    · exact absurd (List.mem_singleton.mp h) (by decide)
    · exact absurd (isBlank_of_mem_treeWords hn w hw _ h) (by decide)

end Execution

end Choreo
