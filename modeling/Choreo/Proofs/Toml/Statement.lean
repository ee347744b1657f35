import Choreo.Proofs.Toml.Word

/-! # Lines of TOML

What the reader makes of the lines that program files consist of: a header in double brackets over a
path of plain names, and the assignment of a number or of a plain word between quotes to such a name.
A header is read if its path has at most as many parts as keys may have, and refused if it has more
(`readStatement_header`, `readStatement_header_eq_none`). -/

namespace Choreo.Toml

/-! ### Names -/

/-- A name that a key can have without quotes. -/
def IsName (name : String) : Prop := name.toList ≠ [] ∧ ∀ c ∈ name.toList, isKeyChar c = true

theorem isPlain_of_isKeyChar {c : Char} (h : isKeyChar c = true) : isPlain c = true := by
  have hrange : 45 ≤ c.toNat ∧ c.toNat ≤ 122 := by
    simp only [isKeyChar, Char.isAlphanum, Char.isAlpha, Char.isUpper, Char.isLower, Char.isDigit,
      Bool.or_eq_true, Bool.and_eq_true, decide_eq_true_eq, ge_iff_le, UInt32.le_iff_toNat_le] at h
    change 45 ≤ c.val.toNat ∧ c.val.toNat ≤ 122
    rcases h with (((⟨h1, h2⟩ | ⟨h1, h2⟩) | ⟨h1, h2⟩) | rfl) | rfl
    · exact ⟨le_trans (by decide) h1, le_trans h2 (by decide)⟩
    · exact ⟨le_trans (by decide) h1, le_trans h2 (by decide)⟩
    · exact ⟨le_trans (by decide) h1, le_trans h2 (by decide)⟩
    · decide
    · decide
  rw [isPlain, Bool.or_eq_true, Bool.and_eq_true, decide_eq_true_eq, decide_eq_true_eq]
  exact Or.inr ⟨by omega, by simp only [ne_eq, decide_not, Bool.not_eq_true',
    decide_eq_false_iff_not]; omega⟩

theorem IsName.exists_cons {name : String} (h : IsName name) :
    ∃ c rest, name.toList = c :: rest ∧ isKeyChar c = true := by
  obtain ⟨hne, hkey⟩ := h
  rcases hn : name.toList with _ | ⟨c, rest⟩
  · exact absurd hn hne
  · exact ⟨c, rest, rfl, hkey c (by rw [hn]; exact List.mem_cons_self)⟩

theorem ne_of_isKeyChar {c d : Char} (hc : isKeyChar c = true) (hd : isKeyChar d = false) :
    c ≠ d := by
  rintro rfl
  rw [hc] at hd
  cases hd

theorem skipSpaces_cons {c : Char} (h : isSpace c = false) (rest : List Char) :
    skipSpaces (c :: rest) = c :: rest := by
  rw [skipSpaces, List.dropWhile_cons_of_neg (by rw [h]; exact Bool.false_ne_true)]

theorem isSpace_eq_false {c : Char} (h : isKeyChar c = true) : isSpace c = false := by
  rw [isSpace, Bool.or_eq_false_iff, decide_eq_false_iff_not, decide_eq_false_iff_not]
  exact ⟨ne_of_isKeyChar h (by decide), ne_of_isKeyChar h (by decide)⟩

section

variable {name : String} (h : IsName name) {c : Char} (hc : isKeyChar c = false)
include h hc

theorem readName_eq (rest : List Char) :
    readName (name.toList ++ c :: rest) = some (name, c :: rest) := by
  have hneg : ¬ isKeyChar c = true := by
    rw [hc]
    exact Bool.false_ne_true
  have htake : (name.toList ++ c :: rest).takeWhile isKeyChar = name.toList := by
    rw [List.takeWhile_append_of_pos h.2, List.takeWhile_cons_of_neg hneg, List.append_nil]
  have hdrop : (name.toList ++ c :: rest).dropWhile isKeyChar = c :: rest := by
    rw [List.dropWhile_append_of_pos h.2, List.dropWhile_cons_of_neg hneg]
  unfold readName
  rw [htake, hdrop]
  split
  · exact absurd ‹name.toList = []› h.1
  · rw [String.ofList_toList]

theorem readKey_eq (size : ℕ) (rest : List Char) : ∃ span,
    readKey size (name.toList ++ c :: rest) = some (⟨name, span⟩, skipSpaces (c :: rest)) := by
  obtain ⟨d, more, hcons, hd⟩ := h.exists_cons
  have hskip : skipSpaces (name.toList ++ c :: rest) = name.toList ++ c :: rest := by
    rw [hcons, List.cons_append, skipSpaces_cons (isSpace_eq_false hd)]
  refine ⟨spanBetween size (name.toList ++ c :: rest) (c :: rest), ?_⟩
  unfold readKey
  simp only [hskip, readName_eq h hc, Option.bind_eq_bind, Option.bind_some]

end

/-! ### Paths -/

/-- The text of a dotted path. -/
def dotted : List String → List Char
  | [] => []
  | [name] => name.toList
  | name :: rest => name.toList ++ '.' :: dotted rest

theorem dotted_cons_cons (name next : String) (rest : List String) :
    dotted (name :: next :: rest) = name.toList ++ '.' :: dotted (next :: rest) := rfl

theorem dotted_concat {names : List String} (h : names ≠ []) (name : String) :
    dotted (names ++ [name]) = dotted names ++ '.' :: name.toList := by
  induction names with
  | nil => exact absurd rfl h
  | cons first rest ih =>
    rcases rest with _ | ⟨next, rest⟩
    · rfl
    · rw [List.cons_append, List.cons_append, dotted_cons_cons, dotted_cons_cons,
        ← List.cons_append, ih (List.cons_ne_nil _ _), List.append_assoc, List.cons_append]

section

variable {names : List String} (hnames : ∀ name ∈ names, IsName name) {c : Char}
  (size : ℕ)
include hnames

/-- **A path that is not too long is read part by part.** -/
theorem readKeyPath_eq {rest : List Char} (hc : isKeyChar c = false)
    (hdot : ∀ more, skipSpaces (c :: rest) ≠ '.' :: more) (h0 : names ≠ []) {fuel : ℕ}
    (hfuel : names.length ≤ fuel) : ∃ keys,
      readKeyPath size fuel (dotted names ++ c :: rest) = some (keys, skipSpaces (c :: rest)) ∧
      keys.map (·.name) = names := by
  induction names generalizing fuel with
  | nil => exact absurd rfl h0
  | cons name more ih =>
    obtain ⟨fuel, rfl⟩ : ∃ n, fuel = n + 1 := ⟨fuel - 1, by simp at hfuel; omega⟩
    have hname := hnames name List.mem_cons_self
    rcases more with _ | ⟨next, more⟩
    · obtain ⟨span, hkey⟩ := readKey_eq hname hc size rest
      refine ⟨[⟨name, span⟩], ?_, rfl⟩
      rw [dotted, readKeyPath]
      simp only [hkey, Option.bind_eq_bind, Option.bind_some]
    · have hless : (next :: more).length ≤ fuel := by simpa using hfuel
      obtain ⟨keys, hkeys, hmap⟩ := ih (fun n hn => hnames n (List.mem_cons_of_mem _ hn))
        (List.cons_ne_nil _ _) hless
      obtain ⟨span, hkey⟩ := readKey_eq hname (c := '.') (by decide) size
        (dotted (next :: more) ++ c :: rest)
      refine ⟨⟨name, span⟩ :: keys, ?_, by rw [List.map_cons, hmap]⟩
      rw [dotted_cons_cons, List.append_assoc, List.cons_append, readKeyPath]
      simp only [hkey, Option.bind_eq_bind, Option.bind_some, skipSpaces_cons (show isSpace '.' =
        false by decide), hkeys]

/-- **A path that is too long is refused.** -/
theorem readKeyPath_eq_none (rest : List Char) {fuel : ℕ} (hfuel : fuel < names.length) :
    readKeyPath size fuel (dotted names ++ c :: rest) = none := by
  induction names generalizing fuel with
  | nil => exact absurd hfuel (Nat.not_lt_zero _)
  | cons name more ih =>
    rcases fuel with _ | fuel
    · rfl
    · have hfuel : fuel < more.length := by simpa using hfuel
      rcases more with _ | ⟨next, more⟩
      · exact absurd hfuel (Nat.not_lt_zero _)
      · obtain ⟨span, hkey⟩ := readKey_eq (hnames name List.mem_cons_self) (c := '.') (by decide)
          size (dotted (next :: more) ++ c :: rest)
        rw [dotted_cons_cons, List.append_assoc, List.cons_append, readKeyPath]
        simp only [hkey, Option.bind_eq_bind, Option.bind_some, skipSpaces_cons (show isSpace '.' =
          false by decide), ih (fun n hn => hnames n (List.mem_cons_of_mem _ hn)) hfuel,
          Option.bind_none]

end

/-! ### Values -/

theorem readValue_eq_readScalar {c : Char} (hsquare : c ≠ '[') (hcurly : c ≠ '\x7b')
    (size depth : ℕ) (rest : List Char) :
    readValue size depth (c :: rest) = readScalar size (c :: rest) := by
  rcases depth with _ | depth
  · rfl
  · rw [readValue]
    · intro more h
      exact hsquare (List.cons.inj h).1
    · intro more h
      exact hcurly (List.cons.inj h).1

theorem readScalar_of_word {size : ℕ} {text rest : List Char} {v : Scalar}
    (hstring : readString text = none) (hword : readWord text = some (v, rest)) :
    readScalar size text = some (.scalar (spanBetween size text rest) v, rest) := by
  rw [readScalar, hstring]
  simp only [hword, Option.bind_eq_bind, Option.bind_some]

theorem readScalar_of_string {size : ℕ} {text rest : List Char} {s : String}
    (hstring : readString text = some (s, rest)) :
    readScalar size text = some (.scalar (spanBetween size text rest) (.text s), rest) := by
  rw [readScalar, hstring]
  simp only [Option.bind_eq_bind, Option.bind_some]

/-- **A number of a program file is read back**, with the line end left after it. -/
theorem readValue_number {x : Float} (hfinite : Double.code x < BinaryFormat.double.infinity)
    (h0 : Double.code x ≠ 0) (hsign : Double.isNegative x = false) (size depth : ℕ)
    (rest : List Char) : ∃ c text span,
    NumberFormat.filed.writeChars x ++ '\n' :: rest = c :: text ∧ isSpace c = false ∧
      readValue size depth (c :: text) = some (.scalar span (.float x), '\n' :: rest) := by
  obtain ⟨whole, fraction, htext, hnumber, hx⟩ := exists_writeChars hfinite h0 hsign
  obtain ⟨c, more, hcons, hdigit⟩ := hnumber.exists_cons
  have hne : ∀ d : Char, isDigit d = false → c ≠ d := by
    rintro d hd rfl
    rw [hdigit] at hd
    cases hd
  have hvalue := hnumber.ofWord?_eq (by rw [hx]; exact Double.isFinite_iff.mpr hfinite)
  have hword : readWord (whole ++ '.' :: fraction ++ '\n' :: rest) =
      some (.float x, '\n' :: rest) := by
    rw [readWord, hnumber.splitWord_eq]
    simp only [hvalue, hx, Option.map_some]
  have hscalar := @readScalar_of_word size _ _ _ (hnumber.readString_eq_none _) hword
  rw [hcons, List.cons_append] at hscalar
  refine ⟨c, more ++ '\n' :: rest, spanBetween size (c :: (more ++ '\n' :: rest)) ('\n' :: rest), by
    rw [htext, hcons, List.cons_append], ?_, ?_⟩
  · rw [isSpace, Bool.or_eq_false_iff, decide_eq_false_iff_not, decide_eq_false_iff_not]
    exact ⟨hne _ (by decide), hne _ (by decide)⟩
  · rw [readValue_eq_readScalar (hne _ (by decide)) (hne _ (by decide))]
    exact hscalar

/-- The rest of a string without escapes, up to its closing quote. -/
theorem readBody_name {cs : List Char} (h : ∀ c ∈ cs, isKeyChar c = true) (rest : List Char)
    {fuel : ℕ} (hfuel : cs.length < fuel) :
    readBody ⟨'"', true, false⟩ fuel (cs ++ '"' :: rest) = some (cs, rest) := by
  induction cs generalizing fuel with
  | nil =>
    obtain ⟨fuel, rfl⟩ : ∃ n, fuel = n + 1 := ⟨fuel - 1, by simp at hfuel; omega⟩
    rfl
  | cons c cs ih =>
    obtain ⟨fuel, rfl⟩ : ∃ n, fuel = n + 1 := ⟨fuel - 1, by simp at hfuel; omega⟩
    have hc := h c List.mem_cons_self
    have hquote : c ≠ '"' := ne_of_isKeyChar hc (by decide)
    have hslash : c ≠ '\\' := ne_of_isKeyChar hc (by decide)
    have hless : cs.length < fuel := by simpa using hfuel
    have hrest := ih (fun d hd => h d (List.mem_cons_of_mem _ hd)) hless
    rw [List.cons_append, readBody]
    simp [hquote, hslash, isPlain_of_isKeyChar hc, hrest]

/-- **A name between quotes is read as a string.** -/
theorem readValue_name {name : String} (h : IsName name) (size depth : ℕ) (rest : List Char) :
    ∃ span, readValue size depth ('"' :: (name.toList ++ '"' :: rest)) =
      some (.scalar span (.text name), rest) := by
  obtain ⟨c, more, hcons, hc⟩ := h.exists_cons
  have hquote : c ≠ '"' := ne_of_isKeyChar hc (by decide)
  have hopening : readOpening ('"' :: (name.toList ++ '"' :: rest)) =
      some (⟨'"', true, false⟩, name.toList ++ '"' :: rest) := by
    rw [hcons, List.cons_append]
    simp [readOpening, hquote]
  have hstring : readString ('"' :: (name.toList ++ '"' :: rest)) = some (name, rest) := by
    unfold readString
    rw [hopening]
    simp only [Option.bind_eq_bind, Option.bind_some]
    rw [readBody_name h.2 rest (by simp), Option.bind_some, String.ofList_toList]
  refine ⟨spanBetween size ('"' :: (name.toList ++ '"' :: rest)) rest, ?_⟩
  rw [readValue_eq_readScalar (by decide) (by decide)]
  exact readScalar_of_string hstring

/-! ### Statements -/

/-- The statement assigns a value without parts to a name. -/
def Statement.Assigns (name : String) (value : Scalar) : Statement → Prop
  | .assignment [] key (.scalar _ v) => key.name = name ∧ v = value
  | _ => False

/-- The statement is a header in double brackets over a path of names. -/
def Statement.Opens (names : List String) : Statement → Prop
  | .header true path key _ => (path ++ [key]).map (·.name) = names
  | _ => False

theorem readDotted_eq {names : List String} (hnames : ∀ name ∈ names, IsName name) (size : ℕ)
    {c : Char} (rest : List Char) (hc : isKeyChar c = false)
    (hdot : ∀ more, skipSpaces (c :: rest) ≠ '.' :: more) (h0 : names ≠ [])
    (hlength : names.length ≤ depthLimit) : ∃ path key,
      readDotted size (dotted names ++ c :: rest) = some ((path, key), skipSpaces (c :: rest)) ∧
      (path ++ [key]).map (·.name) = names := by
  obtain ⟨keys, hkeys, hmap⟩ := readKeyPath_eq hnames size hc hdot h0 hlength
  have hne : keys ≠ [] := by
    rintro rfl
    exact h0 hmap.symm
  refine ⟨keys.dropLast, keys.getLast hne, ?_, by rwa [List.dropLast_append_getLast]⟩
  unfold readDotted
  simp only [hkeys, Option.bind_eq_bind, Option.bind_some, List.getLast?_eq_some_getLast hne]

/-- **An assignment is read.** -/
theorem readStatement_assignment {name : String} (h : IsName name) {size : ℕ} {c : Char}
    {text rest : List Char} (hspace : isSpace c = false) {span : Span} {value : Scalar}
    (hvalue : readValue size depthLimit (c :: text) = some (.scalar span value, rest)) :
    ∃ st, readStatement size (name.toList ++ ' ' :: '=' :: ' ' :: c :: text) = some (st, rest) ∧
      st.Assigns name value := by
  obtain ⟨d, more, hcons, hd⟩ := h.exists_cons
  have hbracket : d ≠ '[' := ne_of_isKeyChar hd (by decide)
  have hnames : ∀ n ∈ [name], IsName n := by simpa using h
  obtain ⟨path, key, hdotted, hmap⟩ := readDotted_eq hnames size (c := ' ')
    ('=' :: ' ' :: c :: text) (by decide) (by simp [skipSpaces, isSpace])
    (List.cons_ne_nil _ _) (by simp [depthLimit])
  have hlength := congrArg List.length hmap
  simp only [List.length_map, List.length_append, List.length_singleton] at hlength
  obtain rfl : path = [] := List.length_eq_zero_iff.mp (by omega)
  have hname : key.name = name := by simpa using hmap
  have hskip : skipSpaces (' ' :: '=' :: ' ' :: c :: text) = '=' :: ' ' :: c :: text := rfl
  have hskip' : skipSpaces (' ' :: c :: text) = c :: text :=
    (show skipSpaces (' ' :: c :: text) = skipSpaces (c :: text) from rfl).trans
      (skipSpaces_cons hspace text)
  have hassign : readAssignment size (readValue size depthLimit)
      (name.toList ++ ' ' :: '=' :: ' ' :: c :: text) =
        some (([], key, .scalar span value), rest) := by
    unfold readAssignment
    rw [show name.toList = dotted [name] from rfl, hdotted, hskip]
    simp only [Option.bind_eq_bind, Option.bind_some, readMark, if_true, hskip', hvalue]
  refine ⟨.assignment [] key (.scalar span value), ?_, hname, rfl⟩
  rw [hcons, List.cons_append] at hassign ⊢
  unfold readStatement
  split
  · exact absurd (List.cons.inj ‹_›).1 hbracket
  · exact absurd (List.cons.inj ‹_›).1 hbracket
  · simp only [hassign, Option.bind_eq_bind, Option.bind_some]

section

variable {names : List String} (hnames : ∀ name ∈ names, IsName name) (size : ℕ)
  (rest : List Char)
include hnames

/-- **A header over a path that is not too long is read.** -/
theorem readStatement_header (h0 : names ≠ []) (hlength : names.length ≤ depthLimit) :
    ∃ st, readStatement size ('[' :: '[' :: (dotted names ++ ']' :: ']' :: rest)) =
      some (st, rest) ∧ st.Opens names := by
  obtain ⟨path, key, hdotted, hmap⟩ := readDotted_eq hnames size (c := ']') (']' :: rest)
    (by decide) (by simp [skipSpaces, isSpace]) h0 hlength
  have hskip : skipSpaces (']' :: ']' :: rest) = ']' :: ']' :: rest := rfl
  rw [hskip] at hdotted
  refine ⟨.header true path key
    (spanBetween size ('[' :: '[' :: (dotted names ++ ']' :: ']' :: rest)) rest), ?_, hmap⟩
  unfold readStatement
  simp only [hdotted, Option.bind_eq_bind, Option.bind_some, readMark, if_true]

/-- **A header over a path that is too long is refused.** -/
theorem readStatement_header_eq_none (hlength : depthLimit < names.length) :
    readStatement size ('[' :: '[' :: (dotted names ++ ']' :: ']' :: rest)) = none := by
  unfold readStatement readDotted
  simp only [readKeyPath_eq_none hnames size _ hlength, Option.bind_eq_bind, Option.bind_none]

end

/-! ### Lines -/

/-- Where a statement can start. -/
def isSolid (c : Char) : Bool := !isSpace c && c ≠ '#' && c ≠ '\n' && c ≠ '\r'

theorem skipLinesWithin_solid {c : Char} (h : isSolid c = true) (fuel : ℕ) (rest : List Char) :
    skipLinesWithin fuel (c :: rest) = c :: rest := by
  simp only [isSolid, Bool.and_eq_true, Bool.not_eq_true', decide_eq_true_eq] at h
  obtain ⟨⟨⟨hspace, hmark⟩, hfeed⟩, hreturn⟩ := h
  rcases fuel with _ | fuel
  · rfl
  · have hcomment : skipComment (c :: rest) = c :: rest := by
      unfold skipComment
      split
      · exact absurd (List.cons.inj ‹_›).1 hmark
      · rfl
    have hline : newline? (c :: rest) = none := by
      unfold newline?
      split
      · exact absurd (List.cons.inj ‹_›).1 hfeed
      · exact absurd (List.cons.inj ‹_›).1 hreturn
      · rfl
    rw [skipLinesWithin, skipSpaces_cons hspace, hcomment, hline]

theorem skipLines_solid {c : Char} (h : isSolid c = true) (rest : List Char) :
    skipLines (c :: rest) = c :: rest := skipLinesWithin_solid h _ _

theorem skipLines_newline {c : Char} (h : isSolid c = true) (rest : List Char) :
    skipLines ('\n' :: c :: rest) = c :: rest := by
  rw [skipLines, skipLinesWithin]
  exact skipLinesWithin_solid h _ _

section

variable {size : ℕ} {text line : List Char} (hskip : skipLines text = line) (hline : line ≠ [])
  (fuel : ℕ)
include hskip hline

/-- **Statements are read line by line.** -/
theorem readStatements_of_line {st : Statement} {rest : List Char}
    (h : readStatement size line = some (st, '\n' :: rest)) :
    readStatements size (fuel + 1) text = (readStatements size fuel rest).map (st :: ·) := by
  have hend : endLine? ('\n' :: rest) = some rest := rfl
  rw [readStatements, hskip]
  split
  · exact absurd rfl hline
  · simp only [h, hend, Option.bind_eq_bind, Option.bind_some]
    cases readStatements size fuel rest <;> rfl

theorem readStatements_eq_none (h : readStatement size line = none) :
    readStatements size (fuel + 1) text = none := by
  rw [readStatements, hskip]
  split
  · exact absurd rfl hline
  · simp only [h, Option.bind_eq_bind, Option.bind_none]

end

end Choreo.Toml
