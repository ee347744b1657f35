import Choreo.Proofs.Block.Faults
import Choreo.Proofs.Program.Misshapen
import Choreo.Proofs.Program.Wording

/-! # When the kinds are listed

The error of a program file comes with a note that lists the kinds of blocks if its message has the
words of a message about an unknown kind (`LoadError.notes_cases`). The messages about unknown kinds
have them. The others have them where they quote them from the file: the name of an unknown field
stands in the message, and so does a string that stands where a number, a list or a block should be
(`LoadError.hints_message_iff`). What a check says of a block never has them
(`Block.not_hints_checked`). -/

namespace Choreo

open Toml BlockFile

/-! ### Faults of values -/

namespace Toml

/-- What is wrong quotes the words from the file: as the name of a field, or in a string that stands
where something else should. -/
def Cause.Quotes : Cause → Prop
  | .wrongType found _ => ∃ s, found = .scalar (.text s) ∧ Hints s.toList
  | .unknownField name _ => Hints name.toList
  | _ => False

theorem hints_wrongType_iff {found : Found} {wanted : Wanted} (h : 'w' ∉ wanted.phrase.toList) :
    Hints (Cause.wrongType found wanted).message.toList ↔ (Cause.wrongType found wanted).Quotes := by
  have hmessage : (Cause.wrongType found wanted).message =
      "invalid type: " ++ found.text ++ ", expected " ++ wanted.phrase := rfl
  have hmark : ", expected ".toList = ',' :: " expected ".toList := rfl
  have hwanted : ¬ Hints (" expected ".toList ++ wanted.phrase.toList) := by
    refine Hints.of_not_mem (c := 'w') (by decide) ?_
    rw [List.mem_append, not_or]
    exact ⟨by decide, h⟩
  rw [hmessage, String.toList_append, String.toList_append, String.toList_append, hmark,
    List.append_assoc, List.cons_append, Hints.append_cons_iff (by decide),
    Hints.append_left_iff (by decide), hints_found_iff, or_iff_left hwanted]
  rfl

theorem hints_unknownField_iff {name : String} :
    Hints (Cause.unknownField name fieldNames).message.toList ↔ Hints name.toList := by
  have hmessage : (Cause.unknownField name fieldNames).message =
      "unknown field `" ++ name ++ "`, expected one of " ++ nameList fieldNames := rfl
  have hopen : "unknown field `".toList = "unknown field ".toList ++ ['\x60'] := rfl
  have hclose : "`, expected one of ".toList = '\x60' :: ", expected one of ".toList := rfl
  have hbefore : ¬ Hints "unknown field ".toList := by decide
  have hafter : ¬ Hints (", expected one of ".toList ++ (nameList fieldNames).toList) := by decide
  rw [hmessage, String.toList_append, String.toList_append, String.toList_append, hopen, hclose,
    List.append_assoc, List.append_assoc, List.append_assoc, List.cons_append,
    Hints.append_cons_iff (by decide), List.nil_append, List.cons_append,
    Hints.append_cons_iff (by decide), or_iff_right hbefore, or_iff_left hafter]

theorem hints_unknownVariant (name : String) (variants : List String) :
    Hints (Cause.unknownVariant name variants).message.toList := by
  have hmessage : (Cause.unknownVariant name variants).message =
      "unknown variant `" ++ name ++ "`, expected one of " ++ nameList variants := rfl
  have hopen : "unknown variant `".toList = hintWords ++ [' ', '\x60'] := rfl
  rw [hmessage, String.toList_append, String.toList_append, String.toList_append, hopen,
    List.append_assoc, List.append_assoc, List.append_assoc]
  exact (List.prefix_append _ _).isInfix

theorem not_hints_tooShort (length : ℕ) :
    ¬ Hints (Cause.tooShort length "BlockDef" fieldNames.length).message.toList := by
  have hmessage : (Cause.tooShort length "BlockDef" fieldNames.length).message =
      "invalid length " ++ toString length ++ ", expected struct " ++ "BlockDef" ++ " with " ++
        toString fieldNames.length ++ " elements" := rfl
  have hmark : ", expected struct ".toList = ',' :: " expected struct ".toList := rfl
  have hlength : 'w' ∉ "invalid length ".toList ++ (toString length).toList := by
    rw [List.mem_append, not_or]
    exact ⟨by decide, not_mem_nat length⟩
  rw [hmessage]
  simp only [String.toList_append]
  rw [hmark]
  simp only [List.append_assoc, List.cons_append]
  rw [← List.append_assoc, Hints.append_cons_iff (by decide), not_or]
  exact ⟨Hints.of_not_mem (by decide) hlength, by decide⟩

/-- The message about a value where a variant has no parts tells the type of the value only. -/
theorem not_hints_variantScalar (value : Scalar) :
    ¬ Hints (Cause.variantScalar value).message.toList := by
  have hmessage : (Cause.variantScalar value).message =
      "expected table, found " ++ value.typeName := rfl
  have hwords : ∀ word ∈ ["string", "integer", "float", "boolean", "datetime"],
      ¬ Hints ("expected table, found " ++ word).toList := by decide
  rw [hmessage]
  refine hwords _ ?_
  cases value <;> simp [Scalar.typeName]

/-- **The message** about the value of a block has the words if it is about an unknown kind or
quotes them from the file. -/
theorem hints_cause_iff {b : Value} {cause : Cause} (h : Concerns b cause) :
    Hints cause.message.toList ↔
      (∃ name, cause = .unknownVariant name kindNames) ∨ cause.Quotes := by
  have hother : (∀ name, cause ≠ .unknownVariant name kindNames) →
      (Hints cause.message.toList ↔ cause.Quotes) → (Hints cause.message.toList ↔
        (∃ name, cause = .unknownVariant name kindNames) ∨ cause.Quotes) :=
    fun hcause hquotes => hquotes.trans (or_iff_right fun ⟨name, hname⟩ => hcause name hname).symm
  cases cause with
  | wrongType found wanted =>
    refine hother nofun (hints_wrongType_iff ?_)
    rcases h with rfl | rfl | rfl <;> decide
  | negative value wanted => exact h.elim
  | tooShort length record fields =>
    obtain ⟨rfl, rfl⟩ := h
    exact hother nofun (iff_of_false (not_hints_tooShort length) id)
  | unknownField name fields =>
    obtain ⟨rfl, -⟩ := h
    exact hother nofun hints_unknownField_iff
  | missingField name =>
    obtain rfl : name = "kind" := h
    exact hother nofun (iff_of_false (by decide) id)
  | unknownVariant name variants =>
    obtain ⟨rfl, -⟩ := h
    exact iff_of_true (hints_unknownVariant name kindNames) (Or.inl ⟨name, rfl⟩)
  | noVariant => exact hother nofun (iff_of_false (by decide) id)
  | emptyVariant => exact hother nofun (iff_of_false (by decide) id)
  | manyVariants => exact hother nofun (iff_of_false (by decide) id)
  | variantParts isTables =>
    refine hother nofun (iff_of_false ?_ id)
    cases isTables <;> decide
  | variantScalar value => exact hother nofun (iff_of_false (not_hints_variantScalar value) id)

end Toml

/-! ### Faults of blocks -/

namespace Block

/-- A message that names the kind of a block first does not have the words if it does not later. -/
theorem not_hints_block (kind : Kind) {rest : List Char} (h : 'w' ∉ rest) :
    ¬ Hints ("block '".toList ++ kind.name.toList ++ '\'' :: rest) := by
  rw [Hints.append_cons_iff (by decide), not_or, Hints.append_left_iff (by decide)]
  refine ⟨?_, Hints.of_not_mem (by decide) h⟩
  cases kind <;> decide

theorem not_hints_paramNotApplicable (kind : Kind) (p : Param) :
    ¬ Hints (BlockError.paramNotApplicable kind p).message.toList := by
  have hmessage : (BlockError.paramNotApplicable kind p).message =
      "block '" ++ kind.name ++ "' has no parameter '" ++ p.name ++ "'" := rfl
  have hmark : "' has no parameter '".toList = '\'' :: " has no parameter '".toList := rfl
  have hparam : 'w' ∉ " has no parameter '".toList ++ p.name.toList ++ "'".toList := by
    cases p <;> decide
  rw [hmessage, String.toList_append, String.toList_append, String.toList_append,
    String.toList_append, hmark, List.append_assoc, List.append_assoc, List.cons_append,
    ← List.append_assoc (" has no parameter '".toList)]
  exact not_hints_block kind hparam

theorem not_hints_leafWithChildren (kind : Kind) :
    ¬ Hints (BlockError.leafWithChildren kind).message.toList := by
  have hmessage : (BlockError.leafWithChildren kind).message =
      "block '" ++ kind.name ++ "' is not a container and cannot have children" := rfl
  have hmark : "' is not a container and cannot have children".toList =
      '\'' :: " is not a container and cannot have children".toList := rfl
  rw [hmessage, String.toList_append, String.toList_append, hmark]
  exact not_hints_block kind (by decide)

theorem not_hints_nonFiniteParam (p : Param) (x : Float) :
    ¬ Hints (BlockError.nonFiniteParam p x).message.toList := by
  have hmessage : (BlockError.nonFiniteParam p x).message =
      "parameter '" ++ p.name ++ "' must be a finite number, got " ++
        NumberFormat.plain.write x := rfl
  rw [hmessage, String.toList_append]
  refine Hints.of_not_mem (c := 'w') (by decide) ?_
  rw [List.mem_append, not_or]
  exact ⟨not_mem_between (by decide) (by cases p <;> decide) (by decide), not_mem_plain x⟩

theorem not_hints_checked {b : Block} {e : BlockError} (h : b.checked = .error e) :
    ¬ Hints e.message.toList := by
  have hmem : e ∈ b.faults := List.mem_of_mem_head? ((b.checked_follows.eq_error_iff e).mp h)
  obtain ⟨kind, p, rfl⟩ | ⟨p, x, rfl⟩ | ⟨kind, rfl⟩ := mem_faults_cases b hmem
  · exact not_hints_paramNotApplicable kind p
  · exact not_hints_nonFiniteParam p x
  · exact not_hints_leafWithChildren kind

end Block

/-! ### The note -/

/-- The note that lists the kinds. -/
def kindsNote : String := "block kinds: " ++ ", ".intercalate kindNames

theorem LoadError.notes_eq (e : LoadError) :
    e.notes = if occursIn hintWords e.trimmedMessage.toList then [kindsNote] else [] := rfl

theorem LoadError.hints_trimmedMessage_iff {e : LoadError} :
    Hints e.trimmedMessage.toList ↔ Hints e.message.toList := by
  rw [trimmedMessage, String.toList_ofList]
  exact infix_trimBoth_iff ⟨'u', by decide, by decide⟩ ⟨'t', by decide, by decide⟩

/-- **The kinds are listed** exactly if the words stand in the message. -/
theorem LoadError.notes_cases (e : LoadError) :
    (Hints e.message.toList ∧ e.notes = [kindsNote]) ∨
      (¬ Hints e.message.toList ∧ e.notes = []) := by
  rw [notes_eq, ← hints_trimmedMessage_iff]
  by_cases h : Hints e.trimmedMessage.toList
  · exact Or.inl ⟨h, if_pos (occursIn_iff.mpr h)⟩
  · exact Or.inr ⟨h, if_neg (h ∘ occursIn_iff.mp)⟩

namespace LoadError

/-- What is wrong is that a block has a kind that there is not. -/
def IsUnknownKind (e : LoadError) : Prop :=
  ∃ name span, e = .misshapen ⟨.unknownVariant name kindNames, span⟩

/-- What is wrong quotes the words from the file. -/
def Quotes : LoadError → Prop
  | .misshapen fault => fault.cause.Quotes
  | _ => False

theorem misshapen_iff {f : Fault} :
    ((misshapen f).IsUnknownKind ∨ (misshapen f).Quotes) ↔
      (∃ name, f.cause = .unknownVariant name kindNames) ∨ f.cause.Quotes := by
  obtain ⟨cause, span⟩ := f
  refine or_congr ⟨?_, ?_⟩ Iff.rfl
  · rintro ⟨name, span, h⟩
    cases h
    exact ⟨name, rfl⟩
  · rintro ⟨name, rfl⟩
    exact ⟨name, span, rfl⟩

/-- **The message** about a document has the words if a block has a kind that there is not, or if it
quotes them. -/
theorem hints_message_iff {document : Table Value} {e : LoadError}
    (h : blocksOf document = .error e) :
    Hints e.message.toList ↔ e.IsUnknownKind ∨ e.Quotes := by
  obtain ⟨v, span, rfl⟩ | ⟨f, b, rfl, -, hconcerns⟩ | ⟨error, span, rfl, b, hchecked⟩ :=
    blocksOf_error h
  · rw [misshapen_iff]
    exact (hints_wrongType_iff (by decide)).trans (or_iff_right fun ⟨_, h⟩ => by cases h).symm
  · rw [misshapen_iff]
    exact hints_cause_iff hconcerns
  · exact iff_of_false (Block.not_hints_checked hchecked)
      fun h => h.elim (fun ⟨_, _, h⟩ => by cases h) id

end LoadError

/-- **The kinds are listed** if a block has a kind that there is not, and also if the words of the
message about that stand in the name of an unknown field or in a string of the wrong type. A kind
that is told to be unknown is one that a block of the file has. The wording of the faults of a text
that is no document is left open. -/
theorem Program.kinds_listed_iff {source : String} {e : LoadError}
    (h : Program.ofText source = .error e) (hform : e ≠ .malformed) :
    (e.notes = [kindsNote] ∨ e.notes = []) ∧
    (e.notes = [kindsNote] ↔ e.IsUnknownKind ∨ e.Quotes) ∧
    ∀ name span, e = .misshapen ⟨.unknownVariant name kindNames, span⟩ →
      Kind.ofName? name = none ∧ ∃ document b w, Toml.read? source = some document ∧
        Contains document b ∧ Gives b "kind" w ∧ NamesVariant w name := by
  rw [ofText] at h
  split at h
  · cases h
    exact absurd rfl hform
  · next document hdocument =>
    have hblocks : blocksOf document = .error e := map_eq_error.mp h
    refine ⟨?_, ?_, ?_⟩
    · exact e.notes_cases.imp And.right And.right
    · rw [← LoadError.hints_message_iff hblocks]
      rcases e.notes_cases with ⟨hhints, hnotes⟩ | ⟨hhints, hnotes⟩ <;> rw [hnotes]
      · exact iff_of_true rfl hhints
      · exact iff_of_false nofun hhints
    · rintro name span rfl
      obtain ⟨_, _, hother⟩ | ⟨f, b, hf, hb, hconcerns⟩ | ⟨_, _, hother, -⟩ := blocksOf_error hblocks
      · cases hother
      · cases hf
        obtain ⟨-, hkind, w, hgives, hnames⟩ := hconcerns
        exact ⟨hkind, document, b, w, hdocument, hb, hgives, hnames⟩
      · cases hother

deriving instance DecidableEq for Scalar, Found, Cause, Fault, LoadError

/-- A kind that there is not, and the kinds are listed. -/
theorem Program.kinds_listed_for_spin :
    let e := LoadError.misshapen ⟨.unknownVariant "spin" kindNames, ⟨18, 24⟩⟩
    ofText "[[blocks]]\nkind = \"spin\"\n" = .error e ∧ e ≠ .malformed ∧
      e.notes = [kindsNote] ∧ Kind.ofName? "spin" = none := by
  intro e
  have hread : (ofText "[[blocks]]\nkind = \"spin\"\n").map (fun _ => ()) = .error e := by
    decide +kernel
  have htext := map_eq_error.mp hread
  have hform : e ≠ .malformed := by decide
  obtain ⟨-, hnotes, hkind⟩ := kinds_listed_iff htext hform
  exact ⟨htext, hform, hnotes.mpr (Or.inl ⟨_, _, rfl⟩), (hkind _ _ rfl).1⟩

/-- All kinds of the file are known, and yet they are listed: the name of the unknown field reads like
the message about an unknown kind. -/
theorem Program.kinds_listed_for_field :
    let e := LoadError.misshapen ⟨.unknownField "unknown variant" fieldNames, ⟨25, 42⟩⟩
    ofText "[[blocks]]\nkind = \"wave\"\n\"unknown variant\" = 1\n" = .error e ∧
      e.notes = [kindsNote] ∧ ¬ e.IsUnknownKind := by
  intro e
  have hread : (ofText "[[blocks]]\nkind = \"wave\"\n\"unknown variant\" = 1\n").map
      (fun _ => ()) = .error e := by decide +kernel
  refine ⟨map_eq_error.mp hread, by decide +kernel, ?_⟩
  rintro ⟨_, _, h⟩
  injection h with h
  cases h

end Choreo
