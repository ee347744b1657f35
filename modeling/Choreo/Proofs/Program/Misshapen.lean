import Choreo.Program.File
import Choreo.Proofs.Except
import Mathlib.Data.List.Basic

/-! # Faults of program files

A program file that is a document is refused for one of three things: what stands under `blocks` is no
list, a value in it is not what its place asks for, or a block does not pass the check. In the second
case the fault concerns the value of one block, of the list or below another block, and `Concerns` says
which faults there are (`blocksOf_error`). -/

namespace Choreo.BlockFile

open Toml

/-- The names of the fields of a block. -/
def fieldNames : List String := "kind" :: Param.all.map (·.name) ++ ["children"]

/-- The names that a kind can have. -/
def kindNames : List String := Kind.all.map (·.name)

theorem fieldNames_eq (readChild : Reader Block) : (form readChild).fieldNames = fieldNames := rfl

/-- What the value of a block gives for a field, by its name or, in an array, by its place. -/
def Gives (b : Value) (name : String) (w : Value) : Prop :=
  (∃ t key, b = .table t ∧ key.name = name ∧ (key, w) ∈ t.entries) ∨
    ∃ items, b.items? = some items ∧ (name, w) ∈ fieldNames.zip items

/-- The value names a variant: it is a string, or a table with the name as its one key. -/
inductive NamesVariant : Value → String → Prop where
  | text (span : Span) (name : String) : NamesVariant (.scalar span (.text name)) name
  | table {t : Table Value} {key : Key} {value : Value} (hentries : t.entries = [(key, value)]) :
    NamesVariant (.table t) key.name

/-- The second value is that of a block which is the block of the first or below it. -/
inductive Within : Value → Value → Prop where
  | self (v : Value) : Within v v
  | child {v w c b : Value} {items : List Value} (hgives : Gives v "children" w)
    (hitems : w.items? = some items) (hc : c ∈ items) (hb : Within c b) : Within v b

/-- A block of the document has the value. -/
def Contains (document : Table Value) (b : Value) : Prop :=
  ∃ key v items item, (key, v) ∈ document.entries ∧ key.name = "blocks" ∧ v.items? = some items ∧
    item ∈ items ∧ Within item b

/-- What can be wrong with the value of a block, the blocks below it aside. -/
def Concerns (b : Value) : Cause → Prop
  | .wrongType _ wanted => wanted = .number ∨ wanted = .sequence ∨ wanted = .record "BlockDef"
  | .negative .. => False
  | .tooShort _ record fields => record = "BlockDef" ∧ fields = fieldNames.length
  | .unknownField name fields => fields = fieldNames ∧ name ∉ fieldNames
  | .missingField name => name = "kind"
  | .unknownVariant name names =>
    names = kindNames ∧ Kind.ofName? name = none ∧ ∃ w, Gives b "kind" w ∧ NamesVariant w name
  | .noVariant | .emptyVariant | .manyVariants | .variantParts _ | .variantScalar _ => True

/-! ### Fields -/

theorem mismatch_eq_error {α : Type} {wanted : Wanted} {keySpan : Span} {v : Value} {f : Fault}
    (h : (v.mismatch wanted keySpan : Except Fault α) = .error f) :
    f.cause = .wrongType v.found wanted := by
  cases h
  rfl

theorem readFloatValue_fault {keySpan : Span} {w : Value} {f : Fault}
    (h : readFloatValue keySpan w = .error f) : f.cause = .wrongType w.found .number := by
  unfold readFloatValue at h
  split at h
  · cases h
  · cases h
  · exact mismatch_eq_error h

theorem readUnit_fault {keySpan : Span} {w : Value} {f : Fault} (h : readUnit keySpan w = .error f) :
    (∃ isTables, f.cause = .variantParts isTables) ∨ ∃ value, f.cause = .variantScalar value := by
  unfold readUnit at h
  split at h <;> cases h
  · exact Or.inr ⟨_, rfl⟩
  · exact Or.inl ⟨false, rfl⟩
  · exact Or.inl ⟨false, rfl⟩
  · exact Or.inl ⟨true, rfl⟩

/-- What gives no kind is wrong in itself or names none. -/
theorem readKind_fault {keySpan : Span} {b w : Value} {f : Fault} (hgives : Gives b "kind" w)
    (h : readVariant Kind.ofName? kindNames keySpan w = .error f) : Concerns b f.cause := by
  unfold readVariant at h
  simp only at h
  split at h
  · split at h <;> cases h
    next hkind => exact ⟨rfl, hkind, _, hgives, .text _ _⟩
  · cases h
    trivial
  · rcases bind_eq_error.mp h with h | ⟨a, -, h⟩
    · split at h <;> cases h
      next hkind => exact ⟨rfl, hkind, _, hgives, .table rfl⟩
    · rcases bind_eq_error.mp h with h | ⟨-, -, h⟩
      · obtain ⟨isTables, hcause⟩ | ⟨value, hcause⟩ := readUnit_fault h <;> rw [hcause] <;> trivial
      · cases h
  · cases h
    trivial
  · cases h
    trivial

theorem readSequence_fault {α : Type} {read : Reader α} {keySpan : Span} {w : Value} {f : Fault}
    (h : readSequence read keySpan w = .error f) : f.cause = .wrongType w.found .sequence ∨
      ∃ items c span, w.items? = some items ∧ c ∈ items ∧ read span c = .error f := by
  unfold readSequence at h
  split at h
  · next items hitems =>
    obtain ⟨c, hc, hfail⟩ := exists_of_mapM_eq_error h
    exact Or.inr ⟨items, c, _, hitems, hc, hfail⟩
  · exact Or.inl (mismatch_eq_error h)

section
variable {readChild : Reader Block}
  (hchild : ∀ {keySpan v f}, readChild keySpan v = .error f → ∃ b, Within v b ∧ Concerns b f.cause)
include hchild

/-- A fault in the value of a field concerns the block, or a block below it if the field is the one of
the children. -/
theorem field_fault {field : RecordField Draft} (hfield : field ∈ fields readChild) {v w : Value}
    (hgives : Gives v field.name w) {d : Draft} {keySpan : Span} {f : Fault}
    (h : field.read d keySpan w = .error f) : ∃ b, Within v b ∧ Concerns b f.cause := by
  rw [fields, List.mem_append, List.mem_cons, List.mem_singleton, List.mem_map] at hfield
  rcases hfield with (rfl | ⟨p, -, rfl⟩) | rfl
  · exact ⟨v, .self v, readKind_fault hgives (map_eq_error.mp h)⟩
  · refine ⟨v, .self v, ?_⟩
    rw [readFloatValue_fault (map_eq_error.mp h)]
    exact Or.inl rfl
  · rcases readSequence_fault (map_eq_error.mp h) with hcause | ⟨items, c, span, hitems, hc, hfail⟩
    · refine ⟨v, .self v, ?_⟩
      rw [hcause]
      exact Or.inr (Or.inl rfl)
    · obtain ⟨b, hb, hconcerns⟩ := hchild hfail
      exact ⟨b, .child hgives hitems hc hb, hconcerns⟩

theorem form_fault {keySpan : Span} {v : Value} {f : Fault}
    (h : (form readChild).read {} keySpan v = .error f) : ∃ b, Within v b ∧ Concerns b f.cause := by
  have hdone : ∀ {d : Draft} {name : String}, d.finish = .error name → name = "kind" := by
    intro d name h
    rw [Draft.finish] at h
    split at h <;> cases h
    rfl
  have hitems : ∀ {items : List Value}, v.items? = some items → ∀ {span : Span} {d : Draft},
      (form readChild).readItems d span items = .error f → ∃ b, Within v b ∧ Concerns b f.cause := by
    intro items hitems span d h
    obtain ⟨⟨field, w⟩, hmem, d, hfail⟩ := exists_of_foldlM_eq_error h
    have hfield : field ∈ fields readChild := (List.of_mem_zip hmem).1
    have hzip : (field.name, w) ∈ fieldNames.zip items := by
      rw [← fieldNames_eq readChild, RecordForm.fieldNames, List.zip_map_left]
      exact List.mem_map_of_mem (f := Prod.map RecordField.name id) hmem
    exact field_fault hchild hfield (Or.inr ⟨items, hitems, hzip⟩) hfail
  unfold RecordForm.read at h
  simp only at h
  split at h
  · next t =>
    rcases bind_eq_error.mp h with h | ⟨d, -, h⟩
    · obtain ⟨⟨key, w⟩, hmem, d, hfail⟩ := exists_of_foldlM_eq_error h
      simp only at hfail
      split at hfail
      · next field hfind =>
        have hname : field.name = key.name := by simpa using List.find?_some hfind
        exact field_fault hchild (List.mem_of_find?_eq_some hfind)
          (Or.inl ⟨t, key, rfl, hname.symm, hmem⟩) hfail
      · next hnone =>
        cases hfail
        refine ⟨_, .self _, rfl, fun hknown => ?_⟩
        rw [← fieldNames_eq readChild] at hknown
        obtain ⟨field, hfield, hname⟩ := List.mem_map.mp hknown
        exact absurd hname (by simpa using List.find?_eq_none.mp hnone field hfield)
    · split at h <;> cases h
      next hname => exact ⟨_, .self _, hdone hname⟩
  · cases h
    exact ⟨_, .self _, rfl, by decide⟩
  · split at h
    · refine ⟨v, .self v, ?_⟩
      rw [mismatch_eq_error h]
      exact Or.inr (Or.inr rfl)
    · next items hv =>
      rcases bind_eq_error.mp h with h | ⟨d, -, h⟩
      · exact hitems hv h
      · split at h <;> cases h
        exact ⟨v, .self v, rfl, rfl⟩

end

/-! ### Documents -/

/-- **A fault found in reading a block** concerns the block or one below it. -/
theorem readWithin_fault {depth : ℕ} {keySpan : Span} {v : Value} {f : Fault}
    (h : readWithin depth keySpan v = .error f) : ∃ b, Within v b ∧ Concerns b f.cause := by
  induction depth generalizing keySpan v f with
  | zero =>
    refine ⟨v, .self v, ?_⟩
    rw [mismatch_eq_error h]
    exact Or.inr (Or.inr rfl)
  | succ depth ih => exact form_fault ih h

/-- **What is wrong with a file** that is a document: there is no list of blocks, a value of one of its
blocks is not what it should be, or a block does not pass the check. -/
theorem blocksOf_error {document : Table Value} {e : LoadError} (h : blocksOf document = .error e) :
    (∃ v span, e = .misshapen ⟨.wrongType (Value.found v) .sequence, span⟩) ∨
    (∃ f b, e = .misshapen f ∧ Contains document b ∧ Concerns b f.cause) ∨
    ∃ error span, e = .block error span ∧ ∃ b : Block, b.checked = .error error := by
  rw [blocksOf] at h
  split at h
  · next key v hfind =>
    have hname : key.name = "blocks" := by simpa using List.find?_some hfind
    rw [readAll] at h
    split at h
    · obtain ⟨f, hf, rfl⟩ := mapError_eq_error.mp h
      obtain ⟨cause, span⟩ := f
      obtain rfl : cause = _ := mismatch_eq_error hf
      exact Or.inl ⟨v, span, rfl⟩
    · next items hitems =>
      obtain ⟨item, hitem, hfail⟩ := exists_of_mapM_eq_error h
      rcases bind_eq_error.mp hfail with hfail | ⟨b, -, hfail⟩
      · obtain ⟨f, hf, rfl⟩ := mapError_eq_error.mp hfail
        obtain ⟨b, hb, hconcerns⟩ := readWithin_fault hf
        exact Or.inr (Or.inl ⟨f, b, rfl, ⟨key, v, items, item, List.mem_of_find?_eq_some hfind, hname,
          hitems, hitem, hb⟩, hconcerns⟩)
      · obtain ⟨error, herror, rfl⟩ := mapError_eq_error.mp hfail
        exact Or.inr (Or.inr ⟨error, _, rfl, b, herror⟩)
  · cases h

end Choreo.BlockFile
