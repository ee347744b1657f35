import Choreo.Proofs.Except
import Choreo.Toml.Typed
import Mathlib.Data.List.Forall2
import Mathlib.Data.List.Nodup

/-! # What readers accept

What a value is read as is said here without the readers. A record is a table with entries, or an
array of values in the order of its fields (`Value.Gives`); it comes to what it starts from once each
of them has set its field (`Fills`). A form whose fields do what is said of them reads exactly that
(`RecordForm.Means.read_eq_ok_iff`). -/

namespace Choreo.Toml

namespace Value

/-- The value is the scalar, wherever it stands. -/
def Is (v : Value) (x : Scalar) : Prop := ∃ span, v = .scalar span x

/-- The value is a number. An integer stands for the double that is nearest to it. -/
inductive IsNumber (v : Value) : Float → Prop where
  | float {x : Float} (h : v.Is (.float x)) : v.IsNumber x
  | integer {k : Int} (h : v.Is (.integer k)) : v.IsNumber (Double.ofInt k)

/-- The value is an array of the elements, which may be tables under headers of their own. -/
inductive Lists : Value → List Value → Prop where
  | array (span : Span) (items : List Value) : Lists (.array span items) items
  | tables (ts : List (Table Value)) : Lists (.tables ts) (ts.map .table)

/-- The value is an array of the texts. -/
def IsTexts (v : Value) (xs : List String) : Prop :=
  ∃ items, v.Lists items ∧ List.Forall₂ (fun item x => item.Is (.text x)) items xs

/-- The value gives values to fields of a record whose fields are `names`: a table says to which, an
array goes by their order, and what it has beyond them does not count. -/
inductive Gives (names : List String) : Value → List (String × Value) → Prop where
  | table (t : Table Value) : Gives names (.table t) (t.entries.map fun e => (e.1.name, e.2))
  | array {v : Value} {items : List Value} (h : v.Lists items) : Gives names v (names.zip items)

end Value

/-- A record becomes another one as one field after the other is set, where `sets` says what a value
makes of a field. -/
inductive Fills {α : Type} (sets : α → String → Value → α → Prop) :
    α → List (String × Value) → α → Prop where
  | nil (a : α) : Fills sets a [] a
  | cons {a b c : α} {name : String} {v : Value} {es : List (String × Value)}
      (h : sets a name v b) (hrest : Fills sets b es c) : Fills sets a ((name, v) :: es) c

variable {α : Type} {keySpan : Span} {v : Value}

theorem readText_eq_ok_iff {x : String} : readText keySpan v = .ok x ↔ v.Is (.text x) := by
  constructor
  · intro h
    unfold readText at h
    split at h <;> cases h
    exact ⟨_, rfl⟩
  · rintro ⟨span, rfl⟩
    rfl

theorem readBoolean_eq_ok_iff {b : Bool} : readBoolean keySpan v = .ok b ↔ v.Is (.boolean b) := by
  constructor
  · intro h
    unfold readBoolean at h
    split at h <;> cases h
    exact ⟨_, rfl⟩
  · rintro ⟨span, rfl⟩
    rfl

theorem readNat_eq_ok_iff {wanted : Wanted} {n : ℕ} :
    readNat wanted keySpan v = .ok n ↔ v.Is (.integer n) := by
  constructor
  · intro h
    unfold readNat at h
    split at h <;> cases h
    exact ⟨_, rfl⟩
  · rintro ⟨span, rfl⟩
    rfl

theorem readFloatValue_eq_ok_iff {x : Float} :
    readFloatValue keySpan v = .ok x ↔ v.IsNumber x := by
  constructor
  · intro h
    unfold readFloatValue at h
    split at h <;> cases h
    · exact .float ⟨_, rfl⟩
    · exact .integer ⟨_, rfl⟩
  · rintro (⟨span, rfl⟩ | ⟨span, rfl⟩) <;> rfl

theorem items?_eq_some_iff {items : List Value} : v.items? = some items ↔ v.Lists items := by
  constructor
  · intro h
    unfold Value.items? at h
    split at h <;> cases h
    · exact .array _ _
    · exact .tables _
  · rintro (⟨span, items⟩ | ⟨ts⟩) <;> rfl

theorem readTexts_eq_ok_iff {xs : List String} :
    readSequence readText keySpan v = .ok xs ↔ v.IsTexts xs := by
  rw [readSequence, Value.IsTexts]
  rcases hitems : v.items? with _ | items
  · refine ⟨nofun, ?_⟩
    rintro ⟨items, hlists, -⟩
    rw [items?_eq_some_iff.mpr hlists] at hitems
    cases hitems
  · simp only [← items?_eq_some_iff, hitems, Option.some.injEq, exists_eq_left', mapM_eq_ok_iff,
      readText_eq_ok_iff]

/-! ### Records -/

variable {sets : α → String → Value → α → Prop} {a c : α} {es : List (String × Value)}

theorem ok_eq_ok_iff_fills_nil : (.ok a : Except Fault α) = .ok c ↔ Fills sets a [] c := by
  constructor
  · rintro ⟨⟩
    exact .nil a
  · rintro ⟨⟩
    rfl

theorem fills_cons_iff {name : String} :
    Fills sets a ((name, v) :: es) c ↔ ∃ b, sets a name v b ∧ Fills sets b es c := by
  constructor
  · rintro (_ | ⟨h, hrest⟩)
    exact ⟨_, h, hrest⟩
  · rintro ⟨b, h, hrest⟩
    exact .cons h hrest

namespace RecordForm

variable {form : RecordForm α α}

/-- The form has no field twice, and each of its fields reads what `sets` says of it. -/
structure Means (form : RecordForm α α) (sets : α → String → Value → α → Prop) : Prop where
  distinct : form.fieldNames.Nodup
  finish : ∀ a, form.finish a = .ok a
  sets_iff : ∀ span a name v b,
    sets a name v b ↔ ∃ f ∈ form.fields, f.name = name ∧ f.read a span v = .ok b

theorem Means.find?_eq_some_iff (h : form.Means sets) {name : String} {f : RecordField α} :
    form.fields.find? (·.name = name) = some f ↔ f ∈ form.fields ∧ f.name = name := by
  constructor
  · intro hf
    exact ⟨List.mem_of_find?_eq_some hf, by simpa using List.find?_some hf⟩
  · rintro ⟨hf, rfl⟩
    rcases hfound : form.fields.find? (·.name = f.name) with _ | g
    · exact absurd (List.find?_eq_none.mp hfound f hf) (by simp)
    · have hname : g.name = f.name := by simpa using List.find?_some hfound
      have hmem := List.mem_of_find?_eq_some hfound
      rw [hfound, List.inj_on_of_nodup_map h.distinct hmem hf hname]

theorem Means.read_field_iff (h : form.Means sets) {f : RecordField α} (hf : f ∈ form.fields)
    {span : Span} {b : α} : f.read a span v = .ok b ↔ sets a f.name v b := by
  rw [h.sets_iff span]
  constructor
  · exact fun hread => ⟨f, hf, rfl, hread⟩
  · rintro ⟨g, hg, hname, hread⟩
    rwa [← List.inj_on_of_nodup_map h.distinct hg hf hname]

theorem Means.readEntries_eq_ok_iff (h : form.Means sets) {entries : List (Key × Value)} :
    form.readEntries a entries = .ok c ↔
      Fills sets a (entries.map fun e => (e.1.name, e.2)) c := by
  induction entries generalizing a with
  | nil => exact ok_eq_ok_iff_fills_nil
  | cons e entries ih =>
    obtain ⟨key, v⟩ := e
    rw [readEntries, List.foldlM_cons, bind_eq_ok, List.map_cons, fills_cons_iff]
    refine exists_congr fun b => and_congr ?_ ih
    have hfield : sets a key.name v b ↔
        ∃ f, form.fields.find? (·.name = key.name) = some f ∧ f.read a key.span v = .ok b := by
      simp only [h.sets_iff key.span, h.find?_eq_some_iff, and_assoc]
    rw [hfield]
    rcases hfound : form.fields.find? (·.name = key.name) with _ | f <;> simp [hfound]

theorem Means.readItems_eq_ok_iff (h : form.Means sets) {span : Span} {items : List Value} :
    form.readItems a span items = .ok c ↔ Fills sets a (form.fieldNames.zip items) c := by
  have hfrom : ∀ (fs : List (RecordField α)), fs ⊆ form.fields → ∀ items a,
      (fs.zip items).foldlM (fun record e => e.1.read record span e.2) a = .ok c ↔
        Fills sets a ((fs.map (·.name)).zip items) c := by
    intro fs
    induction fs with
    | nil => exact fun _ items a => ok_eq_ok_iff_fills_nil
    | cons f fs ih =>
      rintro hfs (_ | ⟨v, items⟩) a
      · exact ok_eq_ok_iff_fills_nil
      · obtain ⟨hf, hfs⟩ := List.cons_subset.mp hfs
        rw [List.zip_cons_cons, List.foldlM_cons, bind_eq_ok, List.map_cons, List.zip_cons_cons,
          fills_cons_iff]
        exact exists_congr fun b => and_congr (h.read_field_iff hf) (ih hfs items b)
  exact hfrom form.fields (List.Subset.refl _) items a

theorem Means.read_table_iff (h : form.Means sets) {t : Table Value} :
    form.read a keySpan (.table t) = .ok c ↔ form.readEntries a t.entries = .ok c := by
  simp only [read, bind_eq_ok, h.finish, Except.ok.injEq, exists_eq_right]

theorem Means.read_array_iff (h : form.Means sets) {items : List Value} (hv : v.Lists items) :
    form.read a keySpan v = .ok c ↔ form.readItems a (v.place keySpan) items = .ok c := by
  rcases hv with ⟨span, items⟩ | ⟨ts⟩ <;>
    simp only [read, Value.items?, bind_eq_ok, h.finish, Except.ok.injEq, exists_eq_right]

/-- **A form reads a record exactly if the value gives its fields values that they can have.** -/
theorem Means.read_eq_ok_iff (h : form.Means sets) :
    form.read a keySpan v = .ok c ↔ ∃ es, v.Gives form.fieldNames es ∧ Fills sets a es c := by
  constructor
  · intro hread
    have harray : ∀ items, v.Lists items →
        ∃ es, v.Gives form.fieldNames es ∧ Fills sets a es c := fun items hv =>
      ⟨_, .array hv, h.readItems_eq_ok_iff.mp ((h.read_array_iff hv).mp hread)⟩
    rcases v with ⟨span, value⟩ | ⟨span, items⟩ | t | ts
    · cases value <;> cases hread
    · exact harray items (.array span items)
    · exact ⟨_, .table t, h.readEntries_eq_ok_iff.mp (h.read_table_iff.mp hread)⟩
    · exact harray _ (.tables ts)
  · rintro ⟨es, ⟨t⟩ | ⟨hv⟩, hfills⟩
    · exact h.read_table_iff.mpr (h.readEntries_eq_ok_iff.mpr hfills)
    · exact (h.read_array_iff hv).mpr (h.readItems_eq_ok_iff.mpr hfills)

end RecordForm

/-- What stands under a name is read if there is such a name. -/
theorem readUnder_eq_ok_iff {read : Reader α} {reads : Value → α → Prop}
    (h : ∀ span v a, read span v = .ok a ↔ reads v a) {document : Table Value} {name : String}
    {found : Option α} : readUnder document name read = .ok found ↔
      (document.get? name = none ∧ found = none) ∨
        ∃ v a, document.get? name = some v ∧ reads v a ∧ found = some a := by
  rw [readUnder, Table.get?]
  rcases hfind : document.entries.find? fun e => e.1.name = name with _ | ⟨key, v⟩
  · simp [hfind, @eq_comm _ none found]
  · simp [hfind, map_eq_ok, h, @eq_comm _ (some _) found]

end Choreo.Toml
