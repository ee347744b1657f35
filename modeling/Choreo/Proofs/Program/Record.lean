import Choreo.Proofs.Block.Checked
import Choreo.Proofs.Program.Lines
import Choreo.Proofs.Toml.Draft

/-! # Blocks as records

The table of a block holds its kind, its settings and, if it has children, the list of their tables.
Such a table is read as the block again, whatever its place (`reads_of_collects`), and so is a whole
list of them (`readAll_tables`). -/

namespace Choreo.BlockFile

open Toml

/-- The table is read as the block by every reader that goes down far enough. -/
def Reads (b : Block) (t : Table Value) : Prop :=
  ∀ depth keySpan, (Value.table t).height ≤ depth → readWithin depth keySpan (.table t) = .ok b

/-- What a block assigns to its table. -/
def ownValues (kind : Kind) (settings : Settings) : List (String × Scalar) :=
  ("kind", .text kind.name) :: settings.toList.map fun (p, x) => (p.name, .float x)

theorem assigns_of_ownLines {kind : Kind} {settings : Settings} {sts : List Statement}
    (h : List.Forall₂ Line.Says (ownLines kind settings) sts) :
    List.Forall₂ (fun a st => st.Assigns a.1 a.2) (ownValues kind settings) sts := by
  rw [ownLines, List.forall₂_cons_left_iff] at h
  obtain ⟨st, more, hkind, hmore, rfl⟩ := h
  refine .cons hkind ?_
  rw [List.forall₂_map_left_iff] at hmore ⊢
  exact hmore

theorem names_ownValues_sublist (kind : Kind) (settings : Settings) :
    ((ownValues kind settings).map (·.1)).Sublist ("kind" :: Param.all.map (·.name)) := by
  have hparams : ∀ ps : List Param,
      ((ps.filterMap fun p => (settings.get? p).map (p, ·)).map (·.1)).Sublist ps := by
    intro ps
    induction ps with
    | nil => exact .slnil
    | cons p ps ih =>
      rcases hp : settings.get? p with _ | x
      · rw [List.filterMap_cons_none (by rw [hp]; rfl)]
        exact ih.cons p
      · rw [List.filterMap_cons_some (b := (p, x)) (by rw [hp]; rfl)]
        exact ih.cons_cons p
  rw [ownValues, List.map_cons, List.map_map]
  refine List.Sublist.cons_cons _ ?_
  have h := (hparams Param.all).map (·.name)
  rwa [List.map_map] at h

theorem nodup_ownValues (kind : Kind) (settings : Settings) :
    ((ownValues kind settings).map (·.1)).Nodup :=
  (names_ownValues_sublist kind settings).nodup (by decide)

theorem children_notMem_ownValues (kind : Kind) (settings : Settings) :
    "children" ∉ (ownValues kind settings).map (·.1) :=
  fun h => absurd ((names_ownValues_sublist kind settings).subset h) (by decide)

/-! ### Fields -/

section

variable {readChild : Reader Block} (d : Draft)

theorem readEntries_append (d : Draft) (es fs : List (Key × Value)) :
    (form readChild).readEntries d (es ++ fs) =
      (form readChild).readEntries d es >>= ((form readChild).readEntries · fs) := by
  rw [RecordForm.readEntries, List.foldlM_append]
  rfl

theorem readEntries_cons {e : Key × Value} {es : List (Key × Value)} {field : RecordField Draft}
    (hfield : (fields readChild).find? (·.name = e.1.name) = some field) {d' : Draft}
    (hread : field.read d e.1.span e.2 = .ok d') :
    (form readChild).readEntries d (e :: es) = (form readChild).readEntries d' es := by
  have hstep : (form readChild).fields.find? (·.name = e.1.name) = some field := hfield
  rw [RecordForm.readEntries, List.foldlM_cons]
  simp only [hstep, hread]
  rfl

theorem readEntries_kind {key : Key} (hkey : key.name = "kind") (span : Span) (kind : Kind)
    (es : List (Key × Value)) :
    (form readChild).readEntries d ((key, .scalar span (.text kind.name)) :: es) =
      (form readChild).readEntries { d with kind? := some kind } es := by
  refine readEntries_cons d (by rw [hkey]; rfl) ?_
  simp [RecordField.of, readVariant, Kind.ofName?_name, Except.map]

theorem readEntries_setting {key : Key} {p : Param} (hkey : key.name = p.name) (span : Span)
    (x : Float) (es : List (Key × Value)) :
    (form readChild).readEntries d ((key, .scalar span (.float x)) :: es) =
      (form readChild).readEntries { d with settings := d.settings.insert p x } es := by
  have hfield : (fields readChild).find? (·.name = p.name) =
      some (.of p.name readFloatValue fun d x => { d with settings := d.settings.insert p x }) := by
    cases p <;> rfl
  exact readEntries_cons d (by rw [hkey]; exact hfield) rfl

theorem readEntries_children {key : Key} (hkey : key.name = "children") {v : Value}
    {children : List Block} (h : readSequence readChild key.span v = .ok children)
    (es : List (Key × Value)) :
    (form readChild).readEntries d ((key, v) :: es) =
      (form readChild).readEntries { d with children } es := by
  refine readEntries_cons d (by rw [hkey]; rfl) ?_
  simp [RecordField.of, h, Except.map]

/-- **What a block assigns is read as its kind and its settings.** -/
theorem readEntries_own {kind : Kind} {settings : Settings} {es : List (Key × Value)}
    (h : List.Forall₂ Holds (ownValues kind settings) es) :
    (form readChild).readEntries {} es = .ok ⟨some kind, settings, []⟩ := by
  have hsettings : ∀ (values : List (Param × Float)) (es : List (Key × Value)) (d : Draft),
      List.Forall₂ Holds (values.map fun (p, x) => (p.name, .float x)) es →
      (form readChild).readEntries d es =
        .ok { d with settings := d.settings.insertAll values } := by
    intro values
    induction values with
    | nil =>
      rintro es d h
      cases h
      rfl
    | cons value values ih =>
      obtain ⟨p, x⟩ := value
      intro es d h
      rw [List.map_cons, List.forall₂_cons_left_iff] at h
      obtain ⟨⟨key, v⟩, more, ⟨hname, span, hv⟩, hmore, rfl⟩ := h
      obtain rfl : v = .scalar span (.float x) := hv
      rw [readEntries_setting d hname, ih more _ hmore]
      rfl
  rw [ownValues, List.forall₂_cons_left_iff] at h
  obtain ⟨⟨key, v⟩, more, ⟨hname, span, hv⟩, hmore, rfl⟩ := h
  obtain rfl : v = .scalar span (.text kind.name) := hv
  rw [readEntries_kind {} hname, hsettings settings.toList more _ hmore]
  exact congrArg (fun s => Except.ok (Draft.mk (some kind) s [])) settings.insertAll_toList

end

/-! ### Heights -/

theorem height_le_entryHeights {es : List (Key × Value)} {e : Key × Value} (h : e ∈ es) :
    e.2.height ≤ Value.entryHeights es := by
  induction es with
  | nil => cases h
  | cons f es ih =>
    obtain ⟨key, v⟩ := f
    rw [Value.entryHeights]
    rcases List.mem_cons.mp h with rfl | h
    · exact Nat.le_max_left _ _
    · exact (ih h).trans (Nat.le_max_right _ _)

theorem tableHeight_le_tableHeights {ts : List (Table Value)} {t : Table Value} (h : t ∈ ts) :
    Value.tableHeight t ≤ Value.tableHeights ts := by
  induction ts with
  | nil => cases h
  | cons u ts ih =>
    rw [Value.tableHeights]
    rcases List.mem_cons.mp h with rfl | h
    · exact Nat.le_max_left _ _
    · exact (ih h).trans (Nat.le_max_right _ _)

theorem height_lt_of_mem {t u : Table Value} {key : Key} {ts : List (Table Value)}
    (he : (key, .tables ts) ∈ t.entries) (hu : u ∈ ts) :
    (Value.table u).height < (Value.table t).height := by
  obtain ⟨origin, span, es⟩ := t
  have h1 : (Value.tables ts).height ≤ Value.entryHeights es := height_le_entryHeights he
  have h2 := tableHeight_le_tableHeights hu
  simp only [Value.height, Value.tableHeight] at h1 ⊢
  omega

/-! ### Records -/

theorem readSequence_tables {bs : List Block} {ts : List (Table Value)}
    (h : List.Forall₂ Reads bs ts) {depth : ℕ}
    (hdepth : ∀ t ∈ ts, (Value.table t).height ≤ depth) (keySpan : Span) :
    readSequence (readWithin depth) keySpan (.tables ts) = .ok bs := by
  have hmap : ∀ span, (ts.map Value.table).mapM (readWithin depth span) = .ok bs := by
    intro span
    induction h with
    | nil => rfl
    | @cons b t bs ts hread _ ih =>
      rw [List.map_cons, List.mapM_cons]
      refine bind_eq_ok.mpr ⟨b, hread _ _ (hdepth t List.mem_cons_self), ?_⟩
      exact bind_eq_ok.mpr ⟨bs, ih fun u hu => hdepth u (List.mem_cons_of_mem _ hu), rfl⟩
  exact hmap _

/-- **The table of a block is read as the block**: its own entries, and the tables of its children
under one more key. -/
theorem reads_of_collects {kind : Kind} {settings : Settings} {children : List Block}
    {own t : Table Value} {ts : List (Table Value)}
    (hown : List.Forall₂ Holds (ownValues kind settings) own.entries)
    (ht : Table.Collects "children" own ts t) (hchildren : List.Forall₂ Reads children ts) :
    Reads ⟨kind, settings, children⟩ t := by
  intro depth keySpan hdepth
  obtain ⟨depth, rfl⟩ : ∃ n, depth = n + 1 := ⟨depth - 1, by rw [Value.height] at hdepth; omega⟩
  have hentries : (form (readWithin depth)).readEntries {} t.entries =
      .ok ⟨some kind, settings, children⟩ := by
    rcases ht.shape with ⟨rfl, rfl⟩ | ⟨key, hkey, rfl⟩
    · cases hchildren
      exact readEntries_own hown
    · have hlow : ∀ u ∈ ts, (Value.table u).height ≤ depth := by
        intro u hu
        have := height_lt_of_mem (t := own.append key (.tables ts))
          (List.mem_append_right _ List.mem_cons_self) hu
        omega
      have hsequence := readSequence_tables hchildren hlow key.span
      rw [Table.append, readEntries_append, readEntries_own hown]
      exact readEntries_children _ hkey hsequence []
  rw [readWithin, RecordForm.read]
  exact bind_eq_ok.mpr ⟨_, hentries, rfl⟩

/-! ### Root blocks -/

/-- **Tables that are read as valid blocks give these blocks.** -/
theorem readAll_tables {bs : List Block} (hvalid : Block.AllValid bs) {ts : List (Table Value)}
    (h : List.Forall₂ Reads bs ts) (keySpan : Span) : readAll keySpan (.tables ts) = .ok bs := by
  have hmap : ∀ span, (ts.map Value.table).mapM (fun item => do
      let b ← (read span item).mapError LoadError.misshapen
      b.checked.mapError (LoadError.block · span)) = .ok bs := by
    intro span
    induction h with
    | nil => rfl
    | @cons b t bs ts hread _ ih =>
      rw [Block.AllValid] at hvalid
      rw [List.map_cons, List.mapM_cons]
      refine bind_eq_ok.mpr ⟨b, ?_, bind_eq_ok.mpr ⟨bs, ih hvalid.2, rfl⟩⟩
      rw [read, hread _ span le_rfl]
      simp only [Except.mapError, bind, Except.bind, hvalid.1.checked_eq]
  exact hmap _

/-- **Blocks that are read are valid.** -/
theorem readAll_valid {keySpan : Span} {v : Value} {bs : List Block}
    (h : readAll keySpan v = .ok bs) : Block.AllValid bs := by
  rw [readAll] at h
  split at h
  · rw [mapError_eq_ok, Value.mismatch] at h
    cases h
  · refine Block.allValid_iff.mpr fun b hb => ?_
    obtain ⟨item, -, hitem⟩ := exists_of_mapM_eq_ok h b hb
    obtain ⟨c, -, hchecked⟩ := bind_eq_ok.mp hitem
    exact Block.checked_valid (mapError_eq_ok.mp hchecked)

end Choreo.BlockFile
