import Choreo.Proofs.Toml.Statement
import Choreo.Proofs.Toml.Table

/-! # Documents in the making

Assignments of new names add their entries to the current table (`Draft.foldlM_assigns`). A header
in double brackets adds a table to the list that it names. That list may be anywhere in the
document: `Encloses` says of a function that it builds the document around the table with the list,
and `Awaits` of a draft that it is such a document. A header opens a table that awaits longer
headers, and whatever these add to it, the draft goes on awaiting the next header of the same list
(`Awaits.header`). -/

namespace Choreo.Toml

/-! ### Assignments -/

/-- The entry is what was assigned. -/
def Holds (assigned : String × Scalar) (entry : Key × Value) : Prop :=
  entry.1.name = assigned.1 ∧ ∃ span, entry.2 = .scalar span assigned.2

theorem names_of_holds {assigned : List (String × Scalar)} {entries : List (Key × Value)}
    (h : List.Forall₂ Holds assigned entries) :
    entries.map (fun e => e.1.name) = assigned.map (·.1) := by
  induction h with
  | nil => rfl
  | cons h _ ih => rw [List.map_cons, List.map_cons, h.1, ih]

/-- **Assignments of new names** add their entries. -/
theorem Draft.foldlM_assigns {assigned : List (String × Scalar)} {sts : List Statement}
    (h : List.Forall₂ (fun a st => st.Assigns a.1 a.2) assigned sts) (d : Draft)
    (hnew : ∀ a ∈ assigned, d.current.get? a.1 = none) (hnodup : (assigned.map (·.1)).Nodup) :
    ∃ current entries, sts.foldlM Draft.apply d = some { d with current } ∧
      current.entries = d.current.entries ++ entries ∧ List.Forall₂ Holds assigned entries := by
  induction h generalizing d with
  | nil => exact ⟨d.current, [], rfl, (List.append_nil _).symm, .nil⟩
  | @cons a st assigned sts hst hsts ih =>
    rw [List.map_cons, List.nodup_cons] at hnodup
    obtain ⟨key, span, value, rfl, hname, hvalue⟩ : ∃ key span value,
        st = .assignment [] key (.scalar span value) ∧ key.name = a.1 ∧ value = a.2 := by
      unfold Statement.Assigns at hst
      split at hst
      · exact ⟨_, _, _, rfl, hst⟩
      · cases hst
    have hfree : d.current.get? key.name = none := by
      rw [hname]
      exact hnew a List.mem_cons_self
    let next := Draft.stretch (.scalar span value) (d.current.append key (.scalar span value))
    have happly : d.apply (.assignment [] key (.scalar span value)) =
        some { d with current := next } := by
      simp [Draft.apply, Table.assign, Table.alter, Table.add, hfree, next]
    have hrest : ∀ b ∈ assigned, next.get? b.1 = none := by
      intro b hb
      have hne : key.name ≠ b.1 := by
        rw [hname]
        exact fun heq => hnodup.1 (heq ▸ List.mem_map_of_mem hb)
      exact (Table.get?_append_of_ne hne _).trans (hnew b (List.mem_cons_of_mem _ hb))
    obtain ⟨current, entries, hfold, hentries, hholds⟩ :=
      ih { d with current := next } hrest hnodup.2
    refine ⟨current, (key, .scalar span value) :: entries, ?_, ?_, .cons ?_ hholds⟩
    · rw [List.foldlM_cons, happly]
      exact hfold
    · rw [hentries, List.append_cons]
      rfl
    · exact ⟨hname, span, by rw [hvalue]⟩

/-! ### Headers -/

/-- Headers in double brackets over `names` and then `name` add to the table that `frame` builds the
document around. -/
def Encloses (names : List String) (name : String) (frame : Table Value → Table Value) : Prop :=
  ∀ (path : List Key) (key : Key), path.map (·.name) = names → key.name = name →
    ∀ item t t', Table.push key item t = some t' →
      Table.alter .implied (Table.push key item) path (frame t) = some (frame t')

theorem encloses_document (name : String) : Encloses [] name id := by
  intro path key hpath _ item t t' hpush
  obtain rfl : path = [] := List.map_eq_nil_iff.mp hpath
  exact hpush

/-- **Longer headers** add to the table that was just added. -/
theorem Encloses.below {names : List String} {name : String} {frame : Table Value → Table Value}
    (h : Encloses names name frame) {path : List Key} {key : Key}
    (hpath : path.map (·.name) = names) (hkey : key.name = name) {t : Table Value}
    (hpush : ∀ item, ∃ t', Table.push key item t = some t') (below : String) :
    Encloses (names ++ [name]) below fun item => frame ((Table.push key item t).getD t) := by
  intro path' key' hpath' _ item u u' hitem
  obtain ⟨s, hs⟩ := hpush u
  obtain ⟨s', hs'⟩ := hpush u'
  have hdocument := h path key hpath hkey u t s hs
  have hdocument' := h path key hpath hkey u' t s' hs'
  obtain ⟨front, last, rfl, hfront, hlast⟩ : ∃ front last, path' = front ++ [last] ∧
      front.map (·.name) = names ∧ last.name = name := by
    obtain ⟨front, last, rfl, hfront, hlast⟩ := List.map_eq_append_iff.mp hpath'
    obtain ⟨last, rfl, hname⟩ := List.map_eq_singleton_iff.mp hlast
    exact ⟨front, last, rfl, hfront, hname⟩
  simp only [hs, hs', Option.getD_some]
  rw [Table.alter_concat, Table.alter_alter (fun _ _ => Table.origin_push)
    (hfront.trans hpath.symm) hdocument, ← hdocument']
  exact congrArg (Table.alter .implied · path (frame t)) (funext fun w =>
    Table.push_alter (hlast.trans hkey.symm) hitem w)

/-- The document of a draft is built around a table that is `base` with a list of tables, to which
headers over `names` and then `name` add. -/
structure Awaits (names : List String) (name : String) (frame : Table Value → Table Value)
    (base : Table Value) (items : List (Table Value)) (d : Draft) : Prop where
  encloses : Encloses names name frame
  document : ∃ t, Table.Collects name base items t ∧ d.finish = some (frame t)

theorem awaits_empty (name : String) : Awaits [] name id ⟨.header, none, []⟩ [] .empty :=
  ⟨encloses_document name, _, Table.collects_nil rfl, rfl⟩

/-- **A header opens a table**, which goes into the list with all that longer headers add to it. -/
theorem Awaits.header {names : List String} {name : String} {frame : Table Value → Table Value}
    {base : Table Value} {items : List (Table Value)} {d : Draft}
    (h : Awaits names name frame base items d) {st : Statement}
    (hst : st.Opens (names ++ [name])) : ∃ root span place frame',
      d.apply st = some ⟨root, ⟨.header, some span, []⟩, place⟩ ∧
      ∀ (below : String) (own : Table Value), own.get? below = none →
        Awaits (names ++ [name]) below frame' own [] ⟨root, own, place⟩ ∧
        ∀ added d', Awaits (names ++ [name]) below frame' own added d' →
          ∃ item, Table.Collects below own added item ∧
            Awaits names name frame base (items ++ [item]) d' := by
  obtain ⟨hframe, t, ht, hd⟩ := h
  obtain ⟨path, key, span, rfl, hpath, hkey⟩ : ∃ path key span,
      st = .header true path key span ∧ path.map (·.name) = names ∧ key.name = name := by
    unfold Statement.Opens at hst
    split at hst
    · rw [List.map_append] at hst
      obtain ⟨hpath, hkey⟩ := List.append_inj' hst rfl
      exact ⟨_, _, _, rfl, hpath, (List.cons.inj hkey).1⟩
    · cases hst
  have hpush : ∀ item, ∃ t', Table.push key item t = some t' :=
    fun item => (ht.push hkey item).imp fun _ h => h.1
  refine ⟨frame t, span, .under true path key, fun item => frame ((Table.push key item t).getD t),
    by simp [Draft.apply, hd], fun below own hown => ⟨⟨?_, own, Table.collects_nil hown, ?_⟩, ?_⟩⟩
  · exact hframe.below hpath hkey hpush below
  · obtain ⟨t', ht'⟩ := hpush own
    rw [ht']
    exact hframe path key hpath hkey own t t' ht'
  · rintro added d' ⟨-, item, hitem, hd'⟩
    obtain ⟨t', ht', hcollects⟩ := ht.push hkey item
    refine ⟨item, hitem, hframe, t', hcollects, ?_⟩
    rw [hd', ht']
    rfl

end Choreo.Toml
