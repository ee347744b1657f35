import Choreo.Proofs.CommandLine.TreeLine
import Choreo.Proofs.Program.RoundTrip
import Choreo.Proofs.Program.Walk
import Choreo.Proofs.Run.Executable

/-! # Listings tell programs apart

The listing of a program has a line for each block, in document order. Put together, the lines tell the
whole forest: which blocks lie below which follows from the paths (`allEntries_inj`), and the lines
tell paths, kinds and settings. So two programs have the same listing only if they have the same
blocks. -/

namespace Choreo

/-- What the line of a block tells. -/
structure ListingEntry where
  path : Path
  kind : Kind
  settings : Settings

/-- The line of the entry. -/
def ListingEntry.line (e : ListingEntry) : String :=
  Execution.treeLine e.path ⟨e.kind, e.settings, none, []⟩

namespace Block

mutual

/-- The entries of a block that stands at `here` and of the blocks below it, in document order. -/
def entries (here : Path) : Block → List ListingEntry
  | ⟨kind, settings, children⟩ => ⟨here, kind, settings⟩ :: allEntries here 0 children

/-- The entries of blocks that are what the list at `parent` holds from `index` on. -/
def allEntries (parent : Path) (index : Nat) : List Block → List ListingEntry
  | [] => []
  | b :: rest => b.entries (parent.child index) ++ allEntries parent (index + 1) rest

end

mutual

theorem prefix_of_mem_entries : ∀ (b : Block) {here : Path} {e : ListingEntry},
    e ∈ b.entries here → here.indices <+: e.path.indices
  | ⟨kind, settings, children⟩, here, e, he => by
    rw [entries, List.mem_cons] at he
    rcases he with rfl | he
    · exact List.prefix_refl _
    · obtain ⟨i, -, hi⟩ := prefix_of_mem_allEntries children he
      exact (List.prefix_append _ _).trans hi

theorem prefix_of_mem_allEntries : ∀ (bs : List Block) {parent : Path} {index : Nat}
    {e : ListingEntry}, e ∈ allEntries parent index bs →
      ∃ i, index ≤ i ∧ (parent.child i).indices <+: e.path.indices
  | [], _, _, _, he => by
    rw [allEntries] at he
    cases he
  | b :: rest, parent, index, e, he => by
    rw [allEntries, List.mem_append] at he
    rcases he with he | he
    · exact ⟨index, le_rfl, prefix_of_mem_entries b he⟩
    · obtain ⟨i, hi, hprefix⟩ := prefix_of_mem_allEntries rest he
      exact ⟨i, (Nat.le_succ _).trans hi, hprefix⟩

end

theorem sibling_eq {parent path : Path} {i j : Nat} (hi : (parent.child i).indices <+: path.indices)
    (hj : (parent.child j).indices <+: path.indices) : i = j := by
  have hlength : (parent.child i).indices.length = (parent.child j).indices.length := by
    simp [Path.child]
  have heq := (List.prefix_of_prefix_length_le hi hj hlength.le).eq_of_length hlength
  exact (List.cons.inj (List.append_cancel_left heq)).1

/-- Where the elements before a place have a property and those after it do not, the place is
known. -/
theorem append_inj_of_forall {α : Type*} {holds : α → Bool} {as as' bs bs' : List α}
    (has : ∀ a ∈ as, holds a = true) (has' : ∀ a ∈ as', holds a = true)
    (hbs : ∀ b ∈ bs, ¬ holds b = true) (hbs' : ∀ b ∈ bs', ¬ holds b = true)
    (h : as ++ bs = as' ++ bs') : as = as' ∧ bs = bs' := by
  have hfilter := congrArg (List.filter holds) h
  rw [List.filter_append, List.filter_append, List.filter_eq_self.mpr has,
    List.filter_eq_self.mpr has', List.filter_eq_nil_iff.mpr hbs, List.filter_eq_nil_iff.mpr hbs',
    List.append_nil, List.append_nil] at hfilter
  subst hfilter
  exact ⟨rfl, List.append_cancel_left h⟩

mutual

theorem entries_inj (here : Path) : ∀ b b' : Block, b.entries here = b'.entries here → b = b'
  | ⟨kind, settings, children⟩, ⟨kind', settings', children'⟩, h => by
    rw [entries, entries] at h
    obtain ⟨hfirst, hbelow⟩ := List.cons.inj h
    cases hfirst
    rw [allEntries_inj here 0 children children' hbelow]

/-- **The entries tell the blocks**: those of the first block are the ones at or below its place. -/
theorem allEntries_inj (parent : Path) (index : Nat) : ∀ bs bs' : List Block,
    allEntries parent index bs = allEntries parent index bs' → bs = bs'
  | [], [], _ => rfl
  | [], ⟨kind, settings, children⟩ :: rest, h => by
    rw [allEntries, allEntries, entries] at h
    cases h
  | ⟨kind, settings, children⟩ :: rest, [], h => by
    rw [allEntries, allEntries, entries] at h
    cases h
  | b :: rest, b' :: rest', h => by
    rw [allEntries, allEntries] at h
    have hfirst : ∀ (c : Block), ∀ e ∈ c.entries (parent.child index),
        e.path.startsWith (parent.child index) = true :=
      fun c e he => Path.startsWith_iff.mpr (prefix_of_mem_entries c he)
    have hlater : ∀ (cs : List Block), ∀ e ∈ allEntries parent (index + 1) cs,
        ¬ e.path.startsWith (parent.child index) = true := by
      intro cs e he hstarts
      obtain ⟨i, hi, hprefix⟩ := prefix_of_mem_allEntries cs he
      have := sibling_eq hprefix (Path.startsWith_iff.mp hstarts)
      omega
    obtain ⟨hb, hrest⟩ := append_inj_of_forall (hfirst b) (hfirst b') (hlater rest) (hlater rest') h
    rw [entries_inj _ b b' hb, allEntries_inj parent (index + 1) rest rest' hrest]

end

mutual

theorem fits_of_mem_entries : ∀ b : Block, b.Valid → ∀ {here : Path}, ∀ e ∈ b.entries here,
    e.settings.Fits e.kind
  | ⟨kind, settings, children⟩, hb, here, e, he => by
    obtain ⟨hfits, -, hchildren⟩ := valid_iff.mp hb
    rw [entries, List.mem_cons] at he
    rcases he with rfl | he
    · exact hfits
    · exact fits_of_mem_allEntries children hchildren e he

theorem fits_of_mem_allEntries : ∀ bs : List Block, AllValid bs → ∀ {parent : Path} {index : Nat},
    ∀ e ∈ allEntries parent index bs, e.settings.Fits e.kind
  | [], _, _, _, e, he => by
    rw [allEntries] at he
    cases he
  | b :: rest, hbs, parent, index, e, he => by
    rw [AllValid] at hbs
    rw [allEntries, List.mem_append] at he
    rcases he with he | he
    · exact fits_of_mem_entries b hbs.1 e he
    · exact fits_of_mem_allEntries rest hbs.2 e he

end

end Block

namespace Execution

open Choreo.Tree (nodesAll nodesAll_cons walkAll blocks)

variable {p q : Program}

/-! ### The listing of a program -/

/-- What the listing of a program shows of a node. -/
def lineAt? (p : Program) (e : Path × NodeId) : Option String :=
  (p.node? e.2).map (treeLine e.1)

mutual

theorem filterMap_walk (owner : Option NodeId) : ∀ (t : Tree) (here : Path),
    (∀ e ∈ t.nodes owner, p.node? e.1 = some e.2) →
    (t.walk here).filterMap (lineAt? p) = (t.block.entries here).map ListingEntry.line
  | .node id kind settings children, here, hheld => by
    rw [Tree.nodes] at hheld
    have hroot : lineAt? p (here, id) = some (ListingEntry.line ⟨here, kind, settings⟩) := by
      rw [lineAt?, hheld _ List.mem_cons_self]
      rfl
    rw [Tree.walk, List.filterMap_cons_some hroot, Tree.block, Block.entries, List.map_cons,
      filterMap_walkAll (some id) children here 0 fun e he => hheld e (List.mem_cons_of_mem _ he)]

theorem filterMap_walkAll (owner : Option NodeId) : ∀ (ts : List Tree) (parent : Path)
    (index : Nat), (∀ e ∈ nodesAll owner ts, p.node? e.1 = some e.2) →
    (walkAll parent index ts).filterMap (lineAt? p) =
      (Block.allEntries parent index (blocks ts)).map ListingEntry.line
  | [], _, _, _ => by simp [blocks, Block.allEntries]
  | t :: ts, parent, index, hheld => by
    rw [nodesAll_cons, List.forall_mem_append] at hheld
    rw [Tree.walkAll_cons, List.filterMap_append, blocks, Block.allEntries, List.map_append,
      filterMap_walk owner t (parent.child index) hheld.1,
      filterMap_walkAll owner ts parent (index + 1) hheld.2]

end

/-- The lines of a list of root blocks. -/
def blockLines (bs : List Block) : List String :=
  if bs = [] then ["(empty program)"] else (Block.allEntries .root 0 bs).map ListingEntry.line

/-- **The listing of a program shows the entries of its blocks.** -/
theorem treeLines_eq (hp : p.Reachable) : treeLines p = blockLines p.toBlocks := by
  obtain ⟨ts, h⟩ := hp.stores
  have hempty : p.isEmpty = true ↔ blocks ts = [] := by
    rw [Program.isEmpty, h.roots, List.isEmpty_iff, List.map_eq_nil_iff, Tree.blocks_eq_map,
      List.map_eq_nil_iff]
  have hlines : p.walk.filterMap (lineAt? p) =
      (Block.allEntries .root 0 (blocks ts)).map ListingEntry.line := by
    rw [h.walk]
    exact filterMap_walkAll none ts .root 0 h.held
  rw [blockLines, h.toBlocks, ← hlines]
  exact if_congr hempty rfl rfl

/-- The text that a listing is printed as. -/
def listing (p : Program) : String := Output.results (.now ((treeLines p).map .result))

theorem toList_results (lines : List String) :
    (Output.results (.now (lines.map .result))).toList =
      ['\n'].intercalate (lines.map String.toList ++ [[]]) := by
  have hresults : Output.results (.now (lines.map .result)) =
      "".intercalate (lines.map (· ++ "\n")) := by
    rw [Output.results, Output.now, List.map_map, List.filterMap_map, ← List.filterMap_eq_map]
    rfl
  rw [hresults, String.toList_intercalate, List.map_map]
  clear hresults
  induction lines with
  | nil => rfl
  | cons l lines ih =>
    rcases lines with _ | ⟨m, lines⟩
    · simp
    · simp only [List.map_cons, List.intercalate_cons_cons, List.cons_append] at ih ⊢
      rw [ih]
      simp

theorem pieces_results {lines : List String} (h : ∀ l ∈ lines, '\n' ∉ l.toList) :
    pieces '\n' (Output.results (.now (lines.map .result))).toList =
      lines.map String.toList ++ [[]] := by
  rw [toList_results]
  refine pieces_intercalate (by simp) fun part hpart => ?_
  rcases List.mem_append.mp hpart with hpart | hpart
  · obtain ⟨l, hl, rfl⟩ := List.mem_map.mp hpart
    exact h l hl
  · rw [List.mem_singleton.mp hpart]
    exact List.not_mem_nil

theorem newline_not_mem_blockLines {bs : List Block} (h : Block.AllValid bs) :
    ∀ l ∈ blockLines bs, '\n' ∉ l.toList := by
  intro l hl
  rw [blockLines] at hl
  split_ifs at hl
  · rw [List.mem_singleton.mp hl]
    decide
  · obtain ⟨e, he, rfl⟩ := List.mem_map.mp hl
    exact newline_not_mem_treeLine (Block.fits_of_mem_allEntries bs h e he)

theorem blockLines_inj {bs bs' : List Block} (h : Block.AllValid bs) (h' : Block.AllValid bs')
    (hlines : blockLines bs = blockLines bs') : bs = bs' := by
  -- a line of a block starts with a slash, after spaces
  have hmixed : ∀ {bs : List Block}, Block.AllValid bs → bs ≠ [] →
      ["(empty program)"] ≠ (Block.allEntries .root 0 bs).map ListingEntry.line := by
    intro bs h hne hlines
    obtain ⟨e, he⟩ : ∃ e, e ∈ Block.allEntries .root 0 bs := by
      obtain ⟨⟨kind, settings, children⟩, rest, rfl⟩ := List.exists_cons_of_ne_nil hne
      rw [Block.allEntries, Block.entries]
      exact ⟨_, List.mem_cons_self⟩
    have hline : e.line ∈ ["(empty program)"] := hlines ▸ List.mem_map_of_mem he
    let n : Node := ⟨e.kind, e.settings, none, []⟩
    have hn : n.settings.Fits n.kind := Block.fits_of_mem_allEntries bs h e he
    have htext : treeLine e.path n = "(empty program)" := List.mem_singleton.mp hline
    have hwords : pieces ' ' ((treeLine e.path n).toList.dropWhile (· = ' ')) = treeWords e.path n :=
      pieces_treeLine hn
    rw [htext] at hwords
    obtain ⟨rest, hrest⟩ := e.path.exists_chars_cons
    rw [treeWords, hrest] at hwords
    exact absurd (List.cons.inj (List.cons.inj hwords).1).1 (by decide)
  rw [blockLines, blockLines] at hlines
  split_ifs at hlines with hnil hnil' hnil'
  · exact hnil.trans hnil'.symm
  · exact absurd hlines (hmixed h' hnil')
  · exact absurd hlines.symm (hmixed h hnil)
  · refine Block.allEntries_inj .root 0 bs bs' (eq_of_map_eq_map (fun e he e' he' hline => ?_) hlines)
    obtain ⟨hpath, hkind, hsettings⟩ := treeLine_inj (Block.fits_of_mem_allEntries bs h e he)
      (Block.fits_of_mem_allEntries bs' h' e' he') hline
    obtain ⟨path, kind, settings⟩ := e
    obtain ⟨path', kind', settings'⟩ := e'
    cases hpath
    cases hkind
    cases hsettings
    rfl

theorem listing_eq_iff (hp : p.Reachable) (hq : q.Reachable) :
    listing p = listing q ↔ p.toBlocks = q.toBlocks := by
  constructor
  · intro h
    have hpieces : (blockLines p.toBlocks).map String.toList ++ [[]] =
        (blockLines q.toBlocks).map String.toList ++ [[]] := by
      rw [← pieces_results (newline_not_mem_blockLines hp.allValid),
        ← pieces_results (newline_not_mem_blockLines hq.allValid), ← treeLines_eq hp,
        ← treeLines_eq hq, ← listing, ← listing, h]
    have hlines := (List.append_cancel_right hpieces)
    exact blockLines_inj hp.allValid hq.allValid
      (Function.Injective.list_map (fun _ _ => String.toList_injective) hlines)
  · intro h
    rw [listing, listing, treeLines_eq hp, treeLines_eq hq, h]

theorem results_tree {files : FileTree} {file : String} (h : loadProgram files file = .ok p)
    (noColor : Bool) (verbosity : Nat) :
    (ofInvocation files ⟨noColor, verbosity, .tree file⟩).output.results = listing p := by
  have houtput : (ofInvocation files ⟨noColor, verbosity, .tree file⟩).output =
      .now (loadedLines verbosity p) ++ .now ((treeLines p).map .result) := by
    simp only [ofInvocation, withProgram, h]
    rfl
  have hlogged : ∀ e ∈ Output.now (loadedLines verbosity p), ∃ entry, e = (0, .log entry) := by
    intro e he
    obtain ⟨line, hline, rfl⟩ := List.mem_map.mp he
    obtain ⟨entry, -, rfl⟩ := List.mem_map.mp hline
    exact ⟨entry, rfl⟩
  rw [houtput, listing, Output.results, Output.results, List.filterMap_append,
    List.filterMap_eq_nil_iff.mpr, List.nil_append]
  intro e he
  obtain ⟨entry, rfl⟩ := hlogged e he
  rfl

theorem treeLine_set_ne {n : Node} (hn : n.settings.Fits n.kind) {param : Param} {x : Float}
    {s : Settings} (hunset : n.settings.get? param = none)
    (hset : n.settings.set n.kind param x = .ok s) (path : Path) :
    treeLine path { n with settings := s } ≠ treeLine path n := by
  intro hline
  obtain ⟨-, -, hsame⟩ := treeLine_inj (n := { n with settings := s }) (hn.set hset) hn hline
  obtain ⟨-, y, -, rfl⟩ := Settings.set_eq_ok hset
  have hy := Settings.get?_insert_self n.settings param y
  rw [show n.settings.insert param y = n.settings from hsame, hunset] at hy
  cases hy

/-- **The listing of a program tells the program.** Programs that edits lead to have the same listing
exactly if they have the same blocks, and only the empty program has the listing that says so. Each line
tells the path, the kind and all settings of its node; and a parameter that is set, be it to its
default, shows where one that is not set does not. -/
theorem listing_determines_program (hp : p.Reachable) (hq : q.Reachable) :
    (∀ files file, loadProgram files file = .ok p → ∀ noColor verbosity,
      (ofInvocation files ⟨noColor, verbosity, .tree file⟩).output.results = listing p) ∧
    (listing p = listing q ↔ p.toBlocks = q.toBlocks) ∧
    (listing p = "(empty program)\n" ↔ p.toBlocks = []) ∧
    (∀ path path' id id' n n', p.node? id = some n → q.node? id' = some n' →
      treeLine path n = treeLine path' n' →
        path = path' ∧ n.kind = n'.kind ∧ n.settings = n'.settings) ∧
    (∀ path id n param x s, p.node? id = some n → n.settings.get? param = none →
      n.settings.set n.kind param x = .ok s →
        treeLine path { n with settings := s } ≠ treeLine path n) := by
  have hempty : Program.Reachable (.ofBlocks []) := .ofBlocks trivial
  have hnone : listing (.ofBlocks []) = "(empty program)\n" := rfl
  refine ⟨fun files file h noColor verbosity => results_tree h noColor verbosity,
    listing_eq_iff hp hq, ?_, fun path path' id id' n n' hn hn' h =>
      treeLine_inj (hp.fits hn) (hq.fits hn') h,
    fun path id n param x s hn hunset hset => treeLine_set_ne (hp.fits hn) hunset hset path⟩
  rw [← hnone, listing_eq_iff hp hempty, Program.toBlocks_ofBlocks]

/-- A repeat with a pause in it runs once, be its count set to one or not set at all; the listings
differ. -/
theorem default_count_shows :
    ∃ p q : Program, p.Reachable ∧ q.Reachable ∧
      p.toBlocks = [⟨.loop, .empty, [.ofKind .pause]⟩] ∧
      q.toBlocks = [⟨.loop, Settings.empty.insert .times 1.0, [.ofKind .pause]⟩] ∧
      listing p ≠ listing q := by
  have hp : (Program.ofBlocks [⟨.loop, .empty, [.ofKind .pause]⟩]).Reachable :=
    .ofBlocks (by simp [Block.AllValid, Block.Valid, Block.ofKind, Kind.isContainer])
  have hq : (Program.ofBlocks
      [⟨.loop, Settings.empty.insert .times 1.0, [.ofKind .pause]⟩]).Reachable := by
    refine .ofBlocks
      ⟨Block.valid_iff.mpr ⟨?_, fun h => absurd h (by decide), Block.valid_ofKind .pause, trivial⟩, trivial⟩
    intro p x h
    cases p <;> cases h
    exact ⟨rfl, Param.times.admits_defaultValue⟩
  refine ⟨_, _, hp, hq, Program.toBlocks_ofBlocks _, Program.toBlocks_ofBlocks _, fun h => ?_⟩
  have hblocks := (listing_determines_program hp hq).2.1.mp h
  rw [Program.toBlocks_ofBlocks, Program.toBlocks_ofBlocks] at hblocks
  cases hblocks

end Execution

end Choreo
