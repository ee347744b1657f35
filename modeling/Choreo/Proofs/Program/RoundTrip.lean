import Choreo.Proofs.Program.Record
import Choreo.Proofs.Program.Valid

/-! # Program files are read back

The lines of a program file say what its blocks are, and each header names the table that the lines
after it fill. So the lines of a block add one table to the list that its header names
(`foldlM_blockLines`), wherever in the document that list is, and its children add theirs to that
table. A document with these tables is read as the blocks (`Program.ofText_chars`) as long as no
header is too long; otherwise the text is no document (`Program.ofText_chars_of_deep`). -/

namespace Choreo

namespace BlockFile

open Toml

/-! ### From lines to tables -/

theorem forall₂_append_left_iff {α β : Type*} {r : α → β → Prop} {as as' : List α} {bs : List β} :
    List.Forall₂ r (as ++ as') bs ↔
      ∃ cs ds, List.Forall₂ r as cs ∧ List.Forall₂ r as' ds ∧ bs = cs ++ ds := by
  constructor
  · intro h
    induction as generalizing bs with
    | nil => exact ⟨[], bs, .nil, h, rfl⟩
    | cons a as ih =>
      rw [List.cons_append, List.forall₂_cons_left_iff] at h
      obtain ⟨b, bs, hb, hbs, rfl⟩ := h
      obtain ⟨cs, ds, hcs, hds, rfl⟩ := ih hbs
      exact ⟨b :: cs, ds, .cons hb hcs, hds, rfl⟩
  · rintro ⟨cs, ds, hcs, hds, rfl⟩
    exact List.rel_append hcs hds

theorem foldlM_ownLines {kind : Kind} {settings : Settings} {sts : List Statement}
    (h : List.Forall₂ Line.Says (ownLines kind settings) sts) (root : Table Value) (span : Span)
    (place : Place) : ∃ own, sts.foldlM Toml.Draft.apply ⟨root, ⟨.header, some span, []⟩, place⟩ =
      some ⟨root, own, place⟩ ∧ List.Forall₂ Holds (ownValues kind settings) own.entries ∧
      own.get? "children" = none := by
  obtain ⟨own, entries, hfold, hentries, hholds⟩ := Toml.Draft.foldlM_assigns (assigns_of_ownLines h)
    ⟨root, ⟨.header, some span, []⟩, place⟩ (fun _ _ => rfl) (nodup_ownValues kind settings)
  obtain rfl : own.entries = entries := hentries
  refine ⟨own, hfold, hholds, Table.get?_eq_none_iff.mpr fun e he => ?_⟩
  rintro heq
  refine children_notMem_ownValues kind settings ?_
  rw [← names_of_holds hholds, ← heq]
  exact List.mem_map_of_mem he

mutual

/-- **The lines of a block add its table** to the list that its header names. -/
theorem foldlM_blockLines : ∀ (b : Block) {names : List String} {name : String}
    {frame : Table Value → Table Value} {base : Table Value} {items : List (Table Value)}
    {d : Toml.Draft}, Awaits names name frame base items d →
    ∀ {spaced : Bool} {sts : List Statement},
      List.Forall₂ Line.Says (blockLines spaced (names ++ [name]) b) sts →
    ∃ d' item, sts.foldlM Toml.Draft.apply d = some d' ∧
      Awaits names name frame base (items ++ [item]) d' ∧ Reads b item
  | ⟨kind, settings, children⟩, names, name, frame, base, items, d, hd, spaced, sts, hsaid => by
    rw [blockLines, List.forall₂_cons_left_iff] at hsaid
    obtain ⟨st, more, hopens, hmore, rfl⟩ := hsaid
    obtain ⟨ownSts, childSts, hownSaid, hchildSaid, rfl⟩ := forall₂_append_left_iff.mp hmore
    obtain ⟨root, span, place, frame', happly, htable⟩ := hd.header hopens
    obtain ⟨own, hown, hholds, hfree⟩ := foldlM_ownLines hownSaid root span place
    -- the children are added to the table that the header opened
    obtain ⟨hbelow, hback⟩ := htable "children" own hfree
    obtain ⟨d', added, hchildren, hd', hreads⟩ := foldlM_listLines children hbelow hchildSaid
    obtain ⟨item, hitem, hd'⟩ := hback added d' hd'
    refine ⟨d', item, ?_, hd', reads_of_collects hholds hitem hreads⟩
    rw [List.foldlM_cons, happly, Option.bind_eq_bind, Option.bind_some, List.foldlM_append, hown]
    exact hchildren

/-- **The lines of some blocks add their tables**, in their order. -/
theorem foldlM_listLines : ∀ (bs : List Block) {names : List String} {name : String}
    {frame : Table Value → Table Value} {base : Table Value} {items : List (Table Value)}
    {d : Toml.Draft}, Awaits names name frame base items d →
    ∀ {spaced : Bool} {sts : List Statement},
      List.Forall₂ Line.Says (listLines spaced (names ++ [name]) bs) sts →
    ∃ d' added, sts.foldlM Toml.Draft.apply d = some d' ∧
      Awaits names name frame base (items ++ added) d' ∧ List.Forall₂ Reads bs added
  | [], names, name, frame, base, items, d, hd, spaced, sts, hsaid => by
    rw [listLines] at hsaid
    cases hsaid
    exact ⟨d, [], rfl, by rwa [List.append_nil], .nil⟩
  | b :: rest, names, name, frame, base, items, d, hd, spaced, sts, hsaid => by
    rw [listLines] at hsaid
    obtain ⟨blockSts, restSts, hblock, hrest, rfl⟩ := forall₂_append_left_iff.mp hsaid
    obtain ⟨d₁, item, hfold₁, hd₁, hreads₁⟩ := foldlM_blockLines b hd hblock
    obtain ⟨d₂, added, hfold₂, hd₂, hreads₂⟩ := foldlM_listLines rest hd₁ hrest
    refine ⟨d₂, item :: added, ?_, by rwa [List.append_cons], .cons hreads₁ hreads₂⟩
    rw [List.foldlM_append, hfold₁]
    exact hfold₂

end

/-! ### Documents -/

/-- **The lines of valid blocks make up a document that holds the blocks.** -/
theorem blocksOf_of_lines {bs : List Block} (hvalid : Block.AllValid bs) {sts : List Statement}
    (h : List.Forall₂ Line.Says (programLines bs) sts) :
    ∃ d document, sts.foldlM Toml.Draft.apply .empty = some d ∧ d.finish = some document ∧
      blocksOf document = .ok bs := by
  obtain ⟨d, ts, hfold, ⟨-, document, hcollects, hfinish⟩, hreads⟩ :=
    foldlM_listLines bs (awaits_empty "blocks") h
  refine ⟨d, document, hfold, hfinish, ?_⟩
  rw [List.nil_append] at hcollects
  rcases hcollects.shape with ⟨rfl, rfl⟩ | ⟨key, hkey, rfl⟩
  · cases hreads
    rfl
  · rw [blocksOf, Table.append, List.nil_append, List.find?_cons_of_pos (by simpa using hkey)]
    exact readAll_tables hvalid hreads key.span

theorem blocksOf_valid {document : Table Value} {bs : List Block}
    (h : blocksOf document = .ok bs) : Block.AllValid bs := by
  rw [blocksOf] at h
  split at h
  · exact readAll_valid h
  · cases h
    trivial

theorem dropMark_chars (bs : List Block) : dropMark (chars bs) = chars bs := by
  rcases bs with _ | ⟨⟨kind, settings, children⟩, rest⟩
  · rfl
  · obtain ⟨more, hmore⟩ : ∃ more, chars (⟨kind, settings, children⟩ :: rest) = '[' :: more :=
      ⟨_, rfl⟩
    rw [hmore]
    rfl

theorem read?_chars (bs : List Block) : read? (String.ofList (chars bs)) = (do
    let sts ← readStatements (byteCount (chars bs)) ((chars bs).length + 1) (chars bs)
    let d ← sts.foldlM Toml.Draft.apply .empty
    d.finish) := by
  unfold read?
  simp only [String.toList_ofList, dropMark_chars]

end BlockFile

open BlockFile Toml

/-- The file of an empty program has one line, which is read as an empty list. -/
theorem Program.ofText_empty : Program.ofText (String.ofList (chars [])) = .ok (.ofBlocks []) := by
  rfl

section

variable {bs : List Block} (hvalid : Block.AllValid bs)
include hvalid

/-- **A file of at most 79 levels is read as the blocks it was written from.** -/
theorem Program.ofText_chars (hdepth : Block.depths bs ≤ depthLimit) :
    Program.ofText (String.ofList (chars bs)) = .ok (.ofBlocks bs) := by
  rcases hbs : bs with _ | ⟨b, rest⟩
  · exact Program.ofText_empty
  · rw [← hbs]
    have hne : bs ≠ [] := by simp [hbs]
    have hchars := chars_eq hne
    have hfuel : (programLines bs).length < (chars bs).length + 1 := by
      rw [hchars]
      exact Nat.lt_succ_of_le (length_le_flatMap_chars _)
    obtain ⟨sts, hsts, hsaid⟩ := readStatements_lines (readable_programLines hvalid)
      ((fits_programLines_iff bs).mpr hdepth) (byteCount (chars bs)) hfuel
    obtain ⟨d, document, hfold, hfinish, hblocks⟩ := blocksOf_of_lines hvalid hsaid
    have hread : read? (String.ofList (chars bs)) = some document := by
      rw [← hchars] at hsts
      rw [read?_chars, hsts]
      simp only [Option.bind_eq_bind, Option.bind_some, hfold, hfinish]
    unfold Program.ofText
    rw [hread]
    simp only [hblocks, Except.map]

/-- **A file of more levels is no document for the reader.** -/
theorem Program.ofText_chars_of_deep (hdeep : depthLimit < Block.depths bs) :
    Program.ofText (String.ofList (chars bs)) = .error .malformed := by
  have hne : bs ≠ [] := by
    rintro rfl
    exact absurd hdeep (Nat.not_lt_zero _)
  have hlong : ∃ l ∈ programLines bs, ¬ l.Fits := by
    by_contra hnot
    push Not at hnot
    exact absurd ((fits_programLines_iff bs).mp hnot) (Nat.not_le_of_lt hdeep)
  have hread : read? (String.ofList (chars bs)) = none := by
    have hnone := readStatements_lines_eq_none (readable_programLines hvalid) hlong
      (byteCount (chars bs)) ((chars bs).length + 1)
    rw [← chars_eq hne] at hnone
    rw [read?_chars, hnone]
    rfl
  unfold Program.ofText
  rw [hread]

end

/-! ### Programs -/

theorem Program.toBlocks_ofBlocks (bs : List Block) : (ofBlocks bs).toBlocks = bs := by
  rw [(stores_ofBlocks bs).toBlocks, Tree.blocks_labelAll]

/-- **What is read from a file is a program that edits lead to.** -/
theorem Program.ofText_reachable {source : String} {p : Program}
    (h : Program.ofText source = .ok p) : p.Reachable := by
  rw [Program.ofText] at h
  split at h
  · cases h
  · obtain ⟨bs, hbs, rfl⟩ := map_eq_ok.mp h
    exact .ofBlocks (blocksOf_valid hbs)

/-- **Program files are read back.** The file of a program that edits lead to is read, if no path in
the program has more than 79 indices, as a program of the same blocks: with the same kinds, with the
same values bit for bit where a value is set and none where none is, and with the same children in
the same order. -/
theorem Program.text_read_back {p : Program} (hp : p.Reachable)
    (hdepth : ∀ path id, p.resolve path = .ok id → path.depth ≤ 79) :
    ∃ q, Program.ofText p.text = .ok q ∧ q.Reachable ∧ q.toBlocks = p.toBlocks :=
  ⟨.ofBlocks p.toBlocks, Program.ofText_chars hp.allValid (hp.depths_le_iff.mpr hdepth),
    .ofBlocks hp.allValid, toBlocks_ofBlocks _⟩

/-- A repeat with a child, both with values of their own, is read back. -/
theorem Program.text_read_back_loop :
    let bs : List Block := [⟨.loop, { times := some 3.0 },
      [⟨.moveForward, { speed := some 0.25 }, []⟩, .ofKind .wave]⟩, .ofKind .pause]
    (ofBlocks bs).Reachable ∧
    (∀ path id, (ofBlocks bs).resolve path = .ok id → path.depth ≤ 79) ∧
    ∃ q, Program.ofText (ofBlocks bs).text = .ok q ∧ q.Reachable ∧ q.toBlocks = bs := by
  intro bs
  have hloop : Settings.Fits { times := some 3.0 } .loop := by
    intro p x h
    cases p <;> cases h
    exact ⟨rfl, by decide, by decide, by decide, fun _ => ⟨3, by decide⟩⟩
  have hforward : Settings.Fits { speed := some 0.25 } .moveForward := by
    intro p x h
    cases p <;> cases h
    exact ⟨rfl, by decide, by decide, by decide, nofun⟩
  have hvalid : Block.AllValid bs := by
    refine ⟨?_, Block.valid_ofKind .pause, trivial⟩
    refine Block.valid_iff.mpr ⟨hloop, nofun, ?_, Block.valid_ofKind .wave, trivial⟩
    exact Block.valid_iff.mpr ⟨hforward, fun _ => rfl, trivial⟩
  have hp : (ofBlocks bs).Reachable := .ofBlocks hvalid
  have hdepth : ∀ path id, (ofBlocks bs).resolve path = .ok id → path.depth ≤ 79 := by
    rw [← hp.depths_le_iff, toBlocks_ofBlocks]
    decide
  obtain ⟨q, hq, hreach, hblocks⟩ := text_read_back hp hdepth
  exact ⟨hp, hdepth, q, hq, hreach, hblocks.trans (toBlocks_ofBlocks bs)⟩

end Choreo
