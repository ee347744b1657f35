import Choreo.Program.File
import Choreo.Proofs.Program.Depth
import Choreo.Proofs.Toml.Statement

/-! # The lines of a program file

A program file is a list of lines: for each block a header, its kind and its settings, then the lines
of its children (`chars_eq`). Every line of a valid program is read as the statement it stands for
(`Line.Says`), unless the path of a header is too long; then the whole file is refused. A block as
many levels down as `Block.depths` counts has a header of as many parts, so the file is read if the
program has at most 79 levels and only then (`fits_programLines_iff`). -/

namespace Choreo

namespace BlockFile

open Toml

/-- One line of a program file. -/
inductive Line where
  /-- The header of a block, perhaps after an empty line. -/
  | header (spaced : Bool) (names : List String)
  | kind (kind : Kind)
  | setting (param : Param) (value : Float)

namespace Line

/-- The text of a line with its end. -/
def chars : Line → List Char
  | .header spaced names =>
    (if spaced then ['\n'] else []) ++ '[' :: '[' :: (dotted names ++ [']', ']', '\n'])
  | .kind k => "kind".toList ++ ' ' :: '=' :: ' ' :: '"' :: (k.name.toList ++ ['"', '\n'])
  | .setting p x => settingLine p x

/-- The statement is what the line says. -/
def Says : Line → Statement → Prop
  | .header _ names => Statement.Opens names
  | .kind k => Statement.Assigns "kind" (.text k.name)
  | .setting p x => Statement.Assigns p.name (.float x)

/-- The line is one that the reader knows, but for the length of its path. -/
def Readable : Line → Prop
  | .header _ names => names ≠ [] ∧ ∀ name ∈ names, IsName name
  | .kind _ => True
  | .setting _ x => Double.code x < BinaryFormat.double.infinity ∧ Double.code x ≠ 0 ∧
      Double.isNegative x = false

/-- The path of the line is not too long. -/
def Fits : Line → Prop
  | .header _ names => names.length ≤ depthLimit
  | _ => True

theorem chars_pos (l : Line) : 0 < l.chars.length := by
  cases l <;> simp [chars, settingLine]

end Line

/-! ### The lines of blocks -/

/-- The lines that are a block's own after its header. -/
def ownLines (kind : Kind) (settings : Settings) : List Line :=
  .kind kind :: settings.toList.map fun (p, x) => .setting p x

mutual

/-- The lines of a block and of the blocks below it, under headers that start with `names`. -/
def blockLines (spaced : Bool) (names : List String) : Block → List Line
  | ⟨kind, settings, children⟩ =>
    .header spaced names :: (ownLines kind settings ++
      listLines true (names ++ ["children"]) children)

/-- The lines of some blocks under one name. -/
def listLines (spaced : Bool) (names : List String) : List Block → List Line
  | [] => []
  | b :: rest => blockLines spaced names b ++ listLines true names rest

end

/-- The lines of a program that has blocks. -/
def programLines (blocks : List Block) : List Line := listLines false ["blocks"] blocks

theorem flatMap_ownLines (kind : Kind) (settings : Settings) :
    (ownLines kind settings).flatMap Line.chars = "kind = \"".toList ++ kind.name.toList ++
      "\"\n".toList ++ settings.toList.flatMap fun (p, x) => settingLine p x := by
  rw [ownLines, List.flatMap_cons, List.flatMap_map]
  simp [Line.chars]

mutual

theorem flatMap_blockLines (spaced : Bool) {names : List String} (h : names ≠ []) :
    ∀ b : Block, (blockLines spaced names b).flatMap Line.chars =
      (if spaced then ['\n'] else []) ++ lines (dotted names) b
  | ⟨kind, settings, children⟩ => by
    have hpath : dotted (names ++ ["children"]) = dotted names ++ ".children".toList := by
      rw [dotted_concat h]
      rfl
    rw [blockLines, List.flatMap_cons, List.flatMap_append, flatMap_ownLines,
      flatMap_listLines (List.append_ne_nil_of_left_ne_nil h _) children, hpath, lines, Line.chars]
    simp

theorem flatMap_listLines {names : List String} (h : names ≠ []) :
    ∀ bs : List Block, (listLines true names bs).flatMap Line.chars = childLines (dotted names) bs
  | [] => rfl
  | b :: rest => by
    rw [listLines, List.flatMap_append, flatMap_blockLines true h b, flatMap_listLines h rest,
      childLines]
    rfl

end

/-- **The text of a program that has blocks is that of its lines.** -/
theorem chars_eq {blocks : List Block} (h : blocks ≠ []) :
    chars blocks = (programLines blocks).flatMap Line.chars := by
  rcases blocks with _ | ⟨b, rest⟩
  · exact absurd rfl h
  · have hne : ["blocks"] ≠ [] := List.cons_ne_nil _ _
    have hpath : dotted ["blocks"] = "blocks".toList := by rw [dotted]
    have hchars : chars (b :: rest) =
        lines "blocks".toList b ++ childLines "blocks".toList rest := rfl
    rw [hchars, programLines, listLines, List.flatMap_append, flatMap_blockLines false hne,
      flatMap_listLines hne, hpath, if_neg Bool.false_ne_true, List.nil_append]

/-! ### Which lines are read -/

theorem readable_ownLines {kind : Kind} {settings : Settings} (h : settings.Fits kind) :
    ∀ l ∈ ownLines kind settings, l.Readable := by
  intro l hl
  rcases List.mem_cons.mp hl with rfl | hl
  · trivial
  · obtain ⟨⟨p, x⟩, hmem, rfl⟩ := List.mem_map.mp hl
    obtain ⟨hsign, hlow, hhigh⟩ := (h p x (Settings.mem_toList_iff.mp hmem)).2.bounds
    exact ⟨lt_of_le_of_lt hhigh p.code_high_lt, (lt_of_lt_of_le p.code_low_pos hlow).ne', hsign⟩

theorem isName_children : IsName "children" := by simp [IsName, isKeyChar]

mutual

theorem readable_blockLines (spaced : Bool) {names : List String} (h0 : names ≠ [])
    (hnames : ∀ name ∈ names, IsName name) : ∀ b : Block, b.Valid →
    ∀ l ∈ blockLines spaced names b, l.Readable
  | ⟨kind, settings, children⟩, hb, l, hl => by
    obtain ⟨hfits, -, hchildren⟩ := Block.valid_iff.mp hb
    rw [blockLines, List.mem_cons, List.mem_append] at hl
    rcases hl with rfl | hl | hl
    · exact ⟨h0, hnames⟩
    · exact readable_ownLines hfits l hl
    · refine readable_listLines true (List.append_ne_nil_of_left_ne_nil h0 _) ?_ children hchildren
        l hl
      intro name hname
      rcases List.mem_append.mp hname with hname | hname
      · exact hnames name hname
      · obtain rfl := List.mem_singleton.mp hname
        exact isName_children

theorem readable_listLines (spaced : Bool) {names : List String} (h0 : names ≠ [])
    (hnames : ∀ name ∈ names, IsName name) : ∀ bs : List Block, Block.AllValid bs →
    ∀ l ∈ listLines spaced names bs, l.Readable
  | [], _, l, hl => by
    rw [listLines] at hl
    cases hl
  | b :: rest, hbs, l, hl => by
    rw [Block.AllValid] at hbs
    rw [listLines, List.mem_append] at hl
    rcases hl with hl | hl
    · exact readable_blockLines spaced h0 hnames b hbs.1 l hl
    · exact readable_listLines true h0 hnames rest hbs.2 l hl

end

theorem readable_programLines {bs : List Block} (h : Block.AllValid bs) :
    ∀ l ∈ programLines bs, l.Readable :=
  readable_listLines false (List.cons_ne_nil _ _)
    (fun name hname => by
      obtain rfl := List.mem_singleton.mp hname
      simp [IsName, isKeyChar]) bs h

mutual

/-- Headers have as many parts as their blocks are levels down. -/
theorem fits_blockLines_iff (spaced : Bool) (names : List String) : ∀ b : Block,
    (∀ l ∈ blockLines spaced names b, l.Fits) ↔ names.length + b.depth ≤ depthLimit + 1
  | ⟨kind, settings, children⟩ => by
    have hown : ∀ l ∈ ownLines kind settings, l.Fits := by
      intro l hl
      rcases List.mem_cons.mp hl with rfl | hl
      · trivial
      · obtain ⟨_, -, rfl⟩ := List.mem_map.mp hl
        trivial
    have hlist := fits_listLines_iff true (names ++ ["children"]) children
    rw [List.length_append, List.length_singleton] at hlist
    rw [blockLines, List.forall_mem_cons, List.forall_mem_append, and_iff_right hown, hlist,
      Line.Fits, Block.depth]
    rcases children with _ | ⟨b, rest⟩
    · simp [Block.depths]
    · simp
      omega

theorem fits_listLines_iff (spaced : Bool) (names : List String) : ∀ bs : List Block,
    (∀ l ∈ listLines spaced names bs, l.Fits) ↔
      bs = [] ∨ names.length + Block.depths bs ≤ depthLimit + 1
  | [] => by simp [listLines]
  | b :: rest => by
    rw [listLines, List.forall_mem_append, fits_blockLines_iff spaced names b,
      fits_listLines_iff true names rest, Block.depths]
    rcases rest with _ | ⟨c, rest⟩
    · simp [Block.depths]
    · simp
      omega

end

/-- **A program file is read if the program has at most 79 levels**, and only then. -/
theorem fits_programLines_iff (blocks : List Block) :
    (∀ l ∈ programLines blocks, l.Fits) ↔ Block.depths blocks ≤ depthLimit := by
  rw [programLines, fits_listLines_iff, List.length_singleton]
  rcases blocks with _ | ⟨b, rest⟩
  · simp [Block.depths]
  · simp
    omega

/-! ### Reading the lines -/

theorem isName_kind : IsName "kind" := by simp [IsName, isKeyChar]

theorem isName_param (p : Param) : IsName p.name := by
  cases p <;> simp [IsName, isKeyChar, Param.name]

theorem isName_kind_name (k : Kind) : IsName k.name := by
  cases k <;> simp [IsName, isKeyChar, Kind.name]

theorem isSolid_of_isKeyChar {c : Char} (h : isKeyChar c = true) : isSolid c = true := by
  simp only [isSolid, isSpace_eq_false h, Bool.not_false, Bool.true_and, Bool.and_eq_true,
    decide_eq_true_eq]
  exact ⟨⟨ne_of_isKeyChar h (by decide), ne_of_isKeyChar h (by decide)⟩,
    ne_of_isKeyChar h (by decide)⟩

theorem skipLines_name {name : String} (h : IsName name) (rest : List Char) :
    skipLines (name.toList ++ rest) = name.toList ++ rest ∧ name.toList ++ rest ≠ [] := by
  obtain ⟨c, more, hcons, hc⟩ := h.exists_cons
  rw [hcons, List.cons_append]
  exact ⟨skipLines_solid (isSolid_of_isKeyChar hc) _, List.cons_ne_nil _ _⟩

theorem skipLines_header (spaced : Bool) (rest : List Char) :
    skipLines ((if spaced then ['\n'] else []) ++ '[' :: rest) = '[' :: rest := by
  cases spaced
  · exact skipLines_solid (by decide) _
  · exact skipLines_newline (by decide) _

/-- **A line is read as what it says.** -/
theorem Line.read {l : Line} (h : l.Readable) (hfits : l.Fits) (size fuel : ℕ) (rest : List Char) :
    ∃ st, readStatements size (fuel + 1) (l.chars ++ rest) =
      (readStatements size fuel rest).map (st :: ·) ∧ l.Says st := by
  cases l with
  | header spaced names =>
    obtain ⟨st, hst, hsaid⟩ := readStatement_header h.2 size ('\n' :: rest) h.1 hfits
    refine ⟨st, readStatements_of_line ?_ (List.cons_ne_nil _ _) fuel hst, hsaid⟩
    rw [← skipLines_header spaced]
    simp [chars]
  | kind k =>
    obtain ⟨span, hvalue⟩ := readValue_name (isName_kind_name k) size depthLimit ('\n' :: rest)
    obtain ⟨st, hst, hsaid⟩ := readStatement_assignment isName_kind (by decide) hvalue
    obtain ⟨hskip, hne⟩ := skipLines_name isName_kind
      (' ' :: '=' :: ' ' :: '"' :: (k.name.toList ++ '"' :: '\n' :: rest))
    refine ⟨st, readStatements_of_line ?_ hne fuel hst, hsaid⟩
    rw [← hskip]
    simp [chars]
  | setting p x =>
    obtain ⟨c, text, span, htext, hspace, hvalue⟩ :=
      readValue_number h.1 h.2.1 h.2.2 size depthLimit rest
    obtain ⟨st, hst, hsaid⟩ := readStatement_assignment (isName_param p) hspace hvalue
    obtain ⟨hskip, hne⟩ := skipLines_name (isName_param p) (' ' :: '=' :: ' ' :: c :: text)
    refine ⟨st, readStatements_of_line ?_ hne fuel hst, hsaid⟩
    rw [← hskip, ← htext]
    simp [chars, settingLine]

theorem Line.read_eq_none {l : Line} (h : l.Readable) (hfits : ¬ l.Fits) (size fuel : ℕ)
    (rest : List Char) : readStatements size (fuel + 1) (l.chars ++ rest) = none := by
  cases l with
  | header spaced names =>
    refine readStatements_eq_none ?_ (List.cons_ne_nil _ _) fuel
      (readStatement_header_eq_none h.2 size ('\n' :: rest) (Nat.lt_of_not_le hfits))
    rw [← skipLines_header spaced]
    simp [chars]
  | kind k => exact absurd trivial hfits
  | setting p x => exact absurd trivial hfits

/-- **Lines are read one after the other**, each as what it says. -/
theorem readStatements_lines {ls : List Line} (h : ∀ l ∈ ls, l.Readable) (hfits : ∀ l ∈ ls, l.Fits)
    (size : ℕ) {fuel : ℕ} (hfuel : ls.length < fuel) :
    ∃ sts, readStatements size fuel (ls.flatMap Line.chars) = some sts ∧
      List.Forall₂ Line.Says ls sts := by
  induction ls generalizing fuel with
  | nil =>
    obtain ⟨fuel, rfl⟩ : ∃ n, fuel = n + 1 := ⟨fuel - 1, by simp at hfuel; omega⟩
    exact ⟨[], rfl, .nil⟩
  | cons l ls ih =>
    obtain ⟨fuel, rfl⟩ : ∃ n, fuel = n + 1 := ⟨fuel - 1, by simp at hfuel; omega⟩
    have hless : ls.length < fuel := by simpa using hfuel
    obtain ⟨sts, hsts, hsaid⟩ := ih (fun m hm => h m (List.mem_cons_of_mem _ hm))
      (fun m hm => hfits m (List.mem_cons_of_mem _ hm)) hless
    obtain ⟨st, hst, hsay⟩ := Line.read (h l List.mem_cons_self) (hfits l List.mem_cons_self) size
      fuel (ls.flatMap Line.chars)
    exact ⟨st :: sts, by rw [List.flatMap_cons, hst, hsts]; rfl, .cons hsay hsaid⟩

/-- **One line that is too long spoils the file.** -/
theorem readStatements_lines_eq_none {ls : List Line} (h : ∀ l ∈ ls, l.Readable)
    (hfits : ∃ l ∈ ls, ¬ l.Fits) (size fuel : ℕ) :
    readStatements size fuel (ls.flatMap Line.chars) = none := by
  induction ls generalizing fuel with
  | nil =>
    obtain ⟨l, hl, -⟩ := hfits
    cases hl
  | cons l ls ih =>
    rcases fuel with _ | fuel
    · rfl
    have hl := h l List.mem_cons_self
    rw [List.flatMap_cons]
    by_cases hfit : l.Fits
    · obtain ⟨m, hm, hnot⟩ := hfits
      have hrest : m ∈ ls := by
        rcases List.mem_cons.mp hm with rfl | hm
        · exact absurd hfit hnot
        · exact hm
      obtain ⟨st, hst, -⟩ := Line.read hl hfit size fuel (ls.flatMap Line.chars)
      rw [hst, ih (fun m hm => h m (List.mem_cons_of_mem _ hm)) ⟨m, hrest, hnot⟩]
      rfl
    · exact Line.read_eq_none hl hfit size fuel _

theorem length_le_flatMap_chars (ls : List Line) :
    ls.length ≤ (ls.flatMap Line.chars).length := by
  induction ls with
  | nil => exact le_rfl
  | cons l ls ih =>
    have := l.chars_pos
    rw [List.length_cons, List.flatMap_cons, List.length_append]
    omega

end BlockFile

end Choreo
