import Choreo.CommandLine.Execution
import Choreo.Proofs.Program.RoundTrip

/-! # Edits of program files

A command that edits a file writes the edited program, or writes nothing (`ofInvocation_edit`). What
it writes is read back as the edited program unless a path in it has more than 79 indices; then the
command reports success all the same, and the file it leaves is no program file. An insertion or a
move can bring that about, since they take a block down as many levels as their paths have
(`tower`). -/

namespace Choreo

open Block (AllValid depths)

/-! ### Which edits a command makes -/

theorem EditRequest.toEdit_valid {request : EditRequest} {e : Edit}
    (h : request.toEdit = .ok e) : e.Valid := by
  cases request with
  | insert parent index kind params =>
    obtain ⟨b, hb, h⟩ := bind_eq_ok.mp h
    cases h
    exact (Block.valid_ofKind kind).foldlM_set hb
  | remove => cases h; trivial
  | move => cases h; trivial
  | reorder => cases h; trivial
  | set => cases h; trivial

/-- What the edit of a file that is asked for makes of the program in the file. -/
def EditRequest.Makes (request : EditRequest) (files : FileTree) (file : String) (q : Program) :
    Prop :=
  ∃ source p e, files.read file = .ok source ∧ Program.ofText source = .ok p ∧
    request.toEdit = .ok e ∧ p.apply e = .ok q

theorem Program.reachable_of_ofText {source : String} {p q : Program} {e : Edit}
    (hp : Program.ofText source = .ok p) (he : e.Valid) (hq : p.apply e = .ok q) : q.Reachable :=
  (Program.ofText_reachable hp).apply he hq

theorem EditRequest.Makes.reachable {request : EditRequest} {files : FileTree} {file : String}
    {q : Program} (h : request.Makes files file q) : q.Reachable := by
  obtain ⟨source, p, e, -, hp, he, hq⟩ := h
  exact Program.reachable_of_ofText hp (toEdit_valid he) hq

namespace Execution

variable (files : FileTree) (noColor : Bool) (verbosity : ℕ) (file : String)
  (output : Option String) (request : EditRequest)

theorem loadProgram_cases : (∃ lines, loadProgram files file = .error lines ∧
      ∀ source p, files.read file = .ok source → Program.ofText source ≠ .ok p) ∨
    ∃ source p, loadProgram files file = .ok p ∧ files.read file = .ok source ∧
      Program.ofText source = .ok p := by
  unfold loadProgram readNamed
  rcases hread : files.read file with fault | source
  · exact .inl ⟨_, rfl, nofun⟩
  · rcases hload : Program.ofText source with fault | p
    · refine .inl ⟨[.message ((diagnosticOf fault).text file source)], ?_, ?_⟩
      · simp [Except.mapError, bind, Except.bind, hload]
      · rintro _ p ⟨⟩ hp
        rw [hload] at hp
        cases hp
    · refine .inr ⟨source, p, ?_, rfl, hload⟩
      simp [Except.mapError, bind, Except.bind, hload]

theorem applyRequest_cases (p : Program) :
    (∃ fault, applyRequest p request = .error fault ∧
      ∀ e q, request.toEdit = .ok e → p.apply e ≠ .ok q) ∨
    ∃ e q, applyRequest p request = .ok (e, q) ∧ request.toEdit = .ok e ∧ p.apply e = .ok q := by
  unfold applyRequest
  rcases hedit : request.toEdit with fault | e
  · exact .inl ⟨_, rfl, nofun⟩
  · rcases happly : p.apply e with fault | q
    · refine .inl ⟨fault, ?_, ?_⟩
      · simp [Except.mapError, bind, Except.bind, happly]
      · rintro _ q ⟨⟩ hq
        rw [happly] at hq
        cases hq
    · refine .inr ⟨e, q, ?_, rfl, happly⟩
      simp [Except.mapError, bind, Except.bind, pure, Except.pure, happly]

theorem makes_unique {files : FileTree} {file : String} {request : EditRequest} {p q : Program}
    (hp : request.Makes files file p) (hq : request.Makes files file q) : p = q := by
  obtain ⟨source, r, e, hsource, hr, he, hp⟩ := hp
  obtain ⟨source', r', e', hsource', hr', he', hq⟩ := hq
  obtain rfl : source = source' := Except.ok.inj (hsource.symm.trans hsource')
  obtain rfl : r = r' := Except.ok.inj (hr.symm.trans hr')
  obtain rfl : e = e' := Except.ok.inj (he.symm.trans he')
  exact Except.ok.inj (hp.symm.trans hq)

/-- **An edit writes the edited program or nothing.** -/
theorem ofInvocation_edit :
    let e := ofInvocation files ⟨noColor, verbosity, .edit file output request⟩
    (e.code = 1 ∧ e.written = none ∧ e.filesAfter files = files ∧
      ∀ q, request.Makes files file q →
        ∃ fault, files.write (output.getD file) q.text = .error fault) ∨
    (e.code = 0 ∧ ∃ q, request.Makes files file q ∧
      e.written = some (output.getD file, q.text) ∧
      files.write (output.getD file) q.text = .ok (e.filesAfter files)) := by
  rcases loadProgram_cases files file with ⟨lines, hload, hnone⟩ | ⟨source, p, hload, hread, hp⟩
  · simp only [ofInvocation, withProgram, hload]
    refine .inl ⟨rfl, rfl, rfl, ?_⟩
    rintro q ⟨source, p, e, hread, hp, -⟩
    exact absurd hp (hnone source p hread)
  · simp only [ofInvocation, withProgram, hload, editProgram]
    rcases applyRequest_cases request p with ⟨fault, happly, hnone⟩ | ⟨e, q, happly, he, hq⟩
    · simp only [happly]
      refine .inl ⟨rfl, rfl, rfl, ?_⟩
      rintro q ⟨source', p', e, hread', hp', he, hq⟩
      obtain rfl : source = source' := Except.ok.inj (hread.symm.trans hread')
      obtain rfl : p = p' := Except.ok.inj (hp.symm.trans hp')
      exact absurd hq (hnone e q he)
    · have hmakes : request.Makes files file q := ⟨source, p, e, hread, hp, he, hq⟩
      simp only [happly]
      rcases hwrite : files.write (output.getD file) q.text with fault | after
      · refine .inl ⟨rfl, rfl, rfl, fun q' hq' => ?_⟩
        obtain rfl := makes_unique hmakes hq'
        exact ⟨fault, hwrite⟩
      · refine .inr ⟨rfl, q, hmakes, rfl, ?_⟩
        simp only [filesAfter, hwrite]
        rfl

end Execution

/-! ### Which files are read back -/

/-- **The text of a program is read back**, if it is, as the same blocks; and it is unless a path in
the program has more than 79 indices. -/
theorem Program.Reachable.ofText_text {p : Program} (hp : p.Reachable) :
    ((∃ q, Program.ofText p.text = .ok q) ↔
      ∀ path id, p.resolve path = .ok id → path.depth ≤ 79) ∧
    ∀ q, Program.ofText p.text = .ok q → q.toBlocks = p.toBlocks := by
  have hvalid := hp.allValid
  rw [← hp.depths_le_iff]
  rcases Nat.lt_or_ge 79 (depths p.toBlocks) with hdeep | hdepth
  · have hnone : Program.ofText p.text = .error .malformed :=
      Program.ofText_chars_of_deep hvalid hdeep
    rw [hnone]
    exact ⟨⟨nofun, fun h => absurd h (Nat.not_le_of_lt hdeep)⟩, nofun⟩
  · have hok : Program.ofText p.text = .ok (.ofBlocks p.toBlocks) :=
      Program.ofText_chars hvalid hdepth
    rw [hok]
    refine ⟨⟨fun _ => hdepth, fun _ => ⟨_, rfl⟩⟩, ?_⟩
    rintro q ⟨⟩
    exact Program.toBlocks_ofBlocks _

/-- **An edit keeps a program file readable within 79 levels.** A command that edits a file writes
nothing if the file is not read or the edit fails, and otherwise, if it reports success, the text of
the edited program; that text is read back, as the same blocks, just if no path in the edited program
has more than 79 indices. The same holds of every edit of a program that was read from a text. -/
theorem Execution.edited_file_read_back (files : FileTree) (noColor : Bool) (verbosity : ℕ)
    (file : String) (output : Option String) (request : EditRequest) :
    let e := ofInvocation files ⟨noColor, verbosity, .edit file output request⟩
    ((¬ ∃ q, request.Makes files file q) → e.code = 1) ∧
    (e.code ≠ 0 → e.written = none ∧ e.filesAfter files = files) ∧
    (e.code = 0 → ∃ q, request.Makes files file q ∧
      e.written = some (output.getD file, q.text) ∧
      files.write (output.getD file) q.text = .ok (e.filesAfter files) ∧
      ((∃ r, Program.ofText q.text = .ok r) ↔
        ∀ path id, q.resolve path = .ok id → path.depth ≤ 79) ∧
      ∀ r, Program.ofText q.text = .ok r → r.toBlocks = q.toBlocks) ∧
    ∀ (source : String) (p q : Program) (e : Edit), Program.ofText source = .ok p → e.Valid →
      p.apply e = .ok q →
      ((∃ r, Program.ofText q.text = .ok r) ↔
        ∀ path id, q.resolve path = .ok id → path.depth ≤ 79) ∧
      ∀ r, Program.ofText q.text = .ok r → r.toBlocks = q.toBlocks := by
  refine ⟨?_, ?_, ?_, fun source p q e hp he hq =>
    (Program.reachable_of_ofText hp he hq).ofText_text⟩
  all_goals
    rcases ofInvocation_edit files noColor verbosity file output request with
      ⟨hcode, hwritten, hafter, -⟩ | ⟨hcode, q, hmakes, hwritten, hafter⟩
  · exact fun _ => hcode
  · exact fun hnot => absurd ⟨q, hmakes⟩ hnot
  · exact fun _ => ⟨hwritten, hafter⟩
  · exact fun hnot => absurd hcode hnot
  · exact fun h0 => by rw [hcode] at h0; cases h0
  · exact fun _ => ⟨q, hmakes, hwritten, hafter, hmakes.reachable.ofText_text⟩

/-! ### A file that an edit spoils -/

/-- Repeats one inside the other, the innermost without children. -/
def tower : ℕ → List Block
  | 0 => []
  | n + 1 => [⟨.loop, .empty, tower n⟩]

theorem allValid_tower : ∀ n : ℕ, AllValid (tower n)
  | 0 => trivial
  | n + 1 =>
    ⟨Block.valid_iff.mpr ⟨(Block.valid_iff.mp (Block.valid_ofKind .loop)).1, nofun,
      allValid_tower n⟩, trivial⟩

theorem depths_tower (n : ℕ) : depths (tower n) = n := by
  induction n with
  | zero => rfl
  | succ n ih => rw [tower, Block.depths, Block.depth, Block.depths, ih, Nat.max_zero]

theorem insert_tower (n : ℕ) : Forest.apply (tower n)
    (.insert ⟨List.replicate n 0⟩ 0 (.ofKind .loop)) = .ok (tower (n + 1)) := by
  have hsiblings : ∀ (n : ℕ) (walked : Path),
      Forest.siblings walked (tower n) (List.replicate n 0) = .ok [] := by
    intro n
    induction n with
    | zero => exact fun _ => rfl
    | succ n ih => exact fun walked => ih (walked.child 0)
  have hgraft : Forest.graft (tower n) (List.replicate n 0) [.ofKind .loop] = tower (n + 1) := by
    induction n with
    | zero => rfl
    | succ n ih =>
      rw [tower, List.replicate_succ, Forest.graft, List.modify_cons, if_pos rfl, ih]
      rfl
  exact bind_eq_ok.mpr ⟨[], hsiblings n .root, bind_eq_ok.mpr
    ⟨[.ofKind .loop], rfl, congrArg Except.ok hgraft⟩⟩

theorem Program.text_eq {p : Program} {bs : List Block} (h : p.toBlocks = bs) :
    p.text = String.ofList (BlockFile.chars bs) := by
  rw [Program.text, h]

theorem Execution.edit_tower {n : ℕ} {source : String}
    (hsource : Program.ofText source = .ok (.ofBlocks (tower n))) :
    let e := ofInvocation (.directory [("tower.toml", .file (some source))])
      ⟨false, 0, .edit "tower.toml" none (.insert ⟨List.replicate n 0⟩ 0 .loop [])⟩
    e.code = 0 ∧ ∃ q : Program, e.written = some ("tower.toml", q.text) ∧
      q.toBlocks = tower (n + 1) := by
  have hreach : (Program.ofBlocks (tower n)).Reachable := .ofBlocks (allValid_tower n)
  obtain ⟨q, hq, hblocks⟩ := hreach.exists_apply
    ((Program.toBlocks_ofBlocks (tower n)).symm ▸ insert_tower n)
  have hmakes : EditRequest.Makes (.insert ⟨List.replicate n 0⟩ 0 .loop [])
      (.directory [("tower.toml", .file (some source))]) "tower.toml" q :=
    ⟨source, _, _, rfl, hsource, rfl, hq⟩
  rcases ofInvocation_edit (.directory [("tower.toml", .file (some source))]) false 0 "tower.toml"
    none (.insert ⟨List.replicate n 0⟩ 0 .loop []) with ⟨-, -, -, hfail⟩ | ⟨hcode, r, hr, hwritten, -⟩
  · obtain ⟨fault, hwrite⟩ := hfail q hmakes
    cases hwrite
  · obtain rfl := makes_unique hmakes hr
    exact ⟨hcode, q, hwritten, hblocks⟩

/-- Into a file of 79 repeats, one inside the other, one more is inserted at the bottom: the command
reports success, and what it writes is no program file. -/
theorem Execution.edit_spoils_tower :
    let source := (Program.ofBlocks (tower 79)).text
    let e := ofInvocation (.directory [("tower.toml", .file (some source))])
      ⟨false, 0, .edit "tower.toml" none (.insert ⟨List.replicate 79 0⟩ 0 .loop [])⟩
    (∃ p, Program.ofText source = .ok p) ∧ e.code = 0 ∧
      ∃ text, e.written = some ("tower.toml", text) ∧
        Program.ofText text = .error .malformed := by
  have hsource : Program.ofText (Program.ofBlocks (tower 79)).text =
      .ok (.ofBlocks (tower 79)) := by
    rw [Program.text_eq (Program.toBlocks_ofBlocks _)]
    exact Program.ofText_chars (allValid_tower 79) (depths_tower 79).le
  obtain ⟨hcode, q, hwritten, hblocks⟩ := Execution.edit_tower hsource
  refine ⟨⟨_, hsource⟩, hcode, q.text, hwritten, ?_⟩
  rw [Program.text_eq hblocks]
  exact Program.ofText_chars_of_deep (allValid_tower 80) (by rw [depths_tower]; decide)

end Choreo
