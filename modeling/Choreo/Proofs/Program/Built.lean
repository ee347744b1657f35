import Choreo.Proofs.Program.RoundTrip
import Choreo.Proofs.Program.Walk

/-! # What the operations build

Blocks come from kinds, values and other blocks, from files, and out of programs; programs come from
blocks, from files, and from edits of programs with such blocks. `Block.Built` and `Program.Built`
say so, constructor by constructor, and ask nothing of the values. Whatever is built is valid
(`Block.Built.valid`): a value is clamped wherever one comes in, and a program gives back only
blocks that went into it or that edits made there. -/

namespace Choreo

/-- The blocks that an edit brings in. -/
def Edit.blocks : Edit → List Block
  | .insert _ _ block => [block]
  | .replace blocks => blocks
  | _ => []

mutual

/-- The blocks that the operations build. -/
inductive Block.Built : Block → Prop where
  | ofKind (kind : Kind) : (Block.ofKind kind).Built
  | set {b c : Block} {p : Param} {x : Float} (block : b.Built) (set : b.set p x = .ok c) : c.Built
  | push {b child c : Block} (block : b.Built) (below : child.Built) (push : b.push child = .ok c) :
    c.Built
  | ofLoop {times : Float} {children : List Block} {b : Block} (below : ∀ c ∈ children, c.Built)
    (loop : Block.ofLoop times children = .ok b) : b.Built
  | child {b c : Block} (block : b.Built) (child : c ∈ b.children) : c.Built
  | toBlocks {p : Program} {b : Block} (program : p.Built) (root : b ∈ p.toBlocks) : b.Built
  | blockAt {p : Program} {path : Path} {b : Block} (program : p.Built)
    (found : p.blockAt path = .ok b) : b.Built
  | subtree {p : Program} {id : NodeId} {b : Block} (program : p.Built)
    (found : p.subtree? id = some b) : b.Built

/-- The programs that the operations build. -/
inductive Program.Built : Program → Prop where
  | ofBlocks {blocks : List Block} (built : ∀ b ∈ blocks, b.Built) : (Program.ofBlocks blocks).Built
  | ofText {source : String} {p : Program} (read : Program.ofText source = .ok p) : p.Built
  | apply {p q : Program} {e : Edit} (program : p.Built) (built : ∀ b ∈ e.blocks, b.Built)
    (edit : p.apply e = .ok q) : q.Built

end

theorem Edit.valid_iff {e : Edit} : e.Valid ↔ Block.AllValid e.blocks := by
  cases e <;> simp [Edit.Valid, Edit.blocks, Block.AllValid]

namespace Block

theorem Valid.foldlM_push {children : List Block} {b c : Block} (hb : b.Valid)
    (hchildren : AllValid children) (h : children.foldlM Block.push b = .ok c) : c.Valid := by
  induction children generalizing b with
  | nil =>
    cases h
    exact hb
  | cons child rest ih =>
    rw [AllValid] at hchildren
    rw [List.foldlM_cons] at h
    obtain ⟨d, hd, h⟩ := bind_eq_ok.mp h
    exact ih (hb.push hchildren.1 hd) hchildren.2 h

theorem valid_of_ofLoop {times : Float} {children : List Block} {b : Block}
    (hchildren : AllValid children) (h : ofLoop times children = .ok b) : b.Valid := by
  obtain ⟨c, hc, h⟩ := bind_eq_ok.mp h
  exact ((valid_ofKind .loop).set hc).foldlM_push hchildren h

end Block

namespace Program

variable {p : Program}

theorem Reachable.blockAt_valid (hp : p.Reachable) {path : Path} {b : Block}
    (h : p.blockAt path = .ok b) : b.Valid := by
  obtain ⟨ts, hts⟩ := hp.stores
  obtain ⟨id, hid, -⟩ := bind_eq_ok.mp h
  obtain ⟨parent, i, cs, c, -, hcs, hi, -, hc⟩ := hts.blockAt hid
  obtain rfl : c = b := Except.ok.inj (hc.symm.trans h)
  exact Block.allValid_iff.mp (Forest.siblings_valid hp.allValid hcs) _ (List.mem_of_getElem? hi)

theorem Reachable.exists_blockAt (hp : p.Reachable) {id : NodeId} (h : p.InUse id) :
    ∃ path b, p.resolve path = .ok id ∧ p.subtree? id = some b ∧ p.blockAt path = .ok b := by
  obtain ⟨ts, hts⟩ := hp.stores
  obtain ⟨⟨path, id⟩, hwalk, rfl⟩ := List.mem_map.mp ((hp.walk_lists_once.2 id).mpr h)
  have hid := hp.mem_walk_iff.mp hwalk
  obtain ⟨-, -, -, b, -, -, -, hsubtree, hb⟩ := hts.blockAt hid
  exact ⟨path, b, hid, hsubtree, hb⟩

theorem inUse_of_subtree? {id : NodeId} {b : Block} (h : p.subtree? id = some b) : p.InUse id := by
  rw [subtree?] at h
  rcases hsize : p.slots.size with _ | size
  · rw [hsize] at h
    cases h
  · rw [hsize, blockWithin] at h
    obtain ⟨n, hn, -⟩ := Option.map_eq_some_iff.mp h
    exact ⟨n, hn⟩

theorem Reachable.subtree?_valid (hp : p.Reachable) {id : NodeId} {b : Block}
    (h : p.subtree? id = some b) : b.Valid := by
  obtain ⟨path, c, -, hc, hblock⟩ := hp.exists_blockAt (inUse_of_subtree? h)
  obtain rfl : c = b := Option.some.inj (hc.symm.trans h)
  exact hp.blockAt_valid hblock

end Program

mutual

/-- **Built blocks are valid.** -/
theorem Block.Built.valid : ∀ {b : Block}, b.Built → b.Valid
  | _, .ofKind kind => Block.valid_ofKind kind
  | _, .set block set => block.valid.set set
  | _, .push block below push => block.valid.push below.valid push
  | _, .ofLoop below loop =>
    Block.valid_of_ofLoop (Block.allValid_iff.mpr fun c hc => (below c hc).valid) loop
  | _, .child block child => Block.allValid_iff.mp (Block.valid_iff.mp block.valid).2.2 _ child
  | _, .toBlocks program root => Block.allValid_iff.mp program.reachable.allValid _ root
  | _, .blockAt program found => program.reachable.blockAt_valid found
  | _, .subtree program found => program.reachable.subtree?_valid found

/-- **Built programs are ones that edits lead to.** -/
theorem Program.Built.reachable : ∀ {p : Program}, p.Built → p.Reachable
  | _, .ofBlocks built => .ofBlocks (Block.allValid_iff.mpr fun b hb => (built b hb).valid)
  | _, .ofText read => Program.ofText_reachable read
  | _, .apply program built edit => program.reachable.apply
      (Edit.valid_iff.mpr (Block.allValid_iff.mpr fun b hb => (built b hb).valid)) edit

end

end Choreo
