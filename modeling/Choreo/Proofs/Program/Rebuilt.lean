import Choreo.Proofs.Program.Ancestors
import Choreo.Proofs.Program.Built

/-! # Programs built anew

What a program answers is told by its blocks. `Forest.find` says which block stands at a path and
`Block.walkAll` at which paths there are blocks; a program that stores a forest answers as they do,
whatever the numbers of its nodes are and however many of its slots are empty. So a program built
anew from the blocks of another one answers as that one does (`Stores.answersAlike`).

The numbers of a program that is built from blocks count the blocks in document order
(`map_snd_walk_ofBlocks`), since each node is stored before the nodes below it and these before the
next sibling. -/

namespace Choreo

/-! ### Blocks with their paths -/

namespace Block

mutual

/-- A block that stands at `here` and the blocks below it with their paths, in document order. -/
def walk (here : Path) : Block → List (Path × Block)
  | ⟨kind, settings, children⟩ => (here, ⟨kind, settings, children⟩) :: walkAll here 0 children

/-- The blocks that are what the list at `parent` holds from `index` on, and those below them, with
their paths. -/
def walkAll (parent : Path) (index : Nat) : List Block → List (Path × Block)
  | [] => []
  | b :: rest => b.walk (parent.child index) ++ walkAll parent (index + 1) rest

end

mutual

theorem map_snd_walk (here : Path) : ∀ b : Block, (b.walk here).map Prod.snd = b.row
  | ⟨kind, settings, children⟩ => by
    rw [walk, row, List.map_cons, map_snd_walkAll here 0 children]

theorem map_snd_walkAll (parent : Path) (index : Nat) : ∀ bs : List Block,
    (walkAll parent index bs).map Prod.snd = rows bs
  | [] => by rw [walkAll, rows, List.map_nil]
  | b :: rest => by
    rw [walkAll, rows, List.map_append, map_snd_walk _ b, map_snd_walkAll parent (index + 1) rest]

end

mutual

theorem length_row : ∀ b : Block, b.row.length = b.size
  | ⟨kind, settings, children⟩ => by
    rw [row, size, List.length_cons, length_rows children]

theorem length_rows : ∀ bs : List Block, (rows bs).length = sizes bs
  | [] => by rw [rows, sizes, List.length_nil]
  | b :: rest => by rw [rows, sizes, List.length_append, length_row b, length_rows rest]

end

end Block

/-- The block at a path. -/
def Forest.find (bs : List Block) (path : Path) : Except EditError Block :=
  match path.split? with
  | none => .error (.invalidTarget .root)
  | some (parent, i) => do
    let cs ← siblings .root bs parent.indices
    pick parent cs i

/-- The program whose root blocks are `blocks`, which are stored one after the other. -/
def Access.ofBlocks (blocks : List Block) : Attempt Program :=
  blocks.foldlM (fun q b => do
    let (q, id) ← alloc q none b
    return { q with roots := q.roots ++ [id] }) Program.empty

/-- **Storing the blocks one after the other** gives the program that holds them: no write of a
child list fails, and none is lost. -/
theorem Access.ofBlocks_eq (bs : List Block) : ofBlocks bs = pure (Program.ofBlocks bs) := by
  rw [ofBlocks, foldlM_alloc, Program.ofBlocks]
  simp [Program.empty]

namespace Program

open Choreo.Tree (nodesAll nodesAll_cons walkAll blocks locate)

variable {p q : Program} {ts : List Tree} {path : Path} {r : Except EditError Block}

/-! ### What is at a path -/

/-- What the path leads to in the program: the node of a block, or nowhere. -/
inductive Shows (p : Program) (path : Path) : Except EditError Block → Prop where
  | found {id : NodeId} {n : Node} {b : Block} (resolve : p.resolve path = .ok id)
    (node : p.node? id = some n) (kind : n.kind = b.kind) (settings : n.settings = b.settings)
    (children : n.children.length = b.children.length) (subtree : p.subtree? id = some b) :
    Shows p path (.ok b)
  | refused {e : EditError} (resolve : p.resolve path = .error e) : Shows p path (.error e)

/-- **A path leads through a program as through the nested list of its blocks.** -/
theorem Stores.shows (h : p.Stores ts []) (path : Path) :
    p.Shows path (Forest.find p.toBlocks path) := by
  rw [Forest.find, h.toBlocks]
  rcases hp : path.split? with _ | ⟨parent, i⟩
  · rw [split?_eq_none_iff.mp hp]
    exact .refused (resolve_root p)
  · have hresolve := h.resolve hp
    simp only
    rw [Tree.siblings_blocks .root none]
    rcases hl : locate .root none ts parent.indices with e | ⟨owner, cs⟩
    · rw [hl] at hresolve
      exact .refused hresolve
    · rw [hl] at hresolve
      simp only [Except.map, bind, Except.bind] at hresolve ⊢
      rw [Tree.pick_blocks]
      rcases ht : cs[i]? with _ | t
      · rw [Tree.pick, ht] at hresolve ⊢
        exact .refused hresolve
      · rw [Tree.pick_eq_ok_iff.mpr ht] at hresolve ⊢
        refine .found hresolve (h.node_of_locate hl ht) (Tree.kind_block t).symm
          (Tree.settings_block t).symm ?_ (h.blockAt_of_locate hl ht).1
        rw [List.length_map, Tree.children_block, Tree.length_blocks]

theorem Shows.blockAt (h : p.Shows path r) : p.blockAt path = r := by
  rw [Program.blockAt]
  cases h with
  | found resolve _ _ _ _ subtree =>
    rw [resolve]
    simp only [bind, Except.bind, subtree]
    rfl
  | refused resolve =>
    rw [resolve]
    rfl

/-- What the path leads to in both programs: nodes of one kind with the same parameters, or nowhere
for the same reason. -/
inductive Agree (p q : Program) (path : Path) : Prop where
  | found {x y : NodeId} {n m : Node} (left : p.resolve path = .ok x)
    (right : q.resolve path = .ok y) (leftNode : p.node? x = some n)
    (rightNode : q.node? y = some m) (kind : n.kind = m.kind)
    (settings : n.settings = m.settings) (children : n.children.length = m.children.length)
  | refused {e : EditError} (left : p.resolve path = .error e) (right : q.resolve path = .error e)

theorem Shows.agree (hp : p.Shows path r) (hq : q.Shows path r) : p.Agree q path := by
  cases hp with
  | found hx hn hkind hsettings hchildren _ =>
    cases hq with
    | found hy hm hkind' hsettings' hchildren' _ =>
      exact .found hx hy hn hm (hkind.trans hkind'.symm) (hsettings.trans hsettings'.symm)
        (hchildren.trans hchildren'.symm)
  | refused hx =>
    cases hq with
    | refused hy => exact .refused hx hy

/-! ### Walks -/

mutual

theorem map_walk_tree (owner : Option NodeId) : ∀ (t : Tree) (here : Path),
    (t.nodes owner).length ≤ p.slots.size → (∀ e ∈ t.nodes owner, p.node? e.1 = some e.2) →
    (t.walk here).map (fun e => (e.1, p.subtree? e.2)) =
      (t.block.walk here).map fun e => (e.1, some e.2)
  | .node id kind settings children, here, hlength, hheld => by
    have hself : p.subtree? id = some ⟨kind, settings, blocks children⟩ := by
      rw [subtree?, ← Tree.block]
      exact blockWithin_tree owner (.node id kind settings children) _ hlength hheld
    rw [Tree.nodes] at hlength hheld
    rw [List.length_cons] at hlength
    have hbelow := map_walk_forest (some id) children here 0 (by omega)
      fun e he => hheld e (List.mem_cons_of_mem _ he)
    rw [Tree.walk, Tree.block, Block.walk, List.map_cons, List.map_cons, hself, hbelow]

theorem map_walk_forest (owner : Option NodeId) : ∀ (ts : List Tree) (parent : Path) (index : Nat),
    (nodesAll owner ts).length ≤ p.slots.size → (∀ e ∈ nodesAll owner ts, p.node? e.1 = some e.2) →
    (walkAll parent index ts).map (fun e => (e.1, p.subtree? e.2)) =
      (Block.walkAll parent index (blocks ts)).map fun e => (e.1, some e.2)
  | [], _, _, _, _ => by rw [walkAll, blocks, Block.walkAll, List.map_nil, List.map_nil]
  | t :: ts, parent, index, hlength, hheld => by
    rw [nodesAll_cons] at hlength hheld
    rw [List.length_append] at hlength
    have hfirst := map_walk_tree owner t (parent.child index) (by omega)
      fun e he => hheld e (List.mem_append_left _ he)
    have hrest := map_walk_forest owner ts parent (index + 1) (by omega)
      fun e he => hheld e (List.mem_append_right _ he)
    rw [Tree.walkAll_cons, blocks, Block.walkAll, List.map_append, List.map_append, hfirst, hrest]

end

/-- **The walk comes by the blocks of the program** with their paths. -/
theorem Stores.map_walk (h : p.Stores ts []) : p.walk.map (fun e => (e.1, p.subtree? e.2)) =
    (Block.walkAll .root 0 p.toBlocks).map fun e => (e.1, some e.2) := by
  rw [h.walk, h.toBlocks]
  exact map_walk_forest none ts .root 0 h.length_le h.held

theorem Stores.map_subtree?_walk (h : p.Stores ts []) :
    (p.walk.map Prod.snd).map p.subtree? = (Block.rows p.toBlocks).map some := by
  have hblocks := congrArg (List.map Prod.snd) h.map_walk
  rw [List.map_map, List.map_map] at hblocks
  rw [← Block.map_snd_walkAll .root 0, List.map_map, List.map_map]
  exact hblocks

/-! ### Edits one after the other -/

/-- **A row of edits is one of edits of the nested list.** -/
theorem Stores.foldlM_apply (h : p.Stores ts []) (es : List Edit) :
    (es.foldlM Program.apply p).map Program.toBlocks = es.foldlM Forest.apply p.toBlocks := by
  induction es generalizing p ts with
  | nil => rfl
  | cons e es ih =>
    have hfollows := h.apply_follows e
    rw [List.foldlM_cons, List.foldlM_cons, h.toBlocks]
    rcases hr : Forest.apply (blocks ts) e with err | bs
    · rw [hr, Follows] at hfollows
      rw [hfollows]
      rfl
    · rw [hr] at hfollows
      obtain ⟨us, ⟨q, hq, hus, -⟩, rfl⟩ := hfollows
      rw [hq, ← hus.toBlocks]
      exact ih hus

/-! ### Programs with the same blocks -/

/-- Nobody who goes by paths can tell the programs apart. -/
structure AnswersAlike (p q : Program) : Prop where
  resolve : ∀ path, p.Agree q path
  blockAt : ∀ path, p.blockAt path = q.blockAt path
  /-- The same places are passed in the same order, and the same blocks stand there. -/
  walk : (p.walk.map fun e => (e.1, p.subtree? e.2)) = q.walk.map fun e => (e.1, q.subtree? e.2)
  isWithin : ∀ {a b : Path} {x y x' y' : NodeId}, p.resolve a = .ok x → p.resolve b = .ok y →
    q.resolve a = .ok x' → q.resolve b = .ok y' → p.isWithin x y = q.isWithin x' y'
  nodeCount : p.nodeCount = q.nodeCount
  leafCount : p.leafCount = q.leafCount
  rootCount : p.rootCount = q.rootCount
  /-- Edits one after the other lead to the same blocks, or one fails with the same error. -/
  edits : ∀ es : List Edit, (es.foldlM Program.apply p).map Program.toBlocks =
    (es.foldlM Program.apply q).map Program.toBlocks

theorem Stores.rootCount_eq (h : p.Stores ts []) : p.rootCount = p.toBlocks.length := by
  rw [rootCount, h.roots, h.toBlocks, List.length_map, Tree.length_blocks]

/-- **Programs with the same blocks answer alike.** -/
theorem Reachable.answersAlike (hp : p.Reachable) (hq : q.Reachable)
    (h : p.toBlocks = q.toBlocks) : p.AnswersAlike q := by
  obtain ⟨ts, hts⟩ := hp.stores
  obtain ⟨us, hus⟩ := hq.stores
  have hshows : ∀ path, p.Shows path (Forest.find q.toBlocks path) := fun path =>
    h ▸ hts.shows path
  exact {
    resolve := fun path => (hshows path).agree (hus.shows path)
    blockAt := fun path => (hshows path).blockAt.trans (hus.shows path).blockAt.symm
    walk := by rw [hts.map_walk, hus.map_walk, h]
    isWithin := fun hx hy hx' hy' => by
      rw [Bool.eq_iff_iff, hp.isWithin_iff hx hy, hq.isWithin_iff hx' hy']
    nodeCount := by rw [hts.nodeCount_eq, hus.nodeCount_eq, h]
    leafCount := by rw [hts.leafCount_eq, hus.leafCount_eq, h]
    rootCount := by rw [hts.rootCount_eq, hus.rootCount_eq, h]
    edits := fun es => by rw [hts.foldlM_apply, hus.foldlM_apply, h] }

/-! ### Numbers in document order -/

theorem size_slots_ofBlocks (bs : List Block) : (ofBlocks bs).slots.size = Block.sizes bs := by
  rw [ofBlocks, List.size_toArray, List.length_map, Tree.length_nodesOfAll]

/-- **The numbers count the blocks in document order.** -/
theorem map_snd_walk_ofBlocks (bs : List Block) :
    (ofBlocks bs).walk.map Prod.snd = List.range (Block.sizes bs) := by
  rw [(stores_ofBlocks bs).map_snd_walk, Tree.nodesAll_labelAll, List.map_map,
    show Prod.fst ∘ Prod.swap = (Prod.snd : Node × NodeId → NodeId) from rfl, List.zipIdx_map_snd,
    Tree.length_nodesOfAll, List.range_eq_range']

/-- A number is that of the block that comes at its place in document order; there are no others. -/
theorem subtree?_ofBlocks (bs : List Block) (id : NodeId) :
    (ofBlocks bs).subtree? id = (Block.rows bs)[id]? := by
  rcases Nat.lt_or_ge id (Block.sizes bs) with hlt | hge
  · have hwalk := congrArg (·[id]?) (stores_ofBlocks bs).map_subtree?_walk
    simp only [map_snd_walk_ofBlocks, toBlocks_ofBlocks, List.getElem?_map,
      List.getElem?_range hlt, Option.map_some] at hwalk
    rcases hrow : (Block.rows bs)[id]? with _ | b
    · rw [hrow] at hwalk
      cases hwalk
    · rw [hrow] at hwalk
      exact Option.some.inj hwalk
  · rw [List.getElem?_eq_none (by rwa [Block.length_rows]), Option.eq_none_iff_forall_ne_some]
    intro b hb
    have hused := (inUse_of_subtree? hb).lt_size
    rw [size_slots_ofBlocks] at hused
    exact absurd hused (Nat.not_lt.mpr hge)

/-- **Programs and their blocks.** Building a program from blocks stores every node before the nodes
below it and fills in the lists afterwards; none of this fails. The program reads back as the
blocks, its walk passes the numbers from zero on without a gap, each that of the block at this place
in document order, and there are as many nodes as blocks.

A program that edits lead to equals the one built from its blocks, however many of its own slots are
empty, and answers alike: a path leads in both to nodes of one kind with the same parameters or
fails in both with the same error, walks pass the same places, counts are the same, and edits one
after the other lead to the same blocks or fail with the same error. -/
theorem rebuilt_programs_answer_alike :
    (∀ bs, (Access.ofBlocks bs).run = some (.ok (ofBlocks bs)) ∧ (ofBlocks bs).toBlocks = bs ∧
      (ofBlocks bs).walk.map Prod.snd = List.range (Block.sizes bs) ∧
      (∀ id, (ofBlocks bs).subtree? id = (Block.rows bs)[id]?) ∧
      (ofBlocks bs).nodeCount = Block.sizes bs) ∧
    ∀ p, p.Reachable →
      (ofBlocks p.toBlocks).same p = true ∧ (ofBlocks p.toBlocks).AnswersAlike p := by
  refine ⟨fun bs => ⟨?_, toBlocks_ofBlocks bs, map_snd_walk_ofBlocks bs, subtree?_ofBlocks bs, ?_⟩,
    fun p hp => ?_⟩
  · rw [Access.ofBlocks_eq]
    rfl
  · rw [(stores_ofBlocks bs).nodeCount_eq, toBlocks_ofBlocks, Block.length_rows]
  · have hblocks := toBlocks_ofBlocks p.toBlocks
    exact ⟨decide_eq_true hblocks, (Reachable.ofBlocks hp.allValid).answersAlike hp hblocks⟩

/-- Once the wave is removed its slot is empty. Built anew, the program has no such slot, and the
loop and the pause have other numbers. -/
theorem rebuilt_without_wave :
    ∃ p : Program, p.Reachable ∧ p.slots.size = 3 ∧ p.nodeCount = 2 ∧
      (ofBlocks p.toBlocks).walk.map Prod.snd = [0, 1] ∧
      p.resolve ⟨[0, 0]⟩ = .ok 2 ∧ (ofBlocks p.toBlocks).resolve ⟨[0, 0]⟩ = .ok 1 ∧
      (ofBlocks p.toBlocks).same p = true ∧ (ofBlocks p.toBlocks).AnswersAlike p := by
  have hstart : (ofBlocks [.ofKind .wave, ⟨.loop, .empty, [.ofKind .pause]⟩]).Reachable :=
    Reachable.ofBlocks (by simp [Block.AllValid, Block.Valid, Block.ofKind, Kind.isContainer])
  have hp := hstart.apply (e := .remove .root 0) trivial rfl
  obtain ⟨hbuilt, hrebuilt⟩ := rebuilt_programs_answer_alike
  obtain ⟨-, -, hwalk, -, -⟩ := hbuilt [⟨.loop, .empty, [.ofKind .pause]⟩]
  obtain ⟨hsame, halike⟩ := hrebuilt _ hp
  exact ⟨_, hp, rfl, rfl, hwalk, rfl, rfl, hsame, halike⟩

end Program

end Choreo
