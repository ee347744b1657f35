import Choreo.Program.Basic
import Mathlib.Data.List.InsertIdx
import Mathlib.Data.List.Nodup
import Mathlib.Data.List.Perm.Subperm

/-! # Numbered trees

A numbered tree is a block together with the number of its node, and so on for the blocks below it.
A forest of such trees says what the slots of a program should hold: `nodesAll` lists the numbered
nodes with their links, in document order, and `block` forgets the numbers.

`label` gives a block the numbers that its nodes take when they fill the slots from some number on;
`nodes_label` says that the nodes are then the ones that the program stores. -/

namespace Choreo

/-- A block whose nodes have numbers. -/
inductive Tree where
  | node (id : NodeId) (kind : Kind) (settings : Settings) (children : List Tree)

namespace Tree

/-- The number of the topmost node. -/
def id : Tree → NodeId
  | node id _ _ _ => id

def kind : Tree → Kind
  | node _ kind _ _ => kind

def settings : Tree → Settings
  | node _ _ settings _ => settings

def children : Tree → List Tree
  | node _ _ _ children => children

/-- The tree with other trees below its topmost node. -/
def withChildren : Tree → List Tree → Tree
  | node id kind settings _, ts => node id kind settings ts

/-- The tree with other settings at its topmost node. -/
def withSettings : Tree → Settings → Tree
  | node id kind _ ts, settings => node id kind settings ts

@[simp] theorem id_withChildren (t : Tree) (ts : List Tree) : (t.withChildren ts).id = t.id := by
  cases t; rfl

@[simp] theorem id_withSettings (t : Tree) (s : Settings) : (t.withSettings s).id = t.id := by
  cases t; rfl

@[simp] theorem kind_withChildren (t : Tree) (ts : List Tree) :
    (t.withChildren ts).kind = t.kind := by
  cases t; rfl

@[simp] theorem settings_withChildren (t : Tree) (ts : List Tree) :
    (t.withChildren ts).settings = t.settings := by
  cases t; rfl

@[simp] theorem children_withChildren (t : Tree) (ts : List Tree) :
    (t.withChildren ts).children = ts := by
  cases t; rfl

@[simp] theorem withChildren_children (t : Tree) : t.withChildren t.children = t := by
  cases t; rfl

@[simp] theorem kind_withSettings (t : Tree) (s : Settings) :
    (t.withSettings s).kind = t.kind := by
  cases t; rfl

@[simp] theorem settings_withSettings (t : Tree) (s : Settings) :
    (t.withSettings s).settings = s := by
  cases t; rfl

@[simp] theorem children_withSettings (t : Tree) (s : Settings) :
    (t.withSettings s).children = t.children := by
  cases t; rfl

/-! ### The blocks -/

mutual

/-- The block without the numbers. -/
def block : Tree → Block
  | node _ kind settings children => ⟨kind, settings, blocks children⟩

/-- The blocks of a forest without the numbers. -/
def blocks : List Tree → List Block
  | [] => []
  | t :: ts => t.block :: blocks ts

end

theorem blocks_eq_map (ts : List Tree) : blocks ts = ts.map block := by
  induction ts with
  | nil => rfl
  | cons t ts ih => rw [blocks, ih, List.map_cons]

@[simp] theorem length_blocks (ts : List Tree) : (blocks ts).length = ts.length := by
  rw [blocks_eq_map, List.length_map]

@[simp] theorem getElem?_blocks (ts : List Tree) (i : Nat) :
    (blocks ts)[i]? = ts[i]?.map block := by
  rw [blocks_eq_map, List.getElem?_map]

theorem blocks_insertIdx (ts : List Tree) (i : Nat) (t : Tree) :
    blocks (ts.insertIdx i t) = (blocks ts).insertIdx i t.block := by
  rw [blocks_eq_map, blocks_eq_map, List.map_insertIdx]

theorem blocks_eraseIdx (ts : List Tree) (i : Nat) :
    blocks (ts.eraseIdx i) = (blocks ts).eraseIdx i := by
  rw [blocks_eq_map, blocks_eq_map, List.eraseIdx_map]

theorem blocks_set (ts : List Tree) (i : Nat) (t : Tree) :
    blocks (ts.set i t) = (blocks ts).set i t.block := by
  rw [blocks_eq_map, blocks_eq_map, List.map_set]

@[simp] theorem kind_block (t : Tree) : t.block.kind = t.kind := by
  cases t; rw [block]; rfl

@[simp] theorem settings_block (t : Tree) : t.block.settings = t.settings := by
  cases t; rw [block]; rfl

@[simp] theorem children_block (t : Tree) : t.block.children = blocks t.children := by
  cases t; rw [block]; rfl

@[simp] theorem block_withChildren (t : Tree) (ts : List Tree) :
    (t.withChildren ts).block = { t.block with children := blocks ts } := by
  cases t; simp [withChildren, block]

@[simp] theorem block_withSettings (t : Tree) (s : Settings) :
    (t.withSettings s).block = { t.block with settings := s } := by
  cases t; simp [withSettings, block]

/-! ### The nodes -/

mutual

/-- The numbered nodes of a tree that hangs below `parent`, in document order. -/
def nodes (parent : Option NodeId) : Tree → List (NodeId × Node)
  | node id kind settings children =>
    (id, ⟨kind, settings, parent, children.map Tree.id⟩) :: nodesAll (some id) children

/-- The numbered nodes of a forest that hangs below `parent`. -/
def nodesAll (parent : Option NodeId) : List Tree → List (NodeId × Node)
  | [] => []
  | t :: ts => t.nodes parent ++ nodesAll parent ts

end

theorem nodes_eq (parent : Option NodeId) (t : Tree) :
    t.nodes parent =
      (t.id, ⟨t.kind, t.settings, parent, t.children.map Tree.id⟩) ::
        nodesAll (some t.id) t.children := by
  cases t; rw [nodes]; rfl

@[simp] theorem nodesAll_nil (parent : Option NodeId) : nodesAll parent [] = [] := by rw [nodesAll]

@[simp] theorem nodesAll_cons (parent : Option NodeId) (t : Tree) (ts : List Tree) :
    nodesAll parent (t :: ts) = t.nodes parent ++ nodesAll parent ts := by rw [nodesAll]

@[simp] theorem nodesAll_append (parent : Option NodeId) (ts us : List Tree) :
    nodesAll parent (ts ++ us) = nodesAll parent ts ++ nodesAll parent us := by
  induction ts with
  | nil => simp
  | cons t ts ih => simp [ih]

theorem nodesAll_perm {ts us : List Tree} (h : ts.Perm us) (parent : Option NodeId) :
    (nodesAll parent ts).Perm (nodesAll parent us) := by
  induction h with
  | nil => exact List.Perm.refl _
  | cons t _ ih =>
    rw [nodesAll_cons, nodesAll_cons]
    exact ih.append_left _
  | swap t u ts =>
    simp only [nodesAll_cons, ← List.append_assoc]
    exact List.perm_append_comm.append_right _
  | trans _ _ ih1 ih2 => exact ih1.trans ih2

theorem nodesAll_perm_eraseIdx {ts : List Tree} {i : Nat} {t : Tree} (h : ts[i]? = some t)
    (parent : Option NodeId) :
    (nodesAll parent ts).Perm (nodesAll parent (ts.eraseIdx i) ++ t.nodes parent) := by
  obtain ⟨hi, rfl⟩ := List.getElem?_eq_some_iff.mp h
  have h1 := nodesAll_perm (List.getElem_cons_eraseIdx_perm hi).symm parent
  rw [nodesAll_cons] at h1
  exact h1.trans List.perm_append_comm

theorem mem_nodes_self (parent : Option NodeId) (t : Tree) :
    (t.id, ⟨t.kind, t.settings, parent, t.children.map Tree.id⟩) ∈ t.nodes parent := by
  rw [nodes_eq]; exact List.mem_cons_self

theorem nodes_subset_nodesAll {t : Tree} {ts : List Tree} (h : t ∈ ts) (parent : Option NodeId) :
    t.nodes parent ⊆ nodesAll parent ts := by
  obtain ⟨us, vs, rfl⟩ := List.append_of_mem h
  intro e he
  simp [he]

mutual

theorem parent_mem_nodes (parent : Option NodeId) : ∀ (t : Tree) {id : NodeId} {n : Node},
    (id, n) ∈ t.nodes parent → ∀ {up : NodeId}, n.parent = some up →
      parent = some up ∨ up ∈ (t.nodes parent).map Prod.fst
  | node root kind settings children, id, n, h, up, hup => by
    rw [nodes, List.mem_cons] at h
    rw [nodes, List.map_cons, List.mem_cons]
    rcases h with h | h
    · cases h
      exact Or.inl hup
    · rcases parent_mem_nodesAll (some root) children h hup with h1 | h1
      · exact Or.inr (Or.inl (Option.some.inj h1).symm)
      · exact Or.inr (Or.inr h1)

theorem parent_mem_nodesAll (parent : Option NodeId) : ∀ (ts : List Tree) {id : NodeId} {n : Node},
    (id, n) ∈ nodesAll parent ts → ∀ {up : NodeId}, n.parent = some up →
      parent = some up ∨ up ∈ (nodesAll parent ts).map Prod.fst
  | [], _, _, h, _, _ => by simp at h
  | t :: ts, id, n, h, up, hup => by
    rw [nodesAll_cons, List.mem_append] at h
    rw [nodesAll_cons, List.map_append, List.mem_append]
    rcases h with h | h
    · rcases parent_mem_nodes parent t h hup with h1 | h1
      · exact Or.inl h1
      · exact Or.inr (Or.inl h1)
    · rcases parent_mem_nodesAll parent ts h hup with h1 | h1
      · exact Or.inl h1
      · exact Or.inr (Or.inr h1)

end

/-! ### Numbering blocks -/

mutual

/-- The block with the numbers that its nodes take from `start` on. -/
def label (start : NodeId) : Block → Tree
  | ⟨kind, settings, children⟩ => node start kind settings (labelAll (start + 1) children)

/-- The blocks of a list with the numbers that their nodes take from `start` on. -/
def labelAll (start : NodeId) : List Block → List Tree
  | [] => []
  | b :: rest => label start b :: labelAll (start + b.size) rest

end

@[simp] theorem id_label (start : NodeId) (b : Block) : (label start b).id = start := by
  cases b; rw [label]; rfl

theorem map_id_labelAll (start : NodeId) (bs : List Block) :
    (labelAll start bs).map Tree.id = Program.idsFrom start bs := by
  induction bs generalizing start with
  | nil => rw [labelAll, Program.idsFrom, List.map_nil]
  | cons b rest ih => rw [labelAll, Program.idsFrom, List.map_cons, id_label, ih]

mutual

@[simp] theorem block_label (start : NodeId) : ∀ b : Block, (label start b).block = b
  | ⟨kind, settings, children⟩ => by rw [label, block, blocks_labelAll]

@[simp] theorem blocks_labelAll (start : NodeId) : ∀ bs : List Block,
    blocks (labelAll start bs) = bs
  | [] => by rw [labelAll, blocks]
  | b :: rest => by rw [labelAll, blocks, block_label start b, blocks_labelAll _ rest]

end

mutual

theorem length_nodesOf (parent : Option NodeId) (start : NodeId) : ∀ b : Block,
    (Program.nodesOf parent start b).length = b.size
  | ⟨kind, settings, children⟩ => by
    rw [Program.nodesOf, Block.size, List.length_cons, length_nodesOfAll]

theorem length_nodesOfAll (parent : Option NodeId) (start : NodeId) : ∀ bs : List Block,
    (Program.nodesOfAll parent start bs).length = Block.sizes bs
  | [] => by rw [Program.nodesOfAll, Block.sizes]; rfl
  | b :: rest => by
    rw [Program.nodesOfAll, Block.sizes, List.length_append, length_nodesOf _ _ b,
      length_nodesOfAll _ _ rest]

end

mutual

/-- The nodes of a numbered block are the stored ones, one after the other from `start` on. -/
theorem nodes_label (parent : Option NodeId) (start : NodeId) : ∀ b : Block,
    (label start b).nodes parent =
      ((Program.nodesOf parent start b).zipIdx start).map Prod.swap
  | ⟨kind, settings, children⟩ => by
    rw [label, nodes, Program.nodesOf, List.zipIdx_cons, List.map_cons, map_id_labelAll,
      nodesAll_labelAll (some start) (start + 1) children]
    rfl

theorem nodesAll_labelAll (parent : Option NodeId) (start : NodeId) : ∀ bs : List Block,
    nodesAll parent (labelAll start bs) =
      ((Program.nodesOfAll parent start bs).zipIdx start).map Prod.swap
  | [] => by rw [labelAll, nodesAll, Program.nodesOfAll]; rfl
  | b :: rest => by
    rw [labelAll, nodesAll, Program.nodesOfAll, List.zipIdx_append, List.map_append,
      nodes_label parent start b, nodesAll_labelAll parent (start + b.size) rest, length_nodesOf]

end

end Tree

end Choreo
