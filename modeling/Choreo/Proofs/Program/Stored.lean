import Choreo.Proofs.Program.Layout
import Choreo.Proofs.Program.Position

/-! # Programs that store a forest

A program stores a forest of numbered trees if its root list names the topmost nodes and its slots
hold the nodes of the forest and no others, apart from some loose ones while an edit is under way.

Such a program reads back as the blocks of the forest (`Stores.toBlocks`), and paths lead through it
as they do through the forest: `Stores.resolveParent` finds what `Tree.locate` finds and
`Stores.resolve` what `Tree.pick` picks from that, with the same errors. -/

namespace Choreo.Program

open Choreo.Tree (nodesAll nodesAll_cons blocks)

/-- The program stores the forest `ts`, and its slots hold the loose nodes besides. -/
structure Stores (p : Program) (ts : List Tree) (loose : List (NodeId × Node)) : Prop where
  roots : p.roots = ts.map Tree.id
  layout : p.Layout (nodesAll none ts ++ loose)

variable {p : Program} {ts cs : List Tree} {loose : List (NodeId × Node)}

/-! ### Reading the forest -/

mutual

theorem blockWithin_tree (parent : Option NodeId) : ∀ (t : Tree) (fuel : Nat),
    (t.nodes parent).length ≤ fuel → (∀ e ∈ t.nodes parent, p.node? e.1 = some e.2) →
    p.blockWithin fuel t.id = some t.block
  | .node id kind settings children, fuel, hfuel, hheld => by
    rw [Tree.nodes] at hfuel hheld
    rw [List.length_cons] at hfuel
    obtain ⟨fuel, rfl⟩ : ∃ k, fuel = k + 1 := ⟨fuel - 1, by omega⟩
    have hroot := hheld _ List.mem_cons_self
    have hbelow := blockWithin_forest (some id) children fuel (by omega)
      fun e he => hheld e (List.mem_cons_of_mem _ he)
    rw [Tree.id, blockWithin, hroot, Option.map_some, hbelow, Tree.block]

theorem blockWithin_forest (parent : Option NodeId) : ∀ (ts : List Tree) (fuel : Nat),
    (nodesAll parent ts).length ≤ fuel → (∀ e ∈ nodesAll parent ts, p.node? e.1 = some e.2) →
    (ts.map Tree.id).filterMap (p.blockWithin fuel) = blocks ts
  | [], _, _, _ => by rw [Tree.blocks]; rfl
  | t :: ts, fuel, hfuel, hheld => by
    rw [nodesAll_cons] at hfuel hheld
    rw [List.length_append] at hfuel
    have hfirst := blockWithin_tree parent t fuel (by omega)
      fun e he => hheld e (List.mem_append_left _ he)
    have hrest := blockWithin_forest parent ts fuel (by omega)
      fun e he => hheld e (List.mem_append_right _ he)
    rw [List.map_cons, List.filterMap_cons_some hfirst, hrest, Tree.blocks]

end

theorem Stores.held (h : p.Stores ts loose) : ∀ e ∈ nodesAll none ts, p.node? e.1 = some e.2 :=
  fun _ he => h.layout.node? (List.mem_append_left _ he)

theorem Stores.length_le (h : p.Stores ts loose) : (nodesAll none ts).length ≤ p.slots.size := by
  have h1 := h.layout.length_le
  rw [List.length_append] at h1
  omega

/-- **A stored forest reads back as its blocks.** -/
theorem Stores.toBlocks (h : p.Stores ts loose) : p.toBlocks = blocks ts := by
  unfold Program.toBlocks
  rw [h.roots]
  exact blockWithin_forest none ts _ h.length_le h.held

/-! ### Sibling lists -/

/-- The list that `owner` has in the program: the root list, or the children of a container. -/
def Owns (p : Program) : (owner : Option NodeId) → List Tree → Prop
  | none, ts => p.roots = ts.map Tree.id
  | some id, ts =>
    ∃ n, p.node? id = some n ∧ n.kind.isContainer = true ∧ n.children = ts.map Tree.id

theorem Owns.siblings {owner : Option NodeId} (h : p.Owns owner ts) :
    p.siblings owner = .ok (ts.map Tree.id) := by
  cases owner with
  | none => rw [Program.siblings, show p.roots = ts.map Tree.id from h]
  | some id =>
    obtain ⟨n, hn, -, hc⟩ := h
    rw [Program.siblings, node, hn, ← hc]
    rfl

theorem Owns.descend_cons {owner : Option NodeId} (h : p.Owns owner ts) (walked : Path) (i : Nat)
    (rest : List Nat) : p.descend walked owner (i :: rest) = (do
      let t ← Tree.pick walked ts i
      p.descend (walked.child i) (some t.id) rest) := by
  have hs := h.siblings
  unfold Tree.pick
  cases owner with
  | none =>
    rw [descend, hs]
    · simp only [bind, Except.bind, List.getElem?_map, List.length_map]
      rcases ts[i]? with _ | t <;> rfl
    · nofun
  | some id =>
    obtain ⟨n, hn, hc, -⟩ := h
    rw [descend, hs, node, hn]
    simp only [bind, Except.bind, List.getElem?_map, List.length_map, hc]
    rcases ts[i]? with _ | t <;> rfl

theorem descend_leaf {id : NodeId} {n : Node} (hn : p.node? id = some n)
    (hc : ¬ n.kind.isContainer = true) (walked : Path) (i : Nat) (rest : List Nat) :
    p.descend walked (some id) (i :: rest) = .error (.invalidTarget walked) := by
  rw [descend, node, hn]
  simp only [bind, Except.bind, hc]
  rfl

/-- A descent finds what the forest has at the indices, or fails as the search there does. -/
theorem descend_concat (walked : Path) (owner : Option NodeId) (ts : List Tree) (ks : List Nat)
    (i : Nat) (howns : p.Owns owner ts) (hheld : ∀ e ∈ nodesAll owner ts, p.node? e.1 = some e.2) :
    p.descend walked owner (ks ++ [i]) = (do
      let found ← Tree.locate walked owner ts ks
      let t ← Tree.pick ⟨walked.indices ++ ks⟩ found.2 i
      return some t.id) := by
  induction ks generalizing walked owner ts with
  | nil =>
    rw [List.nil_append, howns.descend_cons, Tree.locate_nil, List.append_nil]
    rfl
  | cons k ks ih =>
    rw [List.cons_append, howns.descend_cons, Tree.locate, Tree.pick]
    rcases hk : ts[k]? with _ | t
    · rfl
    · have ht : ∀ e ∈ t.nodes owner, p.node? e.1 = some e.2 := fun e he =>
        hheld e (Tree.nodes_subset_nodesAll (List.mem_of_getElem? hk) owner he)
      have hnode := ht _ (Tree.mem_nodes_self owner t)
      simp only [bind, Except.bind]
      split_ifs with hc
      · have hbelow : ∀ e ∈ nodesAll (some t.id) t.children, p.node? e.1 = some e.2 := fun e he =>
          ht e (by rw [Tree.nodes_eq]; exact List.mem_cons_of_mem _ he)
        have howns : p.Owns (some t.id) t.children := ⟨_, hnode, hc, rfl⟩
        rw [ih _ _ _ howns hbelow]
        simp only [Path.child, List.append_assoc, List.cons_append, List.nil_append]
        rfl
      · obtain ⟨j, rest, hj⟩ : ∃ j rest, ks ++ [i] = j :: rest :=
          List.exists_cons_of_ne_nil (by simp)
        rw [hj, descend_leaf hnode hc]

/-! ### Paths -/

theorem split?_eq_none_iff {path : Path} : path.split? = none ↔ path = .root := by
  obtain ⟨ks⟩ := path
  simp [Path.split?, Path.root]

theorem split?_eq_some_iff {path parent : Path} {i : Nat} :
    path.split? = some (parent, i) ↔ path.indices = parent.indices ++ [i] := by
  obtain ⟨ks⟩ := path
  obtain ⟨js⟩ := parent
  rcases List.eq_nil_or_concat ks with rfl | ⟨init, last, rfl⟩
  · simp [Path.split?]
  · simp [Path.split?]

theorem resolve_root (p : Program) : p.resolve .root = .error (.invalidTarget .root) := rfl

/-- **The block at a path.** -/
theorem Stores.resolve (h : p.Stores ts loose) {path parent : Path} {i : Nat}
    (hp : path.split? = some (parent, i)) : p.resolve path = (do
      let found ← Tree.locate .root none ts parent.indices
      let t ← Tree.pick parent found.2 i
      return t.id) := by
  rw [Program.resolve, split?_eq_some_iff.mp hp, descend_concat .root none ts _ i h.roots h.held]
  simp only [bind, Except.bind, Path.root, List.nil_append]
  rcases Tree.locate ⟨[]⟩ none ts parent.indices with e | found
  · rfl
  · simp only
    rcases Tree.pick parent found.2 i with e | t <;> rfl

theorem Stores.node_of_locate (h : p.Stores ts loose) {walked : Path} {ks : List Nat}
    {q : Option NodeId} (hl : Tree.locate walked none ts ks = .ok (q, cs)) {i : Nat} {t : Tree}
    (ht : cs[i]? = some t) :
    p.node? t.id = some ⟨t.kind, t.settings, q, t.children.map Tree.id⟩ := by
  have h1 := Tree.nodes_subset_nodesAll (List.mem_of_getElem? ht) q (Tree.mem_nodes_self q t)
  exact h.held _ (Tree.nodesAll_subset_of_locate hl h1)

/-- **The sibling list at a path.** -/
theorem Stores.resolveParent (h : p.Stores ts loose) (path : Path) :
    p.resolveParent path =
      (Tree.locate .root none ts path.indices).map fun found => found.1 := by
  unfold Program.resolveParent
  rcases hp : path.split? with _ | ⟨parent, i⟩
  · rw [split?_eq_none_iff] at hp
    subst hp
    rfl
  · obtain ⟨ks⟩ := path
    obtain rfl : ks = parent.indices ++ [i] := split?_eq_some_iff.mp hp
    have hroot : Path.isRoot ⟨parent.indices ++ [i]⟩ = false := by simp [Path.isRoot]
    rw [hroot, h.resolve hp, Tree.locate_concat]
    simp only [bind, Except.bind, Path.root, List.nil_append, Bool.false_eq_true, if_false]
    rcases hl : Tree.locate ⟨[]⟩ none ts parent.indices with e | ⟨q, cs⟩
    · rfl
    · simp only
      rcases ht : Tree.pick parent cs i with e | t
      · rfl
      · have hnode := h.node_of_locate hl (Tree.pick_eq_ok_iff.mp ht)
        simp only [pure, Except.pure, node, hnode]
        split_ifs <;> rfl

theorem Stores.owns (h : p.Stores ts loose) {ks : List Nat} {q : Option NodeId}
    (hl : Tree.locate .root none ts ks = .ok (q, cs)) : p.Owns q cs := by
  rcases ks with _ | ⟨i, rest⟩
  · rw [Tree.locate_nil] at hl
    cases hl
    exact h.roots
  · obtain ⟨id, kind, settings, parent, around, rfl, hc, hperm⟩ :=
      Tree.nodesAll_graft hl (by simp)
    have hmem := (hperm cs).symm.subset List.mem_cons_self
    rw [Tree.graft_self hl] at hmem
    exact ⟨_, h.held _ hmem, hc, rfl⟩

end Choreo.Program
