import Choreo.Proofs.Program.Links
import Choreo.Proofs.Program.Valid

/-! # The links of a program

What the parent links and the child lists of a program say, they say alike: every number in a list
is that of a node, every node stands once in the list that its parent link names and in no other,
and parent links lead up to the root list. `WellFormed` collects this, and every program that edits
lead to is well-formed. So the scans over all slots count the blocks of the program, and every node
has a path. -/

namespace Choreo.Program

open Choreo.Tree (nodesAll)

/-- Parent links lead from the node up to a root. -/
inductive Rooted (p : Program) : NodeId → Prop where
  | root {id : NodeId} {n : Node} (live : p.node? id = some n) (top : n.parent = none) :
    Rooted p id
  | child {id up : NodeId} {n : Node} (live : p.node? id = some n) (link : n.parent = some up)
    (above : Rooted p up) : Rooted p id

/-- The links of a program agree. -/
structure WellFormed (p : Program) : Prop where
  /-- The lists name nodes. -/
  listed_live : ∀ {owner : Option NodeId} {ids : List NodeId}, p.siblings owner = .ok ids →
    ∀ id ∈ ids, ∃ n, p.node? id = some n
  /-- A node stands once in the list that its parent link names. -/
  listed_once : ∀ {id : NodeId} {n : Node}, p.node? id = some n →
    ∃ ids, p.siblings n.parent = .ok ids ∧ ids.count id = 1
  /-- A node stands in no other list. -/
  listed_alone : ∀ {id : NodeId} {n : Node} {owner : Option NodeId} {ids : List NodeId},
    p.node? id = some n → p.siblings owner = .ok ids → id ∈ ids → owner = n.parent
  rooted : ∀ {id : NodeId} {n : Node}, p.node? id = some n → p.Rooted id
  only_loops : ∀ {id : NodeId} {n : Node}, p.node? id = some n → n.children ≠ [] → n.kind = .loop

variable {p : Program} {ts : List Tree}

theorem Stores.node?_iff (h : p.Stores ts []) {id : Nat} {n : Node} :
    p.node? id = some n ↔ (id, n) ∈ nodesAll none ts := by
  rw [h.layout.node?_iff, List.append_nil]

/-! ### Lists -/

theorem siblings_eq_ok_iff {owner : Option NodeId} {ids : List NodeId} :
    p.siblings owner = .ok ids ↔ (owner = none ∧ p.roots = ids) ∨
      ∃ id n, owner = some id ∧ p.node? id = some n ∧ n.children = ids := by
  cases owner with
  | none => simp [Program.siblings]
  | some id =>
    rw [Program.siblings, node]
    rcases hn : p.node? id with _ | n <;> simp [Except.map, hn]

/-- The numbers in a list are those of the nodes whose parent link names its owner. -/
theorem Stores.mem_siblings_iff (h : p.Stores ts []) {owner : Option NodeId} {ids : List NodeId}
    (hs : p.siblings owner = .ok ids) {id : NodeId} :
    id ∈ ids ↔ ∃ n, p.node? id = some n ∧ n.parent = owner := by
  rcases siblings_eq_ok_iff.mp hs with ⟨rfl, rfl⟩ | ⟨up, m, rfl, hm, rfl⟩
  · rw [h.roots]
    constructor
    · intro hid
      obtain ⟨n, hn, hp⟩ := Tree.mem_nodesAll_of_mem_map_id hid
      exact ⟨n, h.node?_iff.mpr hn, hp⟩
    · rintro ⟨n, hn, hp⟩
      rcases Tree.listed_nodesAll none ts (h.node?_iff.mp hn) with ⟨h1, -⟩ | ⟨up, m, hup, -, -⟩
      · exact h1
      · rw [hp] at hup
        cases hup
  · constructor
    · intro hid
      obtain ⟨n, hn, hp⟩ := (Tree.children_nodesAll none ts (h.node?_iff.mp hm)).2 id hid
      exact ⟨n, h.node?_iff.mpr hn, hp⟩
    · rintro ⟨n, hn, hp⟩
      rcases Tree.listed_nodesAll none ts (h.node?_iff.mp hn) with ⟨-, h2⟩ | ⟨o, k, ho, hk, hid⟩
      · rw [hp] at h2
        cases h2
      · rw [hp] at ho
        cases ho
        have hmk : some m = some k := hm.symm.trans (h.node?_iff.mpr hk)
        cases hmk
        exact hid

theorem Stores.nodup_siblings (h : p.Stores ts []) {owner : Option NodeId} {ids : List NodeId}
    (hs : p.siblings owner = .ok ids) : ids.Nodup := by
  have hnodup := h.layout.nodup
  rw [List.append_nil] at hnodup
  rcases siblings_eq_ok_iff.mp hs with ⟨rfl, rfl⟩ | ⟨up, m, rfl, hm, rfl⟩
  · rw [h.roots]
    exact hnodup.sublist (Tree.map_id_sublist none ts)
  · exact hnodup.sublist (Tree.children_nodesAll none ts (h.node?_iff.mp hm)).1

theorem Stores.listed_once (h : p.Stores ts []) {id : NodeId} {n : Node}
    (hn : p.node? id = some n) : ∃ ids, p.siblings n.parent = .ok ids ∧ ids.count id = 1 := by
  obtain ⟨ids, hs⟩ : ∃ ids, p.siblings n.parent = .ok ids := by
    rcases Tree.listed_nodesAll none ts (h.node?_iff.mp hn) with ⟨-, h2⟩ | ⟨up, m, hup, hm, -⟩
    · exact ⟨_, siblings_eq_ok_iff.mpr (Or.inl ⟨h2, rfl⟩)⟩
    · exact ⟨_, siblings_eq_ok_iff.mpr (Or.inr ⟨up, m, hup, h.node?_iff.mpr hm, rfl⟩)⟩
  exact ⟨ids, hs, List.count_eq_one_of_mem (h.nodup_siblings hs)
    ((h.mem_siblings_iff hs).mpr ⟨n, hn, rfl⟩)⟩

/-! ### Ancestors -/

mutual

theorem rooted_nodes (parent : Option NodeId) : ∀ t : Tree,
    (∀ e ∈ t.nodes parent, p.node? e.1 = some e.2) → (∀ up, parent = some up → p.Rooted up) →
    ∀ e ∈ t.nodes parent, p.Rooted e.1
  | .node id kind settings children, hheld, hup, e, he => by
    rw [Tree.nodes] at hheld he
    have hlive := hheld _ List.mem_cons_self
    have hroot : p.Rooted id := by
      cases parent with
      | none => exact .root hlive rfl
      | some up => exact .child hlive rfl (hup up rfl)
    rcases List.mem_cons.mp he with rfl | he
    · exact hroot
    · refine rooted_nodesAll (some id) children (fun e he => hheld e (List.mem_cons_of_mem _ he))
        (fun up h => ?_) e he
      cases h
      exact hroot

theorem rooted_nodesAll (parent : Option NodeId) : ∀ ts : List Tree,
    (∀ e ∈ nodesAll parent ts, p.node? e.1 = some e.2) → (∀ up, parent = some up → p.Rooted up) →
    ∀ e ∈ nodesAll parent ts, p.Rooted e.1
  | [], _, _, e, he => by simp at he
  | t :: ts, hheld, hup, e, he => by
    rw [Tree.nodesAll_cons] at hheld he
    rcases List.mem_append.mp he with he | he
    · exact rooted_nodes parent t (fun e he => hheld e (List.mem_append_left _ he)) hup e he
    · exact rooted_nodesAll parent ts (fun e he => hheld e (List.mem_append_right _ he)) hup e he

end

theorem Stores.rooted (h : p.Stores ts []) {id : NodeId} {n : Node} (hn : p.node? id = some n) :
    p.Rooted id :=
  rooted_nodesAll none ts h.held nofun (id, n) (h.node?_iff.mp hn)

/-- **The links of every program that edits lead to agree.** -/
theorem Reachable.wellFormed (hp : p.Reachable) : p.WellFormed := by
  obtain ⟨ts, h⟩ := hp.stores
  have hvalid := hp.allValid
  rw [h.toBlocks] at hvalid
  refine ⟨fun hs id hid => ?_, h.listed_once, fun hn hs hid => ?_, h.rooted, fun hn hne => ?_⟩
  · obtain ⟨n, hn, -⟩ := (h.mem_siblings_iff hs).mp hid
    exact ⟨n, hn⟩
  · obtain ⟨m, hm, hp⟩ := (h.mem_siblings_iff hs).mp hid
    rw [hn] at hm
    cases hm
    exact hp.symm
  · have hc := Tree.container_nodesAll none ts hvalid (h.node?_iff.mp hn) hne
    simpa [Kind.isContainer] using hc

/-! ### Counts -/

/-- The nodes in use with their numbers. -/
def live (p : Program) : List (NodeId × Node) :=
  p.slots.toList.zipIdx.filterMap fun e => e.1.map (Prod.mk e.2)

theorem map_snd_live (p : Program) : p.live.map Prod.snd = p.slots.toList.filterMap id := by
  have hpair : ∀ e : Option Node × Nat,
      (e.1.map (Prod.mk e.2)).map Prod.snd = (id ∘ Prod.fst) e := fun e => by
    rcases e with ⟨_ | n, i⟩ <;> rfl
  rw [live, List.map_filterMap, funext hpair, ← List.filterMap_map, List.zipIdx_map_fst]

theorem nodup_live (p : Program) : p.live.Nodup := by
  have hidx : (p.slots.toList.zipIdx.map Prod.snd).Nodup := by
    rw [List.zipIdx_map_snd]
    exact List.nodup_range'
  refine List.Nodup.filterMap ?_ (List.Nodup.of_map _ hidx)
  rintro ⟨_ | n, i⟩ ⟨_ | m, j⟩ b hb hb' <;> simp only [Option.map_none, Option.map_some,
    Option.mem_def, reduceCtorEq, Option.some.injEq] at hb hb'
  subst hb
  cases hb'
  rfl

theorem mem_live {id : NodeId} {n : Node} : (id, n) ∈ p.live ↔ p.node? id = some n := by
  rw [live, Program.node?, List.mem_filterMap, ← Array.getElem?_toList]
  constructor
  · rintro ⟨⟨s, j⟩, hj, hs⟩
    obtain ⟨m, rfl, hm⟩ := Option.map_eq_some_iff.mp hs
    cases hm
    rw [List.mem_zipIdx_iff_getElem?.mp hj]
    rfl
  · intro hi
    refine ⟨(some n, id), List.mem_zipIdx_iff_getElem?.mpr ?_, rfl⟩
    exact Option.join_eq_some_iff.mp hi

theorem Layout.nodes_perm {es : List (NodeId × Node)} (h : p.Layout es) :
    (p.slots.toList.filterMap id).Perm (es.map Prod.snd) := by
  rw [← map_snd_live]
  refine List.Perm.map _ ((List.perm_ext_iff_of_nodup p.nodup_live h.nodup.of_map).mpr ?_)
  exact fun e => mem_live.trans (h.node?_iff e.1 e.2)

theorem Stores.kinds_perm (h : p.Stores ts []) :
    ((p.slots.toList.filterMap id).map Node.kind).Perm
      ((Block.rows p.toBlocks).map Block.kind) := by
  have hperm := h.layout.nodes_perm.map Node.kind
  rwa [List.append_nil, List.map_map, show Node.kind ∘ Prod.snd = fun e : NodeId × Node => e.2.kind
    from rfl, Tree.map_kind_nodesAll, ← h.toBlocks] at hperm

theorem Stores.nodeCount_eq (h : p.Stores ts []) :
    p.nodeCount = (Block.rows p.toBlocks).length := by
  have hlen := h.kinds_perm.length_eq
  rwa [List.length_map, List.length_map] at hlen

theorem Stores.leafCount_eq (h : p.Stores ts []) :
    p.leafCount = ((Block.rows p.toBlocks).filter fun b => !b.isContainer).length := by
  have hlen := (h.kinds_perm.filter fun k => !k.isContainer).length_eq
  rwa [List.filter_map, List.filter_map, List.length_map, List.length_map] at hlen

/-! ### Paths -/

theorem Stores.exists_path (h : p.Stores ts []) (hvalid : Block.AllValid (Tree.blocks ts))
    {id : NodeId} {n : Node} (hn : p.node? id = some n) : ∃ path, p.resolve path = .ok id := by
  obtain ⟨i, t, hi, ht⟩ := Tree.found_nodesAll none ts hvalid (h.node?_iff.mp hn)
  have hfound : Tree.Found none ts id := Tree.found_of_getElem? hi ht
  obtain ⟨ks, q, cs, j, u, hl, hj, rfl⟩ := hfound
  have hp : Path.split? ⟨ks ++ [j]⟩ = some (⟨ks⟩, j) := split?_eq_some_iff.mpr rfl
  refine ⟨⟨ks ++ [j]⟩, ?_⟩
  rw [h.resolve hp]
  simp only [hl, Tree.pick_eq_ok_iff.mpr hj, bind, Except.bind, pure, Except.pure]

/-- **Programs are well-formed.** The links of a program that edits lead to agree; so its scans over
all slots count the blocks and those that are no repeats, and a path leads to every node. -/
theorem links_agree (hp : p.Reachable) :
    p.WellFormed ∧
    p.nodeCount = (Block.rows p.toBlocks).length ∧
    p.leafCount = ((Block.rows p.toBlocks).filter fun b => !b.isContainer).length ∧
    ∀ id n, p.node? id = some n → ∃ path, p.resolve path = .ok id := by
  obtain ⟨ts, h⟩ := hp.stores
  have hvalid := hp.allValid
  rw [h.toBlocks] at hvalid
  exact ⟨hp.wellFormed, h.nodeCount_eq, h.leafCount_eq, fun _ _ => h.exists_path hvalid⟩

/-- A move changes two lists and a parent link; here they still agree. -/
theorem links_agree_after_move :
    ∃ p, (ofBlocks [.ofKind .wave, ⟨.loop, .empty, [.ofKind .pause]⟩]).apply
        (.move ⟨[0]⟩ ⟨[1]⟩ 1) = .ok p ∧
      p.Reachable ∧ p.WellFormed ∧ p.nodeCount = 3 ∧ p.leafCount = 2 := by
  have hstart : (ofBlocks [.ofKind .wave, ⟨.loop, .empty, [.ofKind .pause]⟩]).Reachable :=
    Reachable.ofBlocks (by simp [Block.AllValid, Block.Valid, Block.ofKind, Kind.isContainer])
  refine ⟨_, rfl, ?_⟩
  have hp := hstart.apply (e := .move ⟨[0]⟩ ⟨[1]⟩ 1) trivial rfl
  obtain ⟨hwf, hnodes, hleaves, -⟩ := links_agree hp
  exact ⟨hp, hwf, hnodes.trans rfl, hleaves.trans rfl⟩

end Choreo.Program
