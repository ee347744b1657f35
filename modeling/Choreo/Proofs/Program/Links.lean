import Choreo.Proofs.Block.Valid
import Choreo.Proofs.Program.Position

/-! # The links of a numbered forest

The nodes of a forest name their children and their parents, and both say the same: a node is listed
among the children of its parent and nowhere else. A node below others can be reached from the
topmost list by indices if only containers have children. -/

namespace Choreo

namespace Tree

mutual

theorem map_content_nodes (parent : Option NodeId) : ∀ t : Tree,
    (t.nodes parent).map (fun e => (e.2.kind, e.2.settings)) =
      t.block.row.map fun b => (b.kind, b.settings)
  | node id kind settings children => by
    rw [nodes, block, Block.row, List.map_cons, List.map_cons,
      map_content_nodesAll (some id) children]

theorem map_content_nodesAll (parent : Option NodeId) : ∀ ts : List Tree,
    (nodesAll parent ts).map (fun e => (e.2.kind, e.2.settings)) =
      (Block.rows (blocks ts)).map fun b => (b.kind, b.settings)
  | [] => by rw [nodesAll, blocks, Block.rows]; rfl
  | t :: ts => by
    rw [nodesAll, blocks, Block.rows, List.map_append, List.map_append, map_content_nodes parent t,
      map_content_nodesAll parent ts]

end

theorem map_kind_nodesAll (parent : Option NodeId) (ts : List Tree) :
    (nodesAll parent ts).map (·.2.kind) = (Block.rows (blocks ts)).map Block.kind := by
  have hkinds := congrArg (List.map Prod.fst) (map_content_nodesAll parent ts)
  rwa [List.map_map, List.map_map] at hkinds

/-! ### Children and parents -/

theorem map_id_sublist (parent : Option NodeId) (ts : List Tree) :
    (ts.map Tree.id).Sublist ((nodesAll parent ts).map Prod.fst) := by
  induction ts with
  | nil => simp
  | cons t ts ih =>
    rw [nodesAll_cons, nodes_eq, List.map_cons, List.cons_append, List.map_cons, List.map_append]
    exact (ih.trans (List.sublist_append_right _ _)).cons_cons _

/-- The topmost nodes have the parent link that the forest hangs by. -/
theorem mem_nodesAll_of_mem_map_id {parent : Option NodeId} {ts : List Tree} {id : NodeId}
    (h : id ∈ ts.map Tree.id) : ∃ n, (id, n) ∈ nodesAll parent ts ∧ n.parent = parent := by
  obtain ⟨t, ht, rfl⟩ := List.mem_map.mp h
  exact ⟨_, nodes_subset_nodesAll ht parent (mem_nodes_self parent t), rfl⟩

mutual

theorem children_nodes (parent : Option NodeId) : ∀ (t : Tree) {id : NodeId} {n : Node},
    (id, n) ∈ t.nodes parent → n.children.Sublist ((t.nodes parent).map Prod.fst) ∧
      ∀ c ∈ n.children, ∃ m, (c, m) ∈ t.nodes parent ∧ m.parent = some id
  | node root kind settings children, id, n, h => by
    rw [nodes, List.mem_cons] at h
    rw [nodes, List.map_cons]
    rcases h with h | h
    · cases h
      refine ⟨(map_id_sublist _ _).cons _, fun c hc => ?_⟩
      obtain ⟨m, hm, hp⟩ := mem_nodesAll_of_mem_map_id hc
      exact ⟨m, List.mem_cons_of_mem _ hm, hp⟩
    · obtain ⟨hsub, hmem⟩ := children_nodesAll (some root) children h
      refine ⟨hsub.cons _, fun c hc => ?_⟩
      obtain ⟨m, hm, hp⟩ := hmem c hc
      exact ⟨m, List.mem_cons_of_mem _ hm, hp⟩

theorem children_nodesAll (parent : Option NodeId) : ∀ (ts : List Tree) {id : NodeId} {n : Node},
    (id, n) ∈ nodesAll parent ts → n.children.Sublist ((nodesAll parent ts).map Prod.fst) ∧
      ∀ c ∈ n.children, ∃ m, (c, m) ∈ nodesAll parent ts ∧ m.parent = some id
  | [], _, _, h => by simp at h
  | t :: ts, id, n, h => by
    rw [nodesAll_cons, List.mem_append] at h
    rw [nodesAll_cons, List.map_append]
    rcases h with h | h
    · obtain ⟨hsub, hmem⟩ := children_nodes parent t h
      refine ⟨hsub.trans (List.sublist_append_left _ _), fun c hc => ?_⟩
      obtain ⟨m, hm, hp⟩ := hmem c hc
      exact ⟨m, List.mem_append_left _ hm, hp⟩
    · obtain ⟨hsub, hmem⟩ := children_nodesAll parent ts h
      refine ⟨hsub.trans (List.sublist_append_right _ _), fun c hc => ?_⟩
      obtain ⟨m, hm, hp⟩ := hmem c hc
      exact ⟨m, List.mem_append_right _ hm, hp⟩

end

mutual

theorem listed_nodes (parent : Option NodeId) : ∀ (t : Tree) {id : NodeId} {n : Node},
    (id, n) ∈ t.nodes parent → (id = t.id ∧ n.parent = parent) ∨
      ∃ up m, n.parent = some up ∧ (up, m) ∈ t.nodes parent ∧ id ∈ m.children
  | node root kind settings children, id, n, h => by
    rw [nodes, List.mem_cons] at h
    rw [nodes]
    rcases h with h | h
    · cases h
      exact Or.inl ⟨rfl, rfl⟩
    · refine Or.inr ?_
      rcases listed_nodesAll (some root) children h with ⟨h1, h2⟩ | ⟨up, m, hp, hm, hc⟩
      · exact ⟨root, _, h2, List.mem_cons_self, h1⟩
      · exact ⟨up, m, hp, List.mem_cons_of_mem _ hm, hc⟩

theorem listed_nodesAll (parent : Option NodeId) : ∀ (ts : List Tree) {id : NodeId} {n : Node},
    (id, n) ∈ nodesAll parent ts → (id ∈ ts.map Tree.id ∧ n.parent = parent) ∨
      ∃ up m, n.parent = some up ∧ (up, m) ∈ nodesAll parent ts ∧ id ∈ m.children
  | [], _, _, h => by simp at h
  | t :: ts, id, n, h => by
    rw [nodesAll_cons, List.mem_append] at h
    rw [nodesAll_cons, List.map_cons]
    rcases h with h | h
    · rcases listed_nodes parent t h with ⟨rfl, h2⟩ | ⟨up, m, hp, hm, hc⟩
      · exact Or.inl ⟨List.mem_cons_self, h2⟩
      · exact Or.inr ⟨up, m, hp, List.mem_append_left _ hm, hc⟩
    · rcases listed_nodesAll parent ts h with ⟨h1, h2⟩ | ⟨up, m, hp, hm, hc⟩
      · exact Or.inl ⟨List.mem_cons_of_mem _ h1, h2⟩
      · exact Or.inr ⟨up, m, hp, List.mem_append_right _ hm, hc⟩

end

/-! ### Validity -/

mutual

theorem container_nodes (parent : Option NodeId) : ∀ (t : Tree), t.block.Valid →
    ∀ {id : NodeId} {n : Node}, (id, n) ∈ t.nodes parent → n.children ≠ [] →
      n.kind.isContainer = true
  | node root kind settings children, hv, id, n, h, hne => by
    obtain ⟨-, hleaf, hbelow⟩ := Block.valid_iff.mp hv
    rw [block] at hleaf hbelow
    rw [nodes, List.mem_cons] at h
    rcases h with h | h
    · cases h
      by_contra hc
      have hnil := hleaf (Bool.eq_false_iff.mpr hc)
      rw [blocks_eq_map, List.map_eq_nil_iff] at hnil
      exact hne (by rw [hnil, List.map_nil])
    · exact container_nodesAll (some root) children hbelow h hne

theorem container_nodesAll (parent : Option NodeId) : ∀ (ts : List Tree),
    Block.AllValid (blocks ts) → ∀ {id : NodeId} {n : Node}, (id, n) ∈ nodesAll parent ts →
      n.children ≠ [] → n.kind.isContainer = true
  | [], _, _, _, h, _ => by simp at h
  | t :: ts, hv, id, n, h, hne => by
    rw [blocks, Block.AllValid] at hv
    rw [nodesAll_cons, List.mem_append] at h
    rcases h with h | h
    · exact container_nodes parent t hv.1 h hne
    · exact container_nodesAll parent ts hv.2 h hne

end

/-- Some indices lead to the node in the forest. -/
def Found (owner : Option NodeId) (ts : List Tree) (id : NodeId) : Prop :=
  ∃ (ks : List Nat) (q : Option NodeId) (cs : List Tree) (i : Nat) (t : Tree),
    (∀ walked, locate walked owner ts ks = .ok (q, cs)) ∧ cs[i]? = some t ∧ t.id = id

theorem found_of_getElem? {owner : Option NodeId} {ts : List Tree} {i : Nat} {t : Tree}
    {id : NodeId} (hi : ts[i]? = some t)
    (h : t.id = id ∨ t.kind.isContainer = true ∧ Found (some t.id) t.children id) :
    Found owner ts id := by
  rcases h with h | ⟨hc, ks, q, cs, j, u, hl, hj, hu⟩
  · exact ⟨[], owner, ts, i, t, fun _ => rfl, hi, h⟩
  · exact ⟨i :: ks, q, cs, j, u, fun walked => locate_cons_iff.mpr ⟨t, hi, hc, hl _⟩, hj, hu⟩

mutual

theorem found_nodes (parent : Option NodeId) : ∀ (t : Tree), t.block.Valid →
    ∀ {id : NodeId} {n : Node}, (id, n) ∈ t.nodes parent →
      t.id = id ∨ t.kind.isContainer = true ∧ Found (some t.id) t.children id
  | node root kind settings children, hv, id, n, h => by
    rw [nodes, List.mem_cons] at h
    rcases h with h | h
    · cases h
      exact Or.inl rfl
    · have hne : children.map Tree.id ≠ [] := by
        rintro hnil
        rw [List.map_eq_nil_iff] at hnil
        subst hnil
        simp at h
      have hc := container_nodes parent _ hv (mem_nodes_self parent _) hne
      obtain ⟨-, -, hbelow⟩ := Block.valid_iff.mp hv
      rw [block] at hbelow
      obtain ⟨i, t, hi, ht⟩ := found_nodesAll (some root) children hbelow h
      exact Or.inr ⟨hc, found_of_getElem? hi ht⟩

theorem found_nodesAll (parent : Option NodeId) : ∀ (ts : List Tree),
    Block.AllValid (blocks ts) → ∀ {id : NodeId} {n : Node}, (id, n) ∈ nodesAll parent ts →
      ∃ (i : Nat) (t : Tree), ts[i]? = some t ∧
        (t.id = id ∨ t.kind.isContainer = true ∧ Found (some t.id) t.children id)
  | [], _, _, _, h => by simp at h
  | t :: ts, hv, id, n, h => by
    rw [blocks, Block.AllValid] at hv
    rw [nodesAll_cons, List.mem_append] at h
    rcases h with h | h
    · exact ⟨0, t, rfl, found_nodes parent t hv.1 h⟩
    · obtain ⟨i, u, hi, hu⟩ := found_nodesAll parent ts hv.2 h
      exact ⟨i + 1, u, hi, hu⟩

end

end Tree

end Choreo
