import Choreo.Proofs.Program.Tree

/-! # What the slots of a program hold

`Layout p entries` says that the slots in use are those of `entries` and hold the nodes given there,
no number standing twice. Filling fresh slots adds entries (`Layout.place`), changing a node changes
its entry (`Layout.modifyNode`), and clearing a subtree that is laid out takes its entries away and
no others (`Layout.clear`); the order of the entries does not matter. -/

namespace Choreo.Program

open Choreo.Tree (label labelAll nodesAll nodesAll_cons nodes_label nodesAll_labelAll)

/-- The slots in use hold the nodes of `entries`, each number standing once. -/
structure Layout (p : Program) (entries : List (NodeId × Node)) : Prop where
  nodup : (entries.map Prod.fst).Nodup
  node?_iff : ∀ (id : Nat) (n : Node), p.node? id = some n ↔ (id, n) ∈ entries

variable {p : Program} {es fs : List (NodeId × Node)}

theorem Layout.perm (h : p.Layout es) (hp : es.Perm fs) : p.Layout fs :=
  ⟨(hp.map Prod.fst).nodup_iff.mp h.nodup, fun id n => by rw [h.node?_iff, hp.mem_iff]⟩

theorem Layout.of_slots {q : Program} (h : p.Layout es) (hs : q.slots = p.slots) : q.Layout es :=
  ⟨h.nodup, fun id n => by rw [← h.node?_iff, node?, node?, hs]⟩

theorem Layout.node? (h : p.Layout es) {id : NodeId} {n : Node} (he : (id, n) ∈ es) :
    p.node? id = some n :=
  (h.node?_iff id n).mpr he

theorem Layout.lt_size (h : p.Layout es) {id : Nat} {n : Node} (he : (id, n) ∈ es) :
    id < p.slots.size := by
  have h1 := h.node? he
  by_contra hlt
  rw [Program.node?, Array.getElem?_eq_none (by omega)] at h1
  cases h1

theorem Layout.length_le (h : p.Layout es) : es.length ≤ p.slots.size := by
  have h1 : es.map Prod.fst ⊆ List.range p.slots.size := by
    intro id hid
    obtain ⟨⟨id, n⟩, he, rfl⟩ := List.mem_map.mp hid
    exact List.mem_range.mpr (h.lt_size he)
  simpa using (h.nodup.subperm h1).length_le

/-! ### Filling slots -/

/-- Nodes that are stored in fresh slots take the numbers from the number of slots on. -/
theorem Layout.append (h : p.Layout es) (ns : List Node) :
    Layout { p with slots := p.slots ++ (ns.map some).toArray }
      (es ++ (ns.zipIdx p.slots.size).map Prod.swap) := by
  have hfst : ((ns.zipIdx p.slots.size).map Prod.swap).map Prod.fst =
      List.range' p.slots.size ns.length := by
    rw [List.map_map, ← List.zipIdx_map_snd]
    rfl
  refine ⟨?_, fun id n => ?_⟩
  · rw [List.map_append, hfst, List.nodup_append]
    refine ⟨h.nodup, List.nodup_range', fun a ha b hb => ?_⟩
    obtain ⟨⟨id, n⟩, he, rfl⟩ := List.mem_map.mp ha
    exact Nat.ne_of_lt (Nat.lt_of_lt_of_le (h.lt_size he) (List.mem_range'_1.mp hb).1)
  · have hmem : (id, n) ∈ (ns.zipIdx p.slots.size).map Prod.swap ↔
        p.slots.size ≤ id ∧ ns[id - p.slots.size]? = some n := by
      rw [← List.mem_zipIdx_iff_le_and_getElem?_sub (x := (n, id)), List.mem_map]
      constructor
      · rintro ⟨⟨m, j⟩, hm, h1⟩
        cases h1
        exact hm
      · exact fun hm => ⟨(n, id), hm, rfl⟩
    rw [List.mem_append, hmem, ← h.node?_iff, Program.node?, Program.node?]
    rcases Nat.lt_or_ge id p.slots.size with hlt | hge
    · rw [Array.getElem?_append_left hlt]
      constructor
      · exact Or.inl
      · rintro (h1 | h1)
        · exact h1
        · exact absurd h1.1 (Nat.not_le.mpr hlt)
    · rw [Array.getElem?_append_right hge, Array.getElem?_eq_none hge]
      simp [hge, Option.join_eq_some_iff]

theorem Layout.place (h : p.Layout es) (parent : Option NodeId) (b : Block) :
    (p.place parent b).Layout (es ++ (label p.slots.size b).nodes parent) := by
  rw [nodes_label]
  exact h.append _

theorem layout_empty : empty.Layout [] :=
  ⟨List.nodup_nil, fun id n => by simp [Program.node?, empty]⟩

theorem layout_ofBlocks (bs : List Block) :
    (ofBlocks bs).Layout (nodesAll none (labelAll 0 bs)) := by
  rw [nodesAll_labelAll]
  exact (layout_empty.append (nodesOfAll none 0 bs)).of_slots (by simp [ofBlocks, empty])

/-! ### Changing a node -/

theorem node?_modifyNode (p : Program) (id j : NodeId) (f : Node → Node) :
    (p.modifyNode id f).node? j = if id = j then (p.node? j).map f else p.node? j := by
  unfold modifyNode node?
  rw [Array.getElem?_modify]
  split_ifs with h
  · cases p.slots[j]? <;> rfl
  · rfl

theorem Layout.modifyNode {id : NodeId} {n : Node} (h : p.Layout ((id, n) :: es))
    (f : Node → Node) : (p.modifyNode id f).Layout ((id, f n) :: es) := by
  obtain ⟨hnot, -⟩ := List.nodup_cons.mp h.nodup
  refine ⟨h.nodup, fun j m => ?_⟩
  rw [node?_modifyNode]
  split_ifs with hj
  · subst hj
    rw [h.node? List.mem_cons_self, Option.map_some, Option.some.injEq, List.mem_cons,
      Prod.mk.injEq]
    constructor
    · exact fun h1 => Or.inl ⟨rfl, h1.symm⟩
    · rintro (⟨-, h1⟩ | h1)
      · exact h1.symm
      · exact absurd (List.mem_map_of_mem h1) hnot
  · rw [h.node?_iff, List.mem_cons, List.mem_cons, Prod.mk.injEq, Prod.mk.injEq]
    have hne : j ≠ id := fun h1 => hj h1.symm
    simp [hne]

theorem modifyNode_comm (p : Program) (id j : NodeId) {f g : Node → Node}
    (h : ∀ n, f (g n) = g (f n)) :
    (p.modifyNode id f).modifyNode j g = (p.modifyNode j g).modifyNode id f := by
  unfold modifyNode
  congr 1
  refine Array.ext_getElem? fun i => ?_
  simp only [Array.getElem?_modify]
  split_ifs
  · rw [Option.map_map, Option.map_map]
    congr 1
    funext s
    cases s <;> simp [h]
  all_goals rfl

/-! ### Clearing slots -/

theorem modifyNode_modifyNode (p : Program) (id : NodeId) (f g : Node → Node) :
    (p.modifyNode id f).modifyNode id g = p.modifyNode id (g ∘ f) := by
  unfold modifyNode
  congr 1
  refine Array.ext_getElem? fun i => ?_
  simp only [Array.getElem?_modify]
  split_ifs
  · rw [Option.map_map, Option.map_comp_map]
  · rfl

theorem join_setIfInBounds_none (slots : Array (Option Node)) (id j : NodeId) :
    (slots.setIfInBounds id none)[j]?.join = if id = j then none else slots[j]?.join := by
  rw [Array.getElem?_setIfInBounds]
  split_ifs <;> rfl

mutual

theorem clearWithin_tree (parent : Option NodeId) : ∀ (t : Tree) (fuel : Nat)
    (slots : Array (Option Node)), (t.nodes parent).length ≤ fuel →
    (∀ e ∈ t.nodes parent, slots[e.1]?.join = some e.2) → ((t.nodes parent).map Prod.fst).Nodup →
    ∀ j : NodeId, (clearWithin fuel slots t.id)[j]?.join =
      if j ∈ (t.nodes parent).map Prod.fst then none else slots[j]?.join
  | .node id kind settings children, fuel, slots, hfuel, hheld, hnodup, j => by
    rw [Tree.nodes] at hfuel hheld hnodup ⊢
    rw [List.map_cons, List.nodup_cons] at hnodup
    obtain ⟨hnot, hnodup⟩ := hnodup
    obtain ⟨fuel, rfl⟩ : ∃ k, fuel = k + 1 := ⟨fuel - 1, by rw [List.length_cons] at hfuel; omega⟩
    have hroot : slots[id]?.join = some ⟨kind, settings, parent, children.map Tree.id⟩ :=
      hheld _ List.mem_cons_self
    have hbelow : ∀ e ∈ nodesAll (some id) children,
        (slots.setIfInBounds id none)[e.1]?.join = some e.2 := by
      intro e he
      have hmem : e.1 ∈ (nodesAll (some id) children).map Prod.fst := List.mem_map_of_mem he
      have hne : id ≠ e.1 := fun h => hnot (h ▸ hmem)
      rw [join_setIfInBounds_none, if_neg hne]
      exact hheld e (List.mem_cons_of_mem _ he)
    have hlen : (nodesAll (some id) children).length ≤ fuel := by
      rw [List.length_cons] at hfuel; omega
    -- the node's own slot is emptied first, then those of its children one after the other
    rw [Tree.id, clearWithin, hroot]
    simp only
    rw [clearWithin_forest (some id) children fuel _ hlen hbelow hnodup j,
      join_setIfInBounds_none]
    by_cases hj : id = j
    · simp [hj]
    · have hj' : ¬ j = id := fun h => hj h.symm
      simp only [List.map_cons, List.mem_cons, hj', false_or, if_neg hj]

theorem clearWithin_forest (parent : Option NodeId) : ∀ (ts : List Tree) (fuel : Nat)
    (slots : Array (Option Node)), (nodesAll parent ts).length ≤ fuel →
    (∀ e ∈ nodesAll parent ts, slots[e.1]?.join = some e.2) →
    ((nodesAll parent ts).map Prod.fst).Nodup →
    ∀ j : NodeId, ((ts.map Tree.id).foldl (clearWithin fuel) slots)[j]?.join =
      if j ∈ (nodesAll parent ts).map Prod.fst then none else slots[j]?.join
  | [], fuel, slots, _, _, _, j => by simp
  | t :: ts, fuel, slots, hfuel, hheld, hnodup, j => by
    rw [nodesAll_cons] at hfuel hheld hnodup ⊢
    rw [List.map_append, List.nodup_append] at hnodup
    obtain ⟨hnodup, hnodups, hdisj⟩ := hnodup
    rw [List.length_append] at hfuel
    have hfirst := clearWithin_tree parent t fuel slots (by omega)
      (fun e he => hheld e (List.mem_append_left _ he)) hnodup
    have hrest : ∀ e ∈ nodesAll parent ts, (clearWithin fuel slots t.id)[e.1]?.join = some e.2 := by
      intro e he
      have hnot : e.1 ∉ (t.nodes parent).map Prod.fst := fun h =>
        hdisj _ h _ (List.mem_map_of_mem he) rfl
      rw [hfirst, if_neg hnot]
      exact hheld e (List.mem_append_right _ he)
    rw [List.map_cons, List.foldl_cons,
      clearWithin_forest parent ts fuel _ (by omega) hrest hnodups j, hfirst, List.map_append]
    by_cases h1 : j ∈ (nodesAll parent ts).map Prod.fst
    · simp only [List.mem_append, h1, or_true, if_true]
    · simp only [List.mem_append, h1, or_false, if_false]

end

theorem Layout.clear {parent : Option NodeId} {t : Tree} (h : p.Layout (es ++ t.nodes parent)) :
    (p.clear t.id).Layout es := by
  have hnodup := h.nodup
  rw [List.map_append, List.nodup_append] at hnodup
  obtain ⟨hes, ht, hdisj⟩ := hnodup
  have hfuel : (t.nodes parent).length ≤ p.slots.size := by
    have h1 := h.length_le
    rw [List.length_append] at h1; omega
  have hclear := clearWithin_tree parent t p.slots.size p.slots hfuel
    (fun e he => h.node? (List.mem_append_right _ he)) ht
  refine ⟨hes, fun id n => ?_⟩
  rw [Program.clear, Program.node?, hclear id]
  split_ifs with hid
  · constructor
    · intro h1; cases h1
    · intro h1; exact absurd rfl (hdisj id (List.mem_map_of_mem h1) id hid)
  · have h1 := h.node?_iff id n
    rw [Program.node?, List.mem_append] at h1
    rw [h1]
    constructor
    · rintro (h2 | h2)
      · exact h2
      · exact absurd (List.mem_map_of_mem h2) hid
    · exact Or.inl

end Choreo.Program
