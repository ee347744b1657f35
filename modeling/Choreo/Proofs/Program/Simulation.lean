import Choreo.Proofs.Program.Stored

/-! # Edits of a program that stores a forest

Each edit of a program that stores a forest gives a program that stores the forest with one sibling
list changed, two for a move. The numbers go along: an inserted block is labelled with the next ones,
a block that is moved keeps those that it has.

The steps that an edit is made of come first. While a block is on its way its nodes are loose: the
slots hold them, but no list names the block. -/

namespace Choreo.Program

open Choreo.Tree (nodesAll blocks label locate graft)

variable {p : Program} {ts cs new : List Tree} {loose loose' : List (NodeId × Node)}
  {ks : List Nat} {q : Option NodeId}

/-! ### Steps -/

/-- **Changing a sibling list.** Nodes that leave the list become loose, loose ones enter it. -/
theorem Stores.modifySiblings (h : p.Stores ts loose) (hl : locate .root none ts ks = .ok (q, cs))
    {f : List NodeId → List NodeId} (hf : f (cs.map Tree.id) = new.map Tree.id)
    (hp : (nodesAll q cs ++ loose).Perm (nodesAll q new ++ loose')) :
    (p.modifySiblings q f).Stores (graft ts ks new) loose' := by
  rcases ks with _ | ⟨i, rest⟩
  · rw [Tree.locate_nil] at hl
    cases hl
    refine ⟨?_, (h.layout.perm hp).of_slots rfl⟩
    rw [Program.modifySiblings, h.roots]
    exact hf
  · obtain ⟨id, kind, settings, parent, around, rfl, -, hperm⟩ :=
      Tree.nodesAll_graft hl (by simp)
    refine ⟨?_, ?_⟩
    · rw [Tree.map_id_graft_cons]
      exact h.roots
    · have hcs := (hperm cs).append_right loose
      rw [Tree.graft_self hl, List.cons_append, List.append_assoc] at hcs
      have hmod := (h.layout.perm (hcs.trans ((hp.append_left around).cons _))).modifyNode
        fun n => { n with children := f n.children }
      refine hmod.perm ?_
      rw [hf, ← List.append_assoc, ← List.cons_append]
      exact ((hperm new).append_right loose').symm

theorem Stores.place (h : p.Stores ts []) (owner : Option NodeId) (b : Block) :
    (p.place owner b).Stores ts ((label p.slots.size b).nodes owner) := by
  refine ⟨h.roots, ?_⟩
  have h1 := h.layout.place owner b
  rwa [List.append_nil] at h1

theorem Stores.clear {t : Tree} (h : p.Stores ts (t.nodes q)) : (p.clear t.id).Stores ts [] := by
  refine ⟨h.roots, ?_⟩
  rw [List.append_nil]
  exact h.layout.clear

theorem Stores.setParent {t : Tree} (h : p.Stores ts (t.nodes q)) (owner : Option NodeId) :
    (p.modifyNode t.id ({ · with parent := owner })).Stores ts (t.nodes owner) := by
  refine ⟨h.roots, ?_⟩
  have h1 := h.layout
  rw [Tree.nodes_eq] at h1
  refine ((h1.perm List.perm_middle).modifyNode _).perm ?_
  rw [Tree.nodes_eq]
  exact List.perm_middle.symm

theorem Stores.bumped (h : p.Stores ts []) : p.bumped.Stores ts [] :=
  ⟨h.roots, h.layout.of_slots rfl⟩

theorem revision_modifySiblings (p : Program) (owner : Option NodeId)
    (f : List NodeId → List NodeId) : (p.modifySiblings owner f).revision = p.revision := by
  cases owner <;> rfl

theorem modifyNode_modifySiblings (p : Program) (id : NodeId) (owner parent : Option NodeId)
    (f : List NodeId → List NodeId) :
    (p.modifySiblings owner f).modifyNode id ({ · with parent := parent }) =
      (p.modifyNode id ({ · with parent := parent })).modifySiblings owner f := by
  cases owner with
  | none => rfl
  | some j => exact modifyNode_comm p j id fun _ => rfl

theorem nodesAll_erase {i : Nat} {t : Tree} (ht : cs[i]? = some t) (q : Option NodeId) :
    (nodesAll q cs ++ []).Perm (nodesAll q (cs.eraseIdx i) ++ t.nodes q) := by
  rw [List.append_nil]
  exact Tree.nodesAll_perm_eraseIdx ht q

theorem nodesAll_insert {i : Nat} (hi : i ≤ cs.length) (t : Tree) (q : Option NodeId) :
    (nodesAll q cs ++ t.nodes q).Perm (nodesAll q (cs.insertIdx i t) ++ []) := by
  rw [List.append_nil]
  refine List.perm_append_comm.trans ?_
  rw [← Tree.nodesAll_cons]
  exact Tree.nodesAll_perm (List.perm_insertIdx t cs hi).symm q

/-- **Changing a block.** A change of its node that keeps the links changes the block where it
stands. -/
theorem Stores.modifyNode (h : p.Stores ts []) (hl : locate .root none ts ks = .ok (q, cs)) {i : Nat}
    {t : Tree} (ht : cs[i]? = some t) (s : Settings) :
    (p.modifyNode t.id ({ · with settings := s })).Stores
      (graft ts ks (cs.set i (t.withSettings s))) [] := by
  obtain ⟨others, hperm⟩ := Tree.nodesAll_graft_set hl ht
  have hlt := (List.getElem?_eq_some_iff.mp ht).1
  have hself := hperm t rfl
  rw [show cs.set i t = cs by
    obtain ⟨-, rfl⟩ := List.getElem?_eq_some_iff.mp ht
    exact List.set_getElem_self hlt, Tree.graft_self hl, Tree.nodes_eq, List.cons_append] at hself
  refine ⟨?_, ?_⟩
  · rw [Tree.map_id_graft_set hl ht (Tree.id_withSettings t s)]
    exact h.roots
  · have h1 := h.layout
    rw [List.append_nil] at h1 ⊢
    refine ((h1.perm hself).modifyNode _).perm ?_
    refine List.Perm.trans ?_ (hperm _ (Tree.id_withSettings t s)).symm
    rw [Tree.nodes_eq, Tree.id_withSettings, Tree.kind_withSettings, Tree.settings_withSettings,
      Tree.children_withSettings, List.cons_append]

/-! ### Ancestors -/

/-- The ancestors of a node lie in every set of nodes that has it and is closed under parent
links. -/
theorem lineage_subset {S : NodeId → Prop}
    (hS : ∀ j up, S j → (p.node? j >>= (·.parent)) = some up → S up) :
    ∀ (fuel : Nat) (id : NodeId), S id → ∀ j ∈ p.lineage fuel id, S j
  | 0, _, _, _, hj => by simp [lineage] at hj
  | fuel + 1, id, hid, j, hj => by
    rw [lineage, List.mem_cons] at hj
    rcases hj with rfl | hj
    · exact hid
    · rcases hup : (p.node? id >>= (·.parent)) with _ | up
      · rw [hup] at hj; simp at hj
      · rw [hup] at hj
        exact lineage_subset hS fuel up (hS _ _ hid hup) j hj

theorem parent_modifySiblings (p : Program) (owner : Option NodeId) (f : List NodeId → List NodeId)
    (j : NodeId) : ((p.modifySiblings owner f).node? j >>= (·.parent)) =
      (p.node? j >>= (·.parent)) := by
  cases owner with
  | none => rfl
  | some id =>
    rw [modifySiblings, node?_modifyNode]
    split_ifs
    · cases p.node? j <;> rfl
    · rfl

theorem Stores.isWithin_eq_false {f : List NodeId → List NodeId} {owner : Option NodeId} {t : Tree}
    (h : (p.modifySiblings owner f).Stores ts (t.nodes q)) {id : NodeId}
    (hid : id ∈ (nodesAll none ts).map Prod.fst) : p.isWithin id t.id = false := by
  have hnodup := h.layout.nodup
  rw [List.map_append, List.nodup_append] at hnodup
  -- parent links cannot lead from the forest to the block, whose number is loose
  have hclosed : ∀ j up, j ∈ (nodesAll none ts).map Prod.fst →
      (p.node? j >>= (·.parent)) = some up → up ∈ (nodesAll none ts).map Prod.fst := by
    intro j up hj hup
    obtain ⟨⟨j, n⟩, he, rfl⟩ := List.mem_map.mp hj
    rw [← parent_modifySiblings p owner f, h.held _ he] at hup
    exact (Tree.parent_mem_nodesAll none ts he hup).resolve_left (by simp)
  unfold isWithin
  rw [Bool.eq_false_iff, ne_eq, List.contains_iff_mem]
  intro hmem
  have h1 := lineage_subset (S := (· ∈ (nodesAll none ts).map Prod.fst)) hclosed _ _ hid _ hmem
  exact hnodup.2.2 _ h1 _ (List.mem_map_of_mem (Tree.mem_nodes_self q t)) rfl

/-! ### Edits -/

/-- What an edit that succeeds gives: the program that stores `ts`, one revision on. -/
def Yields (p : Program) (result : Except EditError Program) (ts : List Tree) : Prop :=
  ∃ r, result = .ok r ∧ r.Stores ts [] ∧ r.revision = p.revision + 1

theorem Stores.insert (h : p.Stores ts []) {parent : Path} {index : Nat}
    (hl : locate .root none ts parent.indices = .ok (q, cs)) (hi : index ≤ cs.length) (b : Block) :
    p.Yields (p.insert parent index b)
      (graft ts parent.indices (cs.insertIdx index (label p.slots.size b))) := by
  refine ⟨((p.place q b).modifySiblings q (·.insertIdx index p.slots.size)).bumped, ?_, ?_, ?_⟩
  · simp only [Program.insert, h.resolveParent, hl, Except.map, bind, Except.bind,
      (h.owns hl).siblings, List.length_map, Nat.not_lt.mpr hi, if_false]
    rfl
  · refine ((h.place q b).modifySiblings hl ?_ (nodesAll_insert hi _ q)).bumped
    rw [List.map_insertIdx, Tree.id_label]
  · rw [Program.bumped, revision_modifySiblings]
    rfl

theorem Stores.remove (h : p.Stores ts []) {parent : Path} {index : Nat} {t : Tree}
    (hl : locate .root none ts parent.indices = .ok (q, cs)) (ht : cs[index]? = some t) :
    p.Yields (p.remove parent index) (graft ts parent.indices (cs.eraseIdx index)) := by
  refine ⟨((p.modifySiblings q (·.eraseIdx index)).clear t.id).bumped, ?_, ?_, ?_⟩
  · simp only [Program.remove, h.resolveParent, hl, Except.map, bind, Except.bind,
      (h.owns hl).siblings, List.getElem?_map, ht, Option.map_some]
    rfl
  · refine (h.modifySiblings hl ?_ (nodesAll_erase ht q)).clear.bumped
    rw [List.eraseIdx_map]
  · rw [Program.bumped, Program.clear, revision_modifySiblings]

theorem Stores.reorder (h : p.Stores ts []) {parent : Path} {source target : Nat} {t : Tree}
    (hl : locate .root none ts parent.indices = .ok (q, cs)) (ht : cs[source]? = some t)
    (hi : target < cs.length) : p.Yields (p.reorder parent source target)
      (graft ts parent.indices ((cs.eraseIdx source).insertIdx target t)) := by
  refine ⟨(p.modifySiblings q fun ids => (ids.eraseIdx source).insertIdx target t.id).bumped,
    ?_, ?_, ?_⟩
  · simp only [Program.reorder, h.resolveParent, hl, Except.map, bind, Except.bind,
      (h.owns hl).siblings, List.getElem?_map, ht, Option.map_some, List.length_map,
      Nat.not_le.mpr hi, if_false]
    rfl
  · have hlt := (List.getElem?_eq_some_iff.mp ht).1
    have hle : target ≤ (cs.eraseIdx source).length := by
      rw [List.length_eraseIdx_of_lt hlt]; omega
    refine (h.modifySiblings hl ?_
      ((nodesAll_erase ht q).trans (nodesAll_insert hle t q))).bumped
    rw [List.map_insertIdx, List.eraseIdx_map]
  · rw [Program.bumped, revision_modifySiblings]

theorem Stores.setParam (h : p.Stores ts []) {path parent : Path} {i : Nat}
    (hp : path.split? = some (parent, i)) {t : Tree}
    (hl : locate .root none ts parent.indices = .ok (q, cs)) (ht : cs[i]? = some t) {param : Param}
    {value : Float} {s : Settings} (hs : t.settings.set t.kind param value = .ok s) :
    p.Yields (p.setParam path param value)
      (graft ts parent.indices (cs.set i (t.withSettings s))) := by
  refine ⟨(p.modifyNode t.id ({ · with settings := s })).bumped, ?_, ?_, rfl⟩
  · simp only [Program.setParam, h.resolve hp, hl, bind, Except.bind, Tree.pick_eq_ok_iff.mpr ht,
      node, pure, Except.pure, h.node_of_locate hl ht, hs]
  · exact (h.modifyNode hl ht s).bumped

theorem stores_ofBlocks (bs : List Block) : (ofBlocks bs).Stores (Tree.labelAll 0 bs) [] := by
  refine ⟨(Tree.map_id_labelAll 0 bs).symm, ?_⟩
  rw [List.append_nil]
  exact layout_ofBlocks bs

theorem yields_replace (p : Program) (bs : List Block) :
    p.Yields (.ok (p.replace bs)) (Tree.labelAll 0 bs) :=
  ⟨p.replace bs, rfl, ⟨(stores_ofBlocks bs).roots, (stores_ofBlocks bs).layout.of_slots rfl⟩, rfl⟩

section Move

variable {source dest parent : Path} {i : Nat} {t : Tree} {q' : Option NodeId} {ds es : List Tree}
  (h : p.Stores ts []) (hp : source.split? = some (parent, i))
  (hsd : dest.startsWith source = false)
  (hl : locate .root none ts parent.indices = .ok (q, cs)) (ht : cs[i]? = some t)
  (hd : locate .root none ts dest.indices = .ok (q', ds))
  (he : locate .root none (graft ts parent.indices (cs.eraseIdx i))
    (Forest.afterRemoval parent.indices i dest.indices) = .ok (q', es))
include h hl ht

/-- A move takes the block out of its list first; its nodes are loose until it stands in the other
one. -/
theorem Stores.detach : (p.modifySiblings q (·.eraseIdx i)).Stores
    (graft ts parent.indices (cs.eraseIdx i)) (t.nodes q) :=
  h.modifySiblings hl (by rw [List.eraseIdx_map]) (nodesAll_erase ht q)

include hp hsd hd he

/-- A move of a block that is there to a list that is there only depends on the index. -/
theorem Stores.move_eq (index : Nat) : p.move source dest index =
    if es.length < index then .error (.outOfRange dest index es.length)
    else .ok (((p.modifySiblings q (·.eraseIdx i)).modifySiblings q'
      (·.insertIdx index t.id)).modifyNode t.id ({ · with parent := q' })).bumped := by
  have hlt := (List.getElem?_eq_some_iff.mp ht).1
  have hleft := h.detach hl ht
  -- the check for a target below the block never fails once the path check has passed
  have hwithin : ∀ id, q' = some id → p.isWithin id t.id = false := by
    rintro id rfl
    exact hleft.isWithin_eq_false (Tree.owner_mem_of_locate he)
  simp only [Program.move, hp, hsd, h.resolve hp, h.resolveParent, hl, hd, bind, Except.bind,
    Tree.pick_eq_ok_iff.mpr ht, pure, Except.pure, Except.map, node, h.node_of_locate hl ht,
    (h.owns hl).siblings, List.length_map, Nat.not_le.mpr hlt, (hleft.owns he).siblings,
    if_false, Bool.false_eq_true]
  cases q' with
  | none => split_ifs <;> rfl
  | some id =>
    simp only [hwithin id rfl, Bool.false_eq_true, if_false]
    split_ifs <;> rfl

theorem Stores.move {index : Nat} (hi : index ≤ es.length) :
    p.Yields (p.move source dest index) (graft (graft ts parent.indices (cs.eraseIdx i))
      (Forest.afterRemoval parent.indices i dest.indices) (es.insertIdx index t)) := by
  have heq := h.move_eq hp hsd hl ht hd he index
  rw [if_neg (Nat.not_lt.mpr hi)] at heq
  refine ⟨_, heq, ?_, ?_⟩
  · rw [modifyNode_modifySiblings]
    refine (((h.detach hl ht).setParent q').modifySiblings he ?_ (nodesAll_insert hi t q')).bumped
    rw [List.map_insertIdx]
  · rw [Program.bumped, Program.modifyNode, revision_modifySiblings, revision_modifySiblings]

end Move

end Choreo.Program
