import Choreo.Proofs.Program.WellFormed

/-! # What edits do to the nodes

An edit that succeeds fills fresh slots or clears slots, changes up to two sibling lists, or sets a
parameter (`insert_eq_ok` to `setParam_eq_ok`). The other lemmas say what each of these steps leaves
alone: the nodes of other slots, the other lists, and the nodes that a list change does not name. -/

namespace Choreo.Program

variable {p q r : Program} {owner : Option NodeId} {id x : NodeId}

/-! ### Edits that succeed -/

theorem node_eq_ok_iff {n : Node} : p.node id = .ok n ↔ p.node? id = some n := by
  rw [node]
  rcases p.node? id with _ | m <;> simp

theorem insert_eq_ok {parent : Path} {index : Nat} {b : Block}
    (h : p.insert parent index b = .ok q) : ∃ owner ids, p.resolveParent parent = .ok owner ∧
      p.siblings owner = .ok ids ∧
      q = ((p.place owner b).modifySiblings owner (·.insertIdx index p.slots.size)).bumped := by
  obtain ⟨owner, howner, h⟩ := bind_eq_ok.mp h
  obtain ⟨ids, hids, h⟩ := bind_eq_ok.mp h
  split_ifs at h
  · cases h
  · cases h
    exact ⟨owner, ids, howner, hids, rfl⟩

theorem remove_eq_ok {parent : Path} {index : Nat} (h : p.remove parent index = .ok q) :
    ∃ owner ids top, p.resolveParent parent = .ok owner ∧ p.siblings owner = .ok ids ∧
      ids[index]? = some top ∧
      q = ((p.modifySiblings owner (·.eraseIdx index)).clear top).bumped := by
  obtain ⟨owner, howner, h⟩ := bind_eq_ok.mp h
  obtain ⟨ids, hids, h⟩ := bind_eq_ok.mp h
  rcases htop : ids[index]? with _ | top
  · rw [htop] at h
    cases h
  · rw [htop] at h
    cases h
    exact ⟨owner, ids, top, howner, hids, htop, rfl⟩

theorem reorder_eq_ok {parent : Path} {source target : Nat}
    (h : p.reorder parent source target = .ok q) :
    ∃ owner ids moved, p.resolveParent parent = .ok owner ∧ p.siblings owner = .ok ids ∧
      ids[source]? = some moved ∧
      q = (p.modifySiblings owner fun ids =>
        (ids.eraseIdx source).insertIdx target moved).bumped := by
  obtain ⟨owner, howner, h⟩ := bind_eq_ok.mp h
  obtain ⟨ids, hids, h⟩ := bind_eq_ok.mp h
  rcases hmoved : ids[source]? with _ | moved
  · rw [hmoved] at h
    cases h
  · rw [hmoved] at h
    simp only at h
    split_ifs at h
    · cases h
    · cases h
      exact ⟨owner, ids, moved, howner, hids, hmoved, rfl⟩

theorem setParam_eq_ok {path : Path} {param : Param} {value : Float}
    (h : p.setParam path param value = .ok q) :
    ∃ id n s, p.resolve path = .ok id ∧ p.node? id = some n ∧
      n.settings.set n.kind param value = .ok s ∧
      q = (p.modifyNode id ({ · with settings := s })).bumped := by
  obtain ⟨id, hid, h⟩ := bind_eq_ok.mp h
  obtain ⟨n, hn, h⟩ := bind_eq_ok.mp h
  rcases hs : n.settings.set n.kind param value with e | s
  · rw [hs] at h
    cases h
  · rw [hs] at h
    cases h
    exact ⟨id, n, s, hid, node_eq_ok_iff.mp hn, hs, rfl⟩

theorem Stores.resolve_eq_ok {ts : List Tree} (h : p.Stores ts []) {path : Path}
    (hid : p.resolve path = .ok id) : ∃ parent i n ids, path.split? = some (parent, i) ∧
      p.node? id = some n ∧ p.resolveParent parent = .ok n.parent ∧
      p.siblings n.parent = .ok ids ∧ ids[i]? = some id := by
  rcases hp : path.split? with _ | ⟨parent, i⟩
  · rw [split?_eq_none_iff] at hp
    rw [hp, resolve_root] at hid
    cases hid
  · rw [h.resolve hp] at hid
    obtain ⟨⟨o, cs⟩, hl, hid⟩ := bind_eq_ok.mp hid
    obtain ⟨t, ht, hid⟩ := bind_eq_ok.mp hid
    cases hid
    have ht := Tree.pick_eq_ok_iff.mp ht
    refine ⟨parent, i, _, cs.map Tree.id, rfl, h.node_of_locate hl ht, ?_, (h.owns hl).siblings, ?_⟩
    · rw [h.resolveParent, hl]
      rfl
    · rw [List.getElem?_map, ht]
      rfl

theorem move_eq_ok {source dest : Path} {index : Nat} (h : p.move source dest index = .ok q) :
    ∃ parent i moved n destOwner, source.split? = some (parent, i) ∧
      p.resolve source = .ok moved ∧ p.node? moved = some n ∧
      p.resolveParent dest = .ok destOwner ∧
      q = (((p.modifySiblings n.parent (·.eraseIdx i)).modifySiblings destOwner
        (·.insertIdx index moved)).modifyNode moved ({ · with parent := destOwner })).bumped := by
  unfold Program.move at h
  rcases hp : source.split? with _ | ⟨parent, i⟩
  · rw [hp] at h
    cases h
  rw [hp] at h
  simp only at h
  split_ifs at h
  · cases h
  obtain ⟨moved, hmoved, h⟩ := bind_eq_ok.mp h
  obtain ⟨destOwner, hdest, h⟩ := bind_eq_ok.mp h
  -- the check for a destination below the block says nothing about the result
  have hrest : (do
      let oldParent := (← p.node moved).parent
      if (← p.siblings oldParent).length ≤ i then throw (EditError.brokenLink moved)
      let detached := p.modifySiblings oldParent (·.eraseIdx i)
      let len := (← detached.siblings destOwner).length
      if len < index then throw (.outOfRange dest index len)
      return ((detached.modifySiblings destOwner (·.insertIdx index moved)).modifyNode moved
        ({ · with parent := destOwner })).bumped : Except EditError Program) = .ok q := by
    rcases destOwner with _ | o
    · exact h
    · simp only at h
      split_ifs at h
      · cases h
      · exact h
  obtain ⟨n, hn, hrest⟩ := bind_eq_ok.mp hrest
  obtain ⟨ids, -, hrest⟩ := bind_eq_ok.mp hrest
  split_ifs at hrest
  · cases hrest
  obtain ⟨ids', -, hrest⟩ := bind_eq_ok.mp hrest
  simp only at hrest
  split_ifs at hrest
  · cases hrest
  · cases hrest
    exact ⟨parent, i, moved, n, destOwner, rfl, hmoved, node_eq_ok_iff.mp hn, hdest, rfl⟩

/-! ### Nodes and lists after a step -/

theorem node?_modifySiblings (p : Program) (owner : Option NodeId)
    (f : List NodeId → List NodeId) (id : NodeId) : (p.modifySiblings owner f).node? id =
      if owner = some id then (p.node? id).map fun n => { n with children := f n.children }
      else p.node? id := by
  cases owner with
  | none => rfl
  | some up =>
    rw [modifySiblings, node?_modifyNode]
    simp only [Option.some.injEq]

theorem siblings_modifySiblings (p : Program) (owner other : Option NodeId)
    (f : List NodeId → List NodeId) : (p.modifySiblings owner f).siblings other =
      if owner = other then (p.siblings other).map f else p.siblings other := by
  rcases other with _ | id
  · cases owner <;> rfl
  · rw [siblings, siblings, node, node, node?_modifySiblings]
    split_ifs
    · cases p.node? id <;> rfl
    · rfl

theorem modifySiblings_modifySiblings (p : Program) (owner : Option NodeId)
    (f g : List NodeId → List NodeId) :
    (p.modifySiblings owner f).modifySiblings owner g = p.modifySiblings owner (g ∘ f) := by
  rcases owner with _ | id
  · rfl
  · exact modifyNode_modifyNode p id _ _

theorem modifyNode_self {n : Node} {f : Node → Node} (hn : p.node? id = some n)
    (hf : f n = n) : p.modifyNode id f = p := by
  have hslots : p.slots.modify id (Option.map f) = p.slots := by
    refine Array.ext_getElem? fun i => ?_
    rw [Array.getElem?_modify]
    split_ifs with hi
    · subst hi
      rw [node?, Option.join_eq_some_iff] at hn
      rw [hn, Option.map_some, Option.map_some, hf]
    · rfl
  rw [modifyNode, hslots]

theorem siblings_modifyNode {f : Node → Node} (hf : ∀ n, (f n).children = n.children)
    (p : Program) (id : NodeId) (owner : Option NodeId) :
    (p.modifyNode id f).siblings owner = p.siblings owner := by
  rcases owner with _ | up
  · rfl
  · rw [siblings, siblings, node, node, node?_modifyNode]
    split_ifs
    · rcases p.node? up with _ | n
      · rfl
      · exact congrArg Except.ok (hf n)
    · rfl

theorem node?_place {parent : Option NodeId} {b : Block} {n : Node} (h : p.node? id = some n) :
    (p.place parent b).node? id = some n := by
  have hlt : id < p.slots.size := by
    by_contra hge
    rw [node?, Array.getElem?_eq_none (Nat.not_lt.mp hge)] at h
    cases h
  rw [place, node?, Array.getElem?_append_left hlt]
  exact h

theorem siblings_place {parent owner : Option NodeId} {b : Block} {ids : List NodeId}
    (h : p.siblings owner = .ok ids) : (p.place parent b).siblings owner = .ok ids := by
  rcases siblings_eq_ok_iff.mp h with ⟨rfl, hroots⟩ | ⟨up, n, rfl, hn, hc⟩
  · exact siblings_eq_ok_iff.mpr (Or.inl ⟨rfl, hroots⟩)
  · exact siblings_eq_ok_iff.mpr (Or.inr ⟨up, n, rfl, node?_place hn, hc⟩)

/-- What emptying one slot preserves, clearing a subtree preserves. -/
theorem clearWithin_preserves {P : Array (Option Node) → Prop}
    (hP : ∀ slots id, P slots → P (slots.setIfInBounds id none)) (fuel : Nat) :
    ∀ (slots : Array (Option Node)) (top : NodeId), P slots → P (clearWithin fuel slots top) := by
  induction fuel with
  | zero => exact fun _ _ h => h
  | succ fuel ih =>
    intro slots top h
    rw [clearWithin]
    rcases slots[top]?.join with _ | n
    · exact h
    · exact List.foldlRecOn n.children (clearWithin fuel) (hP slots top h)
        fun left hleft c _ => ih left c hleft

theorem node?_of_clear {top : NodeId} {n : Node} (h : (p.clear top).node? id = some n) :
    p.node? id = some n := by
  refine clearWithin_preserves
    (P := fun slots => slots[id]?.join = some n → p.node? id = some n) ?_ _ _ top (fun h => h) h
  intro slots x hslots hx
  rw [join_setIfInBounds_none] at hx
  split_ifs at hx
  exact hslots hx

theorem siblings_of_clear {top : NodeId} {owner : Option NodeId} {ids : List NodeId}
    (h : (p.clear top).siblings owner = .ok ids) : p.siblings owner = .ok ids := by
  rcases siblings_eq_ok_iff.mp h with ⟨rfl, hroots⟩ | ⟨up, n, rfl, hn, hc⟩
  · exact siblings_eq_ok_iff.mpr (Or.inl ⟨rfl, hroots⟩)
  · exact siblings_eq_ok_iff.mpr (Or.inr ⟨up, n, rfl, node?_of_clear hn, hc⟩)

/-! ### The number of slots -/

@[simp] theorem size_slots_clear (p : Program) (top : NodeId) :
    (p.clear top).slots.size = p.slots.size :=
  clearWithin_preserves (P := fun slots => slots.size = p.slots.size)
    (fun _ _ h => Array.size_setIfInBounds.trans h) _ _ top rfl

@[simp] theorem size_slots_modifyNode (p : Program) (id : NodeId) (f : Node → Node) :
    (p.modifyNode id f).slots.size = p.slots.size :=
  Array.size_modify

@[simp] theorem size_slots_modifySiblings (p : Program) (owner : Option NodeId)
    (f : List NodeId → List NodeId) : (p.modifySiblings owner f).slots.size = p.slots.size := by
  cases owner with
  | none => rfl
  | some id => exact size_slots_modifyNode p id _

@[simp] theorem size_slots_place (p : Program) (parent : Option NodeId) (b : Block) :
    (p.place parent b).slots.size = p.slots.size + b.size := by
  simp only [place, Array.size_append, List.size_toArray, List.length_map, Tree.length_nodesOf]

@[simp] theorem slots_bumped (p : Program) : p.bumped.slots = p.slots := rfl

end Choreo.Program
