import Choreo.Proofs.Drag
import Choreo.Proofs.Program.Undo

/-! # Dragging along a sibling list

A drag answers each hover event with at most one pair of slots, and the program is reordered by the
pair. The drag counts the slots by itself: it never sees the list. `drag_stays_in_step` says that
the two stay together: after any events over items of the list the dragged block stands at the slot
that the drag has counted, and nothing but the place of this block has changed.

`Relisted` says what one reordering leaves of the program, and such steps compose
(`Relisted.trans`); the induction is on the events, with the list after the first of them. -/

namespace Choreo

/-! ### The slots of a drag -/

theorem Hover.target?_eq_some {h : Hover} {dragged target : Nat}
    (ht : h.target? dragged = some target) : target = h.hovered ∧ target ≠ dragged := by
  obtain ⟨d, hbetween, -, rfl⟩ := Hover.exists_passed ht
  exact ⟨rfl, (DragDirection.ne_of_between? hbetween).symm⟩

theorem dragMoves_append (dragged : Nat) (before after : List Hover) :
    dragMoves dragged (before ++ after) =
      dragMoves dragged before ++ dragMoves (dragSlot dragged before) after := by
  induction before generalizing dragged with
  | nil => rfl
  | cons h before ih =>
    rw [dragSlot, List.foldl_cons, ← dragSlot, List.cons_append, dragMoves, dragMoves]
    rcases h.target? dragged with _ | target
    · exact ih dragged
    · exact congrArg _ (ih target)

namespace Program

variable {p q r : Program} {parent : Path} {owner : Option NodeId} {ids ids' : List NodeId}

/-! ### One list in another order -/

/-- The program `q` is `p` with `ids` for the list that `owner` has. -/
structure Relisted (p q : Program) (owner : Option NodeId) (ids : List NodeId) : Prop where
  list : q.siblings owner = .ok ids
  lists : ∀ other, other ≠ owner → q.siblings other = p.siblings other
  nodes : ∀ id, owner ≠ some id → q.node? id = p.node? id
  ownerNode : ∀ id, owner = some id →
    q.node? id = (p.node? id).map fun n => { n with children := ids }
  size : q.slots.size = p.slots.size

theorem relisted_self (h : p.siblings owner = .ok ids) : p.Relisted p owner ids := by
  refine ⟨h, fun _ _ => rfl, fun _ _ => rfl, ?_, rfl⟩
  rintro id rfl
  obtain ⟨n, hn, rfl⟩ := map_eq_ok.mp h
  rw [node_eq_ok_iff.mp hn]
  rfl

theorem Relisted.trans (h : p.Relisted q owner ids) (h' : q.Relisted r owner ids') :
    p.Relisted r owner ids' := by
  refine ⟨h'.list, fun other hne => (h'.lists other hne).trans (h.lists other hne),
    fun id hne => (h'.nodes id hne).trans (h.nodes id hne), fun id ho => ?_,
    h'.size.trans h.size⟩
  rw [h'.ownerNode id ho, h.ownerNode id ho, Option.map_map]
  rfl

theorem relisted_modifySiblings (h : p.siblings owner = .ok ids)
    (f : List NodeId → List NodeId) : p.Relisted (p.modifySiblings owner f) owner (f ids) := by
  refine ⟨?_, fun other hne => ?_, fun id hne => ?_, ?_, size_slots_modifySiblings p owner f⟩
  · rw [siblings_modifySiblings, if_pos rfl, h]
    rfl
  · rw [siblings_modifySiblings, if_neg hne.symm]
  · rw [node?_modifySiblings, if_neg hne]
  · rintro id rfl
    obtain ⟨n, hn, rfl⟩ := map_eq_ok.mp h
    rw [node?_modifySiblings, if_pos rfl, node_eq_ok_iff.mp hn]
    rfl

theorem Relisted.bumped (h : p.Relisted q owner ids) : p.Relisted q.bumped owner ids :=
  ⟨h.list, h.lists, h.nodes, h.ownerNode, h.size⟩

/-- **One reordering** between slots of the list succeeds and changes nothing but this list, which
the path still names. -/
theorem Reachable.reorder_relisted (hp : p.Reachable) {source target : Nat}
    (howner : p.resolveParent parent = .ok owner) (hids : p.siblings owner = .ok ids)
    {moved : NodeId} (hmoved : ids[source]? = some moved) (htarget : target < ids.length) :
    ∃ q, p.reorder parent source target = .ok q ∧ q.Reachable ∧
      q.resolveParent parent = .ok owner ∧
      p.Relisted q owner ((ids.eraseIdx source).insertIdx target moved) ∧
      q.revision = p.revision + 1 := by
  obtain ⟨ts, hts⟩ := hp.stores
  obtain ⟨cs, hl, rfl⟩ := hts.locate_of_resolveParent howner hids
  have ht := hmoved
  rw [List.getElem?_map] at ht
  obtain ⟨t, ht, -⟩ := Option.map_eq_some_iff.mp ht
  rw [List.length_map] at htarget
  obtain ⟨q, hq, hstores, hrevision⟩ := hts.reorder hl ht htarget
  refine ⟨q, hq, hp.apply (e := .reorder parent source target) trivial hq, ?_, ?_, hrevision⟩
  · rw [hstores.resolveParent, Tree.locate_graft hl]
    rfl
  · obtain ⟨owner', ids, moved', howner', hids', hmoved', rfl⟩ := reorder_eq_ok hq
    obtain rfl : owner = owner' := Except.ok.inj (howner.symm.trans howner')
    obtain rfl := Except.ok.inj (hids.symm.trans hids')
    obtain rfl := Option.some.inj (hmoved.symm.trans hmoved')
    exact (relisted_modifySiblings hids
      fun ids => (ids.eraseIdx source).insertIdx target moved).bumped

/-! ### The moves of a drag -/

/-- The program after the moves between slots of the sibling list at `parent`. -/
def reorderAll (p : Program) (parent : Path) (moves : List (Nat × Nat)) :
    Except EditError Program :=
  moves.foldlM (fun p move => p.reorder parent move.1 move.2) p

/-- After the moves of a drag from the slot `dragged` the program is `q`: the list has the block of
that slot at the slot `slot`, and the other blocks in their order. -/
structure Dragged (p : Program) (parent : Path) (owner : Option NodeId) (ids : List NodeId)
    (dragged slot : Nat) (q : Program) (ids' : List NodeId) : Prop where
  reachable : q.Reachable
  named : q.resolveParent parent = .ok owner
  relisted : p.Relisted q owner ids'
  length : ids'.length = ids.length
  inRange : slot < ids'.length
  block : ids'[slot]? = ids[dragged]?
  others : ids'.eraseIdx slot = ids.eraseIdx dragged

theorem dragged_self (hp : p.Reachable) (howner : p.resolveParent parent = .ok owner)
    (hids : p.siblings owner = .ok ids) {dragged : Nat} (hd : dragged < ids.length) :
    p.Dragged parent owner ids dragged dragged p ids :=
  ⟨hp, howner, relisted_self hids, rfl, hd, rfl, rfl⟩

theorem Dragged.trans {ids'' : List NodeId} {first slot last : Nat}
    (h : p.Dragged parent owner ids first slot q ids')
    (h' : q.Dragged parent owner ids' slot last r ids'') :
    p.Dragged parent owner ids first last r ids'' :=
  ⟨h'.reachable, h'.named, h.relisted.trans h'.relisted, h'.length.trans h.length, h'.inRange,
    h'.block.trans h.block, h'.others.trans h.others⟩

/-- The block goes to the slot that the move names, also when the removal shifts the slots up to
it. -/
theorem Reachable.dragged_reorder (hp : p.Reachable) {source target : Nat}
    (howner : p.resolveParent parent = .ok owner) (hids : p.siblings owner = .ok ids)
    (hsource : source < ids.length) (htarget : target < ids.length) :
    ∃ q ids', p.reorder parent source target = .ok q ∧
      p.Dragged parent owner ids source target q ids' ∧ q.revision = p.revision + 1 := by
  have hmoved : ids[source]? = some ids[source] := List.getElem?_eq_getElem hsource
  obtain ⟨q, hq, hreachable, hnamed, hrelisted, hrevision⟩ :=
    hp.reorder_relisted howner hids hmoved htarget
  have hleft : (ids.eraseIdx source).length + 1 = ids.length := by
    rw [List.length_eraseIdx_of_lt hsource]
    omega
  have hlength : ((ids.eraseIdx source).insertIdx target ids[source]).length = ids.length := by
    rw [List.length_insertIdx_of_le_length (by omega), hleft]
  refine ⟨q, _, hq, ⟨hreachable, hnamed, hrelisted, hlength, hlength ▸ htarget, ?_, ?_⟩,
    hrevision⟩
  · rw [hmoved, List.getElem?_insertIdx_self, if_pos (by omega)]
  · rw [List.eraseIdx_insertIdx_self]

/-- The induction is on the events: the first move, if there is one, gives a list of the same length
with the block at the slot that the other events start from. -/
theorem Reachable.dragged_moves (hp : p.Reachable) (howner : p.resolveParent parent = .ok owner)
    (hids : p.siblings owner = .ok ids) {dragged : Nat} (hd : dragged < ids.length)
    {events : List Hover} (hevents : ∀ h ∈ events, h.hovered < ids.length) :
    ∃ q ids', p.reorderAll parent (dragMoves dragged events) = .ok q ∧
      p.Dragged parent owner ids dragged (dragSlot dragged events) q ids' ∧
      q.revision = p.revision + (dragMoves dragged events).length := by
  induction events generalizing p ids dragged with
  | nil => exact ⟨p, ids, rfl, dragged_self hp howner hids hd, rfl⟩
  | cons h events ih =>
    obtain ⟨hh, hrest⟩ := List.forall_mem_cons.mp hevents
    rw [dragMoves, dragSlot, List.foldl_cons, ← dragSlot]
    rcases ht : h.target? dragged with _ | target
    · exact ih hp howner hids hd hrest
    · obtain ⟨rfl, -⟩ := Hover.target?_eq_some ht
      obtain ⟨q, ids', hq, hfirst, hrevision⟩ := hp.dragged_reorder howner hids hd hh
      rw [← hfirst.length] at hrest
      obtain ⟨r, ids'', hr, hlast, hmoves⟩ :=
        ih hfirst.reachable hfirst.named hfirst.relisted.list hfirst.inRange hrest
      refine ⟨r, ids'', ?_, hfirst.trans hlast, ?_⟩
      · rw [reorderAll, List.foldlM_cons]
        exact bind_eq_ok.mpr ⟨q, hq, hr⟩
      · rw [hmoves, hrevision, List.length_cons]
        omega

/-- **A drag stays in step with the list that it reorders.** The events hover over items of the
list, at any height. Whatever the events so far were, the reorderings succeed; then the path still
names the list, the block that was dragged stands at the slot that the drag has counted, the other
blocks of the list keep their order, and every other node and list is as it was. -/
theorem drag_stays_in_step (hp : p.Reachable)
    (howner : p.resolveParent parent = .ok owner) (hids : p.siblings owner = .ok ids)
    {dragged : Nat} (hd : dragged < ids.length) {events : List Hover}
    (hevents : ∀ h ∈ events, h.hovered < ids.length) :
    ∀ before after, events = before ++ after →
      dragMoves dragged events =
        dragMoves dragged before ++ dragMoves (dragSlot dragged before) after ∧
      ∃ q ids', p.reorderAll parent (dragMoves dragged before) = .ok q ∧
        q.resolveParent parent = .ok owner ∧ q.siblings owner = .ok ids' ∧
        dragSlot dragged before < ids'.length ∧
        ids'[dragSlot dragged before]? = ids[dragged]? ∧
        q.resolve (parent.child (dragSlot dragged before)) = p.resolve (parent.child dragged) ∧
        ids'.eraseIdx (dragSlot dragged before) = ids.eraseIdx dragged ∧
        (∀ id, owner ≠ some id → q.node? id = p.node? id) ∧
        (∀ id, owner = some id →
          q.node? id = (p.node? id).map fun n => { n with children := ids' }) ∧
        (∀ other, other ≠ owner → q.siblings other = p.siblings other) ∧
        q.slots.size = p.slots.size ∧
        q.revision = p.revision + (dragMoves dragged before).length := by
  rintro before after rfl
  have hbefore : ∀ h ∈ before, h.hovered < ids.length := fun h hh =>
    hevents h (List.mem_append_left after hh)
  obtain ⟨q, ids', hq, h, hrevision⟩ := hp.dragged_moves howner hids hd hbefore
  refine ⟨dragMoves_append dragged before after, q, ids', hq, h.named, h.relisted.list,
    h.inRange, h.block, ?_, h.others, h.relisted.nodes, h.relisted.ownerNode, h.relisted.lists,
    h.relisted.size, hrevision⟩
  obtain ⟨ts, hts⟩ := hp.stores
  obtain ⟨us, hus⟩ := h.reachable.stores
  have hblock : ids[dragged]? = some ids[dragged] := List.getElem?_eq_getElem hd
  rw [hts.resolve_child howner hids hblock,
    hus.resolve_child h.named h.relisted.list (h.block.trans hblock)]

/-- The list of a repeat at `/0` with three items below it. The first item goes down by two slots
and up again by one; a height that is no number moves nothing. -/
theorem wave_dragged_down_and_up :
    ∃ p q : Program, p.Reachable ∧ p.siblings (some 0) = .ok [1, 2, 3] ∧
      dragMoves 0 [⟨2, 125, ⟨100, 40⟩⟩, ⟨0, 0 / 0, ⟨100, 40⟩⟩, ⟨1, 110, ⟨100, 40⟩⟩] =
        [(0, 2), (2, 1)] ∧
      p.reorderAll ⟨[0]⟩ [(0, 2), (2, 1)] = .ok q ∧ q.siblings (some 0) = .ok [2, 1, 3] ∧
      q.resolve ⟨[0, 1]⟩ = .ok 1 ∧ q.node? 4 = p.node? 4 := by
  let p : Program := ofBlocks
    [⟨.loop, .empty, [.ofKind .wave, .ofKind .pause, .ofKind .moveForward]⟩, .ofKind .pause]
  have hp : p.Reachable :=
    Reachable.ofBlocks (by simp [Block.AllValid, Block.Valid, Block.ofKind, Kind.isContainer])
  have howner : p.resolveParent ⟨[0]⟩ = .ok (some 0) := rfl
  have hids : p.siblings (some 0) = .ok [1, 2, 3] := rfl
  have hfirst : 0 < [1, 2, 3].length := by decide
  have hevents : ∀ h ∈ [Hover.mk 2 125 ⟨100, 40⟩, ⟨0, 0 / 0, ⟨100, 40⟩⟩, ⟨1, 110, ⟨100, 40⟩⟩],
      h.hovered < [1, 2, 3].length := by simp
  obtain ⟨-, q, ids', hq, -, -, -, -, -, -, hnodes, -⟩ :=
    drag_stays_in_step hp howner hids hfirst hevents _ [] (List.append_nil _).symm
  have hmoves : dragMoves 0 [⟨2, 125, ⟨100, 40⟩⟩, ⟨0, 0 / 0, ⟨100, 40⟩⟩, ⟨1, 110, ⟨100, 40⟩⟩] =
      [(0, 2), (2, 1)] := by decide
  rw [hmoves] at hq
  cases hq
  exact ⟨_, _, hp, rfl, hmoves, rfl, rfl, rfl, hnodes 4 (by decide)⟩

end Program

end Choreo
