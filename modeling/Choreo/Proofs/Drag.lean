import Choreo.Drag
import Choreo.Proofs.Number.Single
import Mathlib.Data.Finset.Card

/-! # Dragging with the pointer at rest

The dragged item takes the place of the one under the pointer, and then another item is under the
pointer, at the same height. If the middles of the items stand in the order of their slots, this does
not go back and forth: what was passed on the way down has its middle above the pointer, what is
passed on the way up has it below (`Resting.lt_of_passed`), so from a slot that was reached on the
way down no way up starts, nor the other way round (`Resting.between?_eq`). The induction is on the
events, with the event that reached the slot at hand. -/

namespace Choreo

variable {y : Float32} {events : List Hover} {e h : Hover} {d : DragDirection} {dragged target : Nat}

/-! ### One event -/

theorem DragDirection.between?_eq_down {source target : Nat} :
    between? source target = some .down ↔ source < target := by
  rw [between?, ← Nat.compare_eq_lt]
  rcases compare source target with _ | _ | _ <;> simp

theorem DragDirection.between?_eq_up {source target : Nat} :
    between? source target = some .up ↔ target < source := by
  rw [between?, ← Nat.compare_eq_gt]
  rcases compare source target with _ | _ | _ <;> simp

theorem DragDirection.between?_trans {a b c : Nat} (hab : between? a b = some d)
    (hbc : between? b c = some d) : between? a c = some d := by
  cases d
  · rw [between?_eq_up] at *
    exact hbc.trans hab
  · rw [between?_eq_down] at *
    exact hab.trans hbc

theorem DragDirection.ne_of_between? {a b : Nat} (h : between? a b = some d) : a ≠ b := by
  rintro rfl
  rw [between?, Nat.compare_eq_eq.mpr rfl] at h
  exact nomatch h

/-- An event moves the dragged item in the direction of the item under the pointer, whose middle the
pointer has passed in this direction. -/
theorem Hover.exists_passed (ht : h.target? dragged = some target) :
    ∃ d, DragDirection.between? dragged h.hovered = some d ∧ d.passed h.pointer h.bounds = true ∧
      target = h.hovered := by
  rw [Hover.target?] at ht
  rcases hd : DragDirection.between? dragged h.hovered with _ | d <;> rw [hd] at ht
  · exact nomatch ht
  · simp only at ht
    split_ifs at ht with hp
    exact ⟨d, rfl, hp, (Option.some.inj ht).symm⟩

/-- **An event moves nothing a second time**: the item stands where the event can bring it. -/
theorem target?_dragSlot (dragged : Nat) (before : List Hover) (h : Hover) :
    h.target? (dragSlot dragged (before ++ [h])) = none := by
  rw [dragSlot, List.foldl_append, List.foldl_cons, List.foldl_nil, ← dragSlot]
  rcases ht : h.target? (dragSlot dragged before) with _ | target
  · exact ht
  · obtain ⟨-, -, -, rfl⟩ := Hover.exists_passed ht
    rw [Option.getD_some, Hover.target?, DragDirection.between?, Nat.compare_eq_eq.mpr rfl]

/-! ### The moves of a drag -/

theorem dragMoves_cons_of_none {rest : List Hover} (ht : h.target? dragged = none) :
    dragMoves dragged (h :: rest) = dragMoves dragged rest := by
  rw [dragMoves, ht]

theorem dragMoves_cons_of_some {rest : List Hover} (ht : h.target? dragged = some target) :
    dragMoves dragged (h :: rest) = (dragged, target) :: dragMoves target rest := by
  rw [dragMoves, ht]

theorem dragMoves_chain (dragged : Nat) (events : List Hover) :
    (∀ m ∈ (dragMoves dragged events).head?, m.1 = dragged) ∧
      (dragMoves dragged events).IsChain fun m m' => m'.1 = m.2 := by
  induction events generalizing dragged with
  | nil => exact ⟨nofun, List.isChain_nil⟩
  | cons h rest ih =>
    rcases ht : h.target? dragged with _ | target
    · rw [dragMoves_cons_of_none ht]
      exact ih dragged
    · rw [dragMoves_cons_of_some ht, List.isChain_cons]
      refine ⟨fun m hm => ?_, (ih target).1, (ih target).2⟩
      rw [List.head?_cons, Option.mem_some_iff] at hm
      rw [← hm]

/-- The slots that the dragged item has, one after the other, are distinct if all moves go the same
way. -/
theorem nodup_slots (hd : ∀ m ∈ dragMoves dragged events, DragDirection.between? m.1 m.2 = some d) :
    (dragged :: (dragMoves dragged events).map Prod.snd).Nodup := by
  suffices hp : (dragged :: (dragMoves dragged events).map Prod.snd).Pairwise
      fun a b => DragDirection.between? a b = some d from
    hp.imp DragDirection.ne_of_between?
  induction events generalizing dragged with
  | nil => exact List.pairwise_singleton _ _
  | cons h rest ih =>
    rcases ht : h.target? dragged with _ | target
    · rw [dragMoves_cons_of_none ht] at hd ⊢
      exact ih hd
    · rw [dragMoves_cons_of_some ht, List.forall_mem_cons] at hd
      rw [dragMoves_cons_of_some ht, List.map_cons]
      have hrest := ih hd.2
      refine hrest.cons fun slot hslot => ?_
      rcases List.mem_cons.mp hslot with rfl | hslot
      · exact hd.1
      · exact DragDirection.between?_trans hd.1 ((List.pairwise_cons.mp hrest).1 slot hslot)

theorem snd_mem_of_mem_dragMoves {m : Nat × Nat} (hm : m ∈ dragMoves dragged events) :
    m.2 ∈ events.map Hover.hovered := by
  induction events generalizing dragged with
  | nil => exact nomatch hm
  | cons h rest ih =>
    rw [List.map_cons, List.mem_cons]
    rcases ht : h.target? dragged with _ | target
    · rw [dragMoves_cons_of_none ht] at hm
      exact Or.inr (ih hm)
    · rw [dragMoves_cons_of_some ht] at hm
      rcases List.mem_cons.mp hm with rfl | hm
      · obtain ⟨-, -, -, rfl⟩ := Hover.exists_passed ht
        exact Or.inl rfl
      · exact Or.inr (ih hm)

/-! ### The pointer at rest -/

/-- The pointer stays at the height `y`, and the middles of the items under it stand in the order of
their slots, as far as they are numbers. -/
structure Resting (y : Float32) (events : List Hover) : Prop where
  pointer : ∀ h ∈ events, h.pointer = y
  middles : ∀ h ∈ events, ∀ h' ∈ events, h.hovered ≤ h'.hovered →
    h.bounds.midpoint ≤ h'.bounds.midpoint ∨
      h.bounds.midpoint.isNaN = true ∨ h'.bounds.midpoint.isNaN = true

theorem Resting.lt_of_passed (hr : Resting y events) (he : e ∈ events) (hh : h ∈ events)
    (hdown : DragDirection.down.passed y e.bounds = true)
    (hup : DragDirection.up.passed y h.bounds = true) : e.hovered < h.hovered := by
  have hlt : e.bounds.midpoint < h.bounds.midpoint :=
    Single.lt_trans (of_decide_eq_true hdown) (of_decide_eq_true hup)
  obtain ⟨⟨hnumber, hnumber'⟩, -⟩ := Single.lt_iff.mp hlt
  by_contra hle
  rcases hr.middles h hh e he (Nat.le_of_not_lt hle) with hmid | hnan | hnan
  · exact Single.not_le_of_lt hlt hmid
  · exact hnumber' (Single.isNaN_iff.mp hnan)
  · exact hnumber (Single.isNaN_iff.mp hnan)

/-- **From a slot that was reached in one direction** a move goes on in this direction. -/
theorem Resting.between?_eq (hr : Resting y events) (he : e ∈ events) (hh : h ∈ events)
    (hd : d.passed y e.bounds = true) (ht : h.target? e.hovered = some target) :
    DragDirection.between? e.hovered h.hovered = some d ∧ d.passed y h.bounds = true ∧
      target = h.hovered := by
  obtain ⟨d', hbetween, hpassed, rfl⟩ := Hover.exists_passed ht
  rw [hr.pointer h hh] at hpassed
  suffices d' = d from this ▸ ⟨hbetween, hpassed, rfl⟩
  cases d <;> cases d'
  · rfl
  · have := hr.lt_of_passed hh he hpassed hd
    exact absurd (DragDirection.between?_eq_down.mp hbetween) (Nat.lt_asymm this)
  · have := hr.lt_of_passed he hh hd hpassed
    exact absurd (DragDirection.between?_eq_up.mp hbetween) (Nat.lt_asymm this)
  · rfl

theorem Resting.moves_on (hr : Resting y events) {rest : List Hover} (hrest : rest ⊆ events)
    (he : e ∈ events) (hd : d.passed y e.bounds = true) :
    ∀ m ∈ dragMoves e.hovered rest, DragDirection.between? m.1 m.2 = some d := by
  induction rest generalizing e with
  | nil => exact nofun
  | cons h rest ih =>
    obtain ⟨hh, hrest⟩ := List.cons_subset.mp hrest
    rcases ht : h.target? e.hovered with _ | target
    · rw [dragMoves_cons_of_none ht]
      exact ih hrest he hd
    · obtain ⟨hbetween, hpassed, rfl⟩ := hr.between?_eq he hh hd ht
      rw [dragMoves_cons_of_some ht, List.forall_mem_cons]
      exact ⟨hbetween, ih hrest hh hpassed⟩

theorem Resting.exists_direction (hr : Resting y events) {rest : List Hover}
    (hrest : rest ⊆ events) (dragged : Nat) :
    ∃ d, ∀ m ∈ dragMoves dragged rest, DragDirection.between? m.1 m.2 = some d := by
  induction rest with
  | nil => exact ⟨.down, nofun⟩
  | cons h rest ih =>
    obtain ⟨hh, hrest⟩ := List.cons_subset.mp hrest
    rcases ht : h.target? dragged with _ | target
    · rw [dragMoves_cons_of_none ht]
      exact ih hrest
    · obtain ⟨d, hbetween, hpassed, rfl⟩ := Hover.exists_passed ht
      rw [hr.pointer h hh] at hpassed
      rw [dragMoves_cons_of_some ht]
      exact ⟨d, List.forall_mem_cons.mpr ⟨hbetween, hr.moves_on hrest hh hpassed⟩⟩

/-- **A pointer at rest does not make items go back and forth.** All moves go in one direction, each
from the slot that the one before reached, and no slot is reached twice; so there are no more moves
than slots under the pointer. An event that comes again moves nothing. -/
theorem resting_pointer_moves_one_way (hr : Resting y events) (dragged : Nat) :
    (∃ d, ∀ m ∈ dragMoves dragged events, DragDirection.between? m.1 m.2 = some d) ∧
    (∀ m ∈ (dragMoves dragged events).head?, m.1 = dragged) ∧
    ((dragMoves dragged events).IsChain fun m m' => m'.1 = m.2) ∧
    (dragged :: (dragMoves dragged events).map Prod.snd).Nodup ∧
    (dragMoves dragged events).length ≤ (events.map Hover.hovered).toFinset.card ∧
    ∀ (before : List Hover) (h : Hover),
      h.target? (dragSlot dragged (before ++ [h])) = none := by
  obtain ⟨d, hd⟩ := hr.exists_direction (List.Subset.refl _) dragged
  have hnodup := nodup_slots hd
  refine ⟨⟨d, hd⟩, (dragMoves_chain dragged events).1, (dragMoves_chain dragged events).2, hnodup,
    ?_, target?_dragSlot dragged⟩
  rw [← List.length_map Prod.snd, ← List.toFinset_card_of_nodup hnodup.of_cons]
  refine Finset.card_le_card fun slot hslot => ?_
  rw [List.mem_toFinset] at hslot ⊢
  obtain ⟨m, hm, rfl⟩ := List.mem_map.mp hslot
  exact snd_mem_of_mem_dragMoves hm

/-- Events over four items of height 40, with the pointer over the upper half of the last, so that
the middles of the others are above it. One of the events comes with a height that is no number. -/
def hoversAtRest : List Hover :=
  [⟨1, 130, ⟨40, 40⟩⟩, ⟨0, 130, ⟨0, 40⟩⟩, ⟨2, 130, ⟨80, 0 / 0⟩⟩, ⟨2, 130, ⟨80, 40⟩⟩,
    ⟨3, 130, ⟨120, 40⟩⟩, ⟨1, 130, ⟨40, 40⟩⟩]

/-- The first item goes down by one and by one more, and then it stays. -/
theorem dragged_once_over_two_items : Resting 130 hoversAtRest ∧
    dragMoves 0 hoversAtRest = [(0, 1), (1, 2)] ∧ [0, 1, 2].Nodup ∧
    (dragMoves 0 hoversAtRest).length ≤ 4 := by
  have hr : Resting 130 hoversAtRest := ⟨by simp [hoversAtRest], by decide⟩
  have hmoves : dragMoves 0 hoversAtRest = [(0, 1), (1, 2)] := by decide
  obtain ⟨-, -, -, hnodup, hcard, -⟩ := resting_pointer_moves_one_way hr 0
  rw [hmoves] at hnodup
  exact ⟨hr, hmoves, hnodup, hcard⟩

end Choreo
