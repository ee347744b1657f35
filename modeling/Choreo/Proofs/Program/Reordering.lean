import Choreo.Proofs.Program.Walk

/-! # Reordering as a move

A block that is reordered leaves its list and comes back to it, and so does a block that is moved to
the list where it stands. Both edits read the target index in the shortened list, so they give one
and the same program (`Stores.move_sibling`). A reordering counts the list before the block is out
and a move counts it afterwards, which shows in one error only. -/

namespace Choreo

namespace Forest

theorem afterRemoval_self (ks : List Nat) (i : Nat) : afterRemoval ks i ks = ks := by
  induction ks with
  | nil => rfl
  | cons k ks ih => rw [afterRemoval, if_pos rfl, ih]

end Forest

namespace Program

open Choreo.Tree (locate)

variable {p : Program} {ts cs : List Tree} {owner : Option NodeId} {parent : Path}
  {source target len : Nat} {t : Tree}

theorem startsWith_child_self (parent : Path) (i : Nat) :
    parent.startsWith (parent.child i) = false := by
  rw [Path.startsWith_eq_false_iff]
  intro hprefix
  have hlength := hprefix.length_le
  rw [Path.child, List.length_append, List.length_singleton] at hlength
  omega

theorem split?_child (parent : Path) (i : Nat) :
    (parent.child i).split? = some (parent, i) :=
  split?_eq_some_iff.mpr rfl

/-! ### The two edits of a list that is there -/

/-- The program with the block taken out of its list and put back into it. -/
def shuffled (p : Program) (owner : Option NodeId) (source target : Nat) (id : NodeId) : Program :=
  (p.modifySiblings owner fun ids => (ids.eraseIdx source).insertIdx target id).bumped

theorem Stores.reorder_sibling (h : p.Stores ts [])
    (hl : locate .root none ts parent.indices = .ok (owner, cs)) (ht : cs[source]? = some t) :
    p.reorder parent source target =
      if cs.length ≤ target then .error (.outOfRange parent target cs.length)
      else .ok (p.shuffled owner source target t.id) := by
  simp only [Program.reorder, h.resolveParent, hl, Except.map, bind, Except.bind,
    (h.owns hl).siblings, List.getElem?_map, ht, Option.map_some, List.length_map]
  split_ifs <;> rfl

/-- **A move within a list.** The list is found where it was, one block shorter, and the block keeps
its parent. -/
theorem Stores.move_sibling (h : p.Stores ts [])
    (hl : locate .root none ts parent.indices = .ok (owner, cs)) (ht : cs[source]? = some t) :
    p.move (parent.child source) parent target =
      if cs.length - 1 < target then .error (.outOfRange parent target (cs.length - 1))
      else .ok (p.shuffled owner source target t.id) := by
  have hlt := (List.getElem?_eq_some_iff.mp ht).1
  have hleft : locate .root none (Tree.graft ts parent.indices (cs.eraseIdx source))
      (Forest.afterRemoval parent.indices source parent.indices) =
      .ok (owner, cs.eraseIdx source) := by
    rw [Forest.afterRemoval_self]
    exact Tree.locate_graft hl _
  rw [h.move_eq (split?_child parent source) (startsWith_child_self parent source) hl ht hl hleft,
    List.length_eraseIdx_of_lt hlt, modifySiblings_modifySiblings, modifyNode_modifySiblings,
    modifyNode_self (h.node_of_locate hl ht) rfl]
  rfl

/-! ### All lists -/

/-- The list at `parent` has `len` blocks, one of them at `source`, and no place at `target`. -/
def Overshoots (p : Program) (parent : Path) (source target len : Nat) : Prop :=
  ∃ owner ids, p.resolveParent parent = .ok owner ∧ p.siblings owner = .ok ids ∧
    ids.length = len ∧ source < len ∧ len ≤ target

theorem Stores.overshoots_iff (h : p.Stores ts [])
    (hl : locate .root none ts parent.indices = .ok (owner, cs)) :
    p.Overshoots parent source target len ↔
      cs.length = len ∧ source < len ∧ len ≤ target := by
  have howner : p.resolveParent parent = .ok owner := by
    rw [h.resolveParent, hl]
    rfl
  constructor
  · rintro ⟨o, ids, ho, hids, hrest⟩
    cases howner.symm.trans ho
    cases (h.owns hl).siblings.symm.trans hids
    rwa [List.length_map] at hrest
  · rintro ⟨rfl, hsource, htarget⟩
    exact ⟨owner, _, howner, (h.owns hl).siblings, List.length_map _, hsource, htarget⟩

/-- Past the end of the list both fail, and each reports the length that it counts. -/
theorem Stores.errors_of_overshoots (h : p.Stores ts [])
    (hpast : p.Overshoots parent source target len) :
    p.reorder parent source target = .error (.outOfRange parent target len) ∧
      p.move (parent.child source) parent target =
        .error (.outOfRange parent target (len - 1)) := by
  rcases hl : locate .root none ts parent.indices with e | ⟨owner, cs⟩
  · obtain ⟨o, ids, ho, -⟩ := hpast
    rw [h.resolveParent, hl] at ho
    cases ho
  · obtain ⟨rfl, hsource, htarget⟩ := (h.overshoots_iff hl).mp hpast
    have ht := List.getElem?_eq_getElem hsource
    rw [h.reorder_sibling hl ht, h.move_sibling hl ht, if_pos htarget, if_pos (by omega)]
    exact ⟨rfl, rfl⟩

theorem Stores.move_eq_reorder (h : p.Stores ts [])
    (hpast : ∀ len, ¬ p.Overshoots parent source target len) :
    p.move (parent.child source) parent target = p.reorder parent source target := by
  rcases hl : locate .root none ts parent.indices with e | ⟨owner, cs⟩
  · -- there is no such list
    simp only [Program.move, Program.reorder, split?_child, startsWith_child_self,
      h.resolve (split?_child parent source), h.resolveParent, hl, Except.map, bind, Except.bind,
      Bool.false_eq_true, if_false]
  rcases ht : cs[source]? with _ | t
  · -- the list has no such block
    simp only [Program.move, Program.reorder, split?_child, startsWith_child_self,
      h.resolve (split?_child parent source), h.resolveParent, hl, Except.map, bind, Except.bind,
      Tree.pick, (h.owns hl).siblings, List.getElem?_map, ht, Option.map_none, List.length_map,
      Bool.false_eq_true, if_false]
    rfl
  · have hsource := (List.getElem?_eq_some_iff.mp ht).1
    have htarget : target < cs.length := by
      by_contra hge
      exact hpast _ ((h.overshoots_iff hl).mpr ⟨rfl, hsource, Nat.not_lt.mp hge⟩)
    rw [h.move_sibling hl ht, h.reorder_sibling hl ht, if_neg (by omega), if_neg (by omega)]

/-- **Reordering is moving within the list.** In a program that edits lead to, a block is reordered
to an index if and only if it can be moved to that index of the list that it stands in, and both
give one and the same program, with the same blocks, numbers, links and revision. Where they fail
they fail with the same error, but for a block that is there and an index past the end: then a
reordering reports the length of the list, a move what is left of it without the block. -/
theorem reorder_moves_within_list (hp : p.Reachable) (parent : Path) (source target : Nat) :
    (∀ q, p.reorder parent source target = .ok q ↔
      p.move (parent.child source) parent target = .ok q) ∧
    ((∀ len, ¬ p.Overshoots parent source target len) →
      p.move (parent.child source) parent target = p.reorder parent source target) ∧
    ∀ len, p.Overshoots parent source target len →
      p.reorder parent source target = .error (.outOfRange parent target len) ∧
        p.move (parent.child source) parent target =
          .error (.outOfRange parent target (len - 1)) := by
  obtain ⟨ts, h⟩ := hp.stores
  refine ⟨fun q => ?_, h.move_eq_reorder, fun len => h.errors_of_overshoots⟩
  by_cases hpast : ∃ len, p.Overshoots parent source target len
  · obtain ⟨len, hpast⟩ := hpast
    obtain ⟨hreorder, hmove⟩ := h.errors_of_overshoots hpast
    simp [hreorder, hmove]
  · rw [h.move_eq_reorder (not_exists.mp hpast)]

/-- The first of two blocks goes behind the other one; no third place is there for it. -/
theorem wave_goes_behind_pause :
    ∃ p q : Program, p.Reachable ∧ p.toBlocks = [.ofKind .wave, .ofKind .pause] ∧
      p.move ⟨[0]⟩ .root 1 = .ok q ∧ q.toBlocks = [.ofKind .pause, .ofKind .wave] ∧
      p.reorder .root 0 2 = .error (.outOfRange .root 2 2) ∧
      p.move ⟨[0]⟩ .root 2 = .error (.outOfRange .root 2 1) := by
  have hp : (ofBlocks [.ofKind .wave, .ofKind .pause]).Reachable :=
    Reachable.ofBlocks (by simp [Block.AllValid, Block.Valid, Block.ofKind])
  have hpast : (ofBlocks [.ofKind .wave, .ofKind .pause]).Overshoots .root 0 2 2 :=
    ⟨none, [0, 1], rfl, rfl, rfl, by decide, by decide⟩
  exact ⟨_, _, hp, rfl, ((reorder_moves_within_list hp .root 0 1).1 _).mp rfl, rfl,
    (reorder_moves_within_list hp .root 0 2).2.2 2 hpast⟩

end Program

end Choreo
