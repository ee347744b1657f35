import Choreo.Proofs.Program.Answers

/-! # The way up and the way down

Parent links lead up from a node, a path leads down to one. In a program that edits lead to both say
the same: the node at one path lies at or below the node at another if and only if the first path
starts with the second (`Reachable.isWithin_iff`).

So a move needs to look at its two paths only. When the path check has passed, the check for a
destination below the block finds nothing, and no other error of a move speaks of a cycle
(`Reachable.move_eq_cyclicMove_iff`). -/

namespace Choreo.Program

open Relation (ReflTransGen TransGen)

variable {p q : Program} {ts : List Tree} {id up x y : NodeId} {a b source dest : Path}

/-! ### Parent links -/

/-- The parent link of the node `id` names `up`. -/
def Parent (p : Program) (id up : NodeId) : Prop := (p.node? id >>= (·.parent)) = some up

theorem Ends.mem_lineage_iff {k fuel : Nat} (h : p.Ends k x) (hk : k ≤ fuel) :
    y ∈ p.lineage fuel x ↔ ReflTransGen p.Parent x y := by
  induction k generalizing fuel x with
  | zero => exact h.elim
  | succ k ih =>
    obtain ⟨fuel, rfl⟩ : ∃ j, fuel = j + 1 := ⟨fuel - 1, by omega⟩
    rw [lineage, List.mem_cons, ReflTransGen.cases_head_iff, eq_comm (a := y)]
    refine or_congr_right ?_
    rcases hup : (p.node? x >>= (·.parent)) with _ | u
    · simp [Parent, hup]
    · simp only [Parent, hup, Option.some.injEq, exists_eq_left']
      exact ih (h u hup) (by omega)

theorem Ends.not_transGen {k : Nat} (h : p.Ends k x) : ¬ TransGen p.Parent x x := by
  induction k generalizing x with
  | zero => exact h.elim
  | succ k ih =>
    intro hx
    -- the circle can be begun one step further up
    obtain ⟨u, hxu, hux⟩ := TransGen.head'_iff.mp hx
    exact ih (h u hxu) (TransGen.tail' hux hxu)

/-- **Being within a node is being led to it by parent links.** -/
theorem Stores.isWithin_iff (h : p.Stores ts []) :
    p.isWithin x y = true ↔ ReflTransGen p.Parent x y := by
  rw [isWithin, List.contains_iff_mem, (h.ends x).mem_lineage_iff le_rfl]

theorem isWithin_of_unused (h : p.node? x = none) (y : NodeId) :
    p.isWithin x y = decide (x = y) := by
  rw [isWithin, lineage, h, Option.bind_eq_bind, Option.bind_none, Bool.eq_iff_iff,
    List.contains_iff_mem, List.mem_singleton, decide_eq_true_iff, eq_comm]

/-! ### Paths -/

theorem startsWith_child {i : Nat} :
    (a.child i).startsWith b = true ↔ b = a.child i ∨ a.startsWith b = true := by
  obtain ⟨ks⟩ := a
  obtain ⟨js⟩ := b
  rw [Path.startsWith_iff, Path.startsWith_iff, Path.child, List.prefix_concat_iff, Path.mk.injEq]

theorem resolve_of_resolveParent (h : p.resolveParent a = .ok (some id)) : p.resolve a = .ok id := by
  rw [resolve, descend_of_resolveParent h]
  rfl

theorem eq_root_of_resolveParent (h : p.resolveParent a = .ok none) : a = .root := by
  unfold resolveParent at h
  split_ifs at h with hroot
  · exact congrArg Path.mk (List.isEmpty_iff.mp hroot)
  · obtain ⟨id, -, h⟩ := bind_eq_ok.mp h
    obtain ⟨n, -, h⟩ := bind_eq_ok.mp h
    split_ifs at h
    cases h

theorem Stores.exists_child (h : p.Stores ts []) (hid : p.resolve a = .ok id) :
    ∃ parent i owner, a = parent.child i ∧ p.resolveParent parent = .ok owner ∧
      ∀ up, p.Parent id up ↔ owner = some up := by
  obtain ⟨parent, i, n, ids, hsplit, hn, howner, -, -⟩ := h.resolve_eq_ok hid
  refine ⟨parent, i, n.parent, congrArg Path.mk (split?_eq_some_iff.mp hsplit), howner, fun up => ?_⟩
  rw [Parent, hn]
  rfl

theorem Reachable.startsWith_of_reflTransGen (hp : p.Reachable) (hb : p.resolve b = .ok y)
    (h : ReflTransGen p.Parent x y) (ha : p.resolve a = .ok x) : a.startsWith b = true := by
  obtain ⟨ts, hts⟩ := hp.stores
  induction h using ReflTransGen.head_induction_on generalizing a with
  | refl =>
    obtain rfl := hp.walk_unique (hp.mem_walk_iff.mpr ha) (hp.mem_walk_iff.mpr hb)
    exact Path.startsWith_self a
  | head hup _ ih =>
    obtain ⟨parent, i, owner, rfl, howner, hparent⟩ := hts.exists_child ha
    obtain rfl := (hparent _).mp hup
    exact startsWith_child.mpr (Or.inr (ih (resolve_of_resolveParent howner)))

theorem Stores.reflTransGen_of_append (h : p.Stores ts []) (hb : p.resolve b = .ok y)
    (rest : List Nat) (ha : p.resolve ⟨b.indices ++ rest⟩ = .ok x) :
    ReflTransGen p.Parent x y := by
  induction rest using List.reverseRecOn generalizing x with
  | nil =>
    rw [List.append_nil] at ha
    cases ha.symm.trans hb
    exact .refl
  | append_singleton rest i ih =>
    obtain ⟨parent, j, owner, hpath, howner, hparent⟩ := h.exists_child ha
    obtain ⟨rfl, -⟩ : parent = ⟨b.indices ++ rest⟩ ∧ j = i := by
      have hindices := congrArg Path.indices hpath
      simp only [Path.child, ← List.append_assoc] at hindices
      obtain ⟨hinit, hlast⟩ := List.append_inj' hindices rfl
      exact ⟨congrArg Path.mk hinit.symm, (List.singleton_inj.mp hlast).symm⟩
    rcases owner with _ | up
    · -- the path of the root list starts with no path that leads to a node
      have hroot := congrArg Path.indices (eq_root_of_resolveParent howner)
      have hb' : b = .root := congrArg Path.mk (List.append_eq_nil_iff.mp hroot).1
      rw [hb', resolve_root] at hb
      cases hb
    · exact .head ((hparent up).mpr rfl) (ih (resolve_of_resolveParent howner))

/-- **A node lies within another if and only if its path starts with the path of that one.** -/
theorem Reachable.isWithin_iff (hp : p.Reachable) (ha : p.resolve a = .ok x)
    (hb : p.resolve b = .ok y) : p.isWithin x y = true ↔ a.startsWith b = true := by
  obtain ⟨ts, h⟩ := hp.stores
  rw [h.isWithin_iff]
  refine ⟨fun hxy => hp.startsWith_of_reflTransGen hb hxy ha, fun hab => ?_⟩
  obtain ⟨rest, hrest⟩ := Path.startsWith_iff.mp hab
  exact h.reflTransGen_of_append hb rest (by rwa [hrest])

/-! ### Moves -/

/-- The check for a destination below the block finds nothing that the path check has passed. -/
theorem Reachable.isWithin_eq_false (hp : p.Reachable) (hsd : dest.startsWith source = false)
    (hs : p.resolve source = .ok x) (hd : p.resolveParent dest = .ok (some id)) :
    p.isWithin id x = false := by
  rw [Bool.eq_false_iff, ne_eq, hp.isWithin_iff (resolve_of_resolveParent hd) hs, hsd]
  exact Bool.false_ne_true

theorem Stores.resolve_ne_cyclicMove (h : p.Stores ts []) {moved d : Path} :
    p.resolve a ≠ .error (.cyclicMove moved d) := by
  intro ha
  cases h.resolve_eq_error_iff.mp ha

theorem Stores.resolveParent_ne_cyclicMove (h : p.Stores ts []) {moved d : Path} :
    p.resolveParent a ≠ .error (.cyclicMove moved d) := by
  intro ha
  rw [h.resolveParent] at ha
  rcases hl : Tree.locate .root none ts a.indices with e | found
  · rw [hl] at ha
    cases ha
    obtain ⟨as, i, rest, o, cs, -, -, ⟨-, he⟩ | ⟨t, -, -, he⟩⟩ := Tree.exists_of_locate_eq_error hl
    · cases he
    · cases he
  · rw [hl] at ha
    cases ha

theorem Stores.move_ne_cyclicMove (h : p.Stores ts []) (hsd : dest.startsWith source = false)
    (index : Nat) (moved d : Path) : p.move source dest index ≠ .error (.cyclicMove moved d) := by
  intro hmove
  rcases hp : source.split? with _ | ⟨parent, i⟩
  · simp only [Program.move, hp] at hmove
    cases hmove
  rcases hs : p.resolve source with e | x
  · simp only [Program.move, hp, hsd, hs, bind, Except.bind, Bool.false_eq_true, if_false] at hmove
    cases hmove
    exact h.resolve_ne_cyclicMove hs
  rcases hd : p.resolveParent dest with e | owner
  · simp only [Program.move, hp, hsd, hs, hd, bind, Except.bind, Bool.false_eq_true,
      if_false] at hmove
    cases hmove
    exact h.resolveParent_ne_cyclicMove hd
  -- block and destination are there, so only the index can be wrong
  rw [h.resolve hp] at hs
  obtain ⟨⟨o, cs⟩, hl, hs⟩ := bind_eq_ok.mp hs
  obtain ⟨t, ht, -⟩ := bind_eq_ok.mp hs
  rw [h.resolveParent] at hd
  obtain ⟨⟨o', ds⟩, hl', -⟩ := map_eq_ok.mp hd
  have hnot : ¬ parent.indices ++ [i] <+: dest.indices := by
    rw [← split?_eq_some_iff.mp hp]
    exact Path.startsWith_eq_false_iff.mp hsd
  obtain ⟨es, he⟩ := Tree.locate_afterRemoval hl hl' hnot
  rw [h.move_eq hp hsd hl (Tree.pick_eq_ok_iff.mp ht) hl' he] at hmove
  split_ifs at hmove
  cases hmove

/-- **A move is refused as cyclic exactly if its destination path starts with the path of the
block**, whether or not the two paths lead anywhere. -/
theorem Reachable.move_eq_cyclicMove_iff (hp : p.Reachable) {index : Nat} {moved d : Path} :
    p.move source dest index = .error (.cyclicMove moved d) ↔
      source ≠ .root ∧ dest.startsWith source = true ∧ moved = source ∧ d = dest := by
  obtain ⟨ts, h⟩ := hp.stores
  rcases hsd : dest.startsWith source with _ | _
  · simp [h.move_ne_cyclicMove hsd index moved d]
  rcases hsplit : source.split? with _ | ⟨parent, i⟩
  · obtain rfl := split?_eq_none_iff.mp hsplit
    have hmove : p.move .root dest index = .error (.invalidTarget .root) := rfl
    simp [hmove]
  · have hroot : source ≠ .root := fun hroot => by
      rw [split?_eq_none_iff.mpr hroot] at hsplit
      cases hsplit
    have hmove : p.move source dest index = .error (.cyclicMove source dest) := by
      simp only [Program.move, hsplit, hsd, if_true]
      rfl
    rw [hmove, Except.error.injEq, EditError.cyclicMove.injEq]
    simp [hroot, eq_comm]

/-- **Cyclic moves are refused, and nothing else is refused as one.** In a program that edits lead to
a node lies within another if and only if parent links lead up to that one, and for nodes at paths if
and only if the first path starts with the second. The way up from any number comes to its end, and
from a number without a node it ends there. A move is refused as cyclic exactly if its destination
starts with the path of the block and this is not the root path, whether or not these lead anywhere;
the check for a destination below the block, which comes after that of the paths, finds nothing; and
in what comes of a move no parent links lead from a node back to it. -/
theorem cyclic_moves_refused (hp : p.Reachable) :
    (∀ a b x y, p.resolve a = .ok x → p.resolve b = .ok y →
      (p.isWithin x y = true ↔ a.startsWith b = true)) ∧
    (∀ x y, p.isWithin x y = true ↔ ReflTransGen p.Parent x y) ∧
    (∀ fuel, p.slots.size < fuel → ∀ x y, Access.isWithin p fuel x y = some (p.isWithin x y)) ∧
    (∀ x y, p.node? x = none → p.isWithin x y = decide (x = y)) ∧
    (∀ source dest index moved d, p.move source dest index = .error (.cyclicMove moved d) ↔
      source ≠ .root ∧ dest.startsWith source = true ∧ moved = source ∧ d = dest) ∧
    (∀ source dest x id, dest.startsWith source = false → p.resolve source = .ok x →
      p.resolveParent dest = .ok (some id) → p.isWithin id x = false) ∧
    (∀ source dest index q, p.move source dest index = .ok q → ∀ x, ¬ TransGen q.Parent x x) := by
  obtain ⟨ts, h⟩ := hp.stores
  refine ⟨fun _ _ _ _ => hp.isWithin_iff, fun _ _ => h.isWithin_iff,
    fun _ hfuel => h.isWithin_answers hfuel, fun _ y hx => isWithin_of_unused hx y,
    fun _ _ _ _ _ => hp.move_eq_cyclicMove_iff, fun _ _ _ _ => hp.isWithin_eq_false,
    fun source dest index q hq x => ?_⟩
  obtain ⟨us, hus⟩ := h.of_apply (e := .move source dest index) hq
  exact (hus.ends x).not_transGen

/-- The outer loop cannot go into the inner one, nor to a place past its end that does not exist, but
the inner loop can go out. -/
theorem outer_loop_stays_outside :
    ∃ p q : Program, p.Reachable ∧
      p.toBlocks = [⟨.loop, .empty, [⟨.loop, .empty, [.ofKind .pause]⟩]⟩] ∧
      p.isWithin 2 0 = true ∧ p.isWithin 0 1 = false ∧ p.isWithin 7 0 = false ∧
      p.move ⟨[0]⟩ ⟨[0, 0]⟩ 0 = .error (.cyclicMove ⟨[0]⟩ ⟨[0, 0]⟩) ∧
      p.move ⟨[0]⟩ ⟨[0, 5, 1]⟩ 0 = .error (.cyclicMove ⟨[0]⟩ ⟨[0, 5, 1]⟩) ∧
      p.move ⟨[0, 0]⟩ .root 0 = .ok q ∧ ∀ x, ¬ TransGen q.Parent x x := by
  have hp : (ofBlocks [⟨.loop, .empty, [⟨.loop, .empty, [.ofKind .pause]⟩]⟩]).Reachable :=
    Reachable.ofBlocks (by simp [Block.AllValid, Block.Valid, Block.ofKind, Kind.isContainer])
  obtain ⟨hwithin, -, -, hunused, hcyclic, -, hacyclic⟩ := cyclic_moves_refused hp
  refine ⟨_, _, hp, rfl, (hwithin ⟨[0, 0, 0]⟩ ⟨[0]⟩ _ _ rfl rfl).mpr rfl, ?_, hunused 7 0 rfl,
    (hcyclic _ _ _ _ _).mpr ⟨by decide, rfl, rfl, rfl⟩,
    (hcyclic _ _ _ _ _).mpr ⟨by decide, rfl, rfl, rfl⟩, rfl, hacyclic ⟨[0, 0]⟩ .root 0 _ rfl⟩
  exact Bool.eq_false_iff.mpr fun h =>
    absurd ((hwithin ⟨[0]⟩ ⟨[0, 0]⟩ _ _ rfl rfl).mp h) (by decide)

end Choreo.Program
