import Choreo.Proofs.Program.Forest
import Choreo.Proofs.Program.Tree

/-! # The sibling lists of a numbered forest

`locate` finds the sibling list at some indices together with the number of the node that owns it,
and fails as `Forest.siblings` does; `graft` puts another list in its place. Both forget their
numbers properly (`siblings_blocks`, `graft_blocks`).

`nodesAll_graft` is what edits rest on: with another sibling list, a forest has the nodes of that
list, the owner's node with the new links, and otherwise the nodes that it had. `locate_afterRemoval`
says that a list can still be found, under its old owner, once a block is taken out that it does not
lie below. -/

namespace Choreo.Tree

/-- The owner of a sibling list and the list, for the list at some indices below the forest `ts`,
which `owner` has and which stands at `walked`. -/
def locate (walked : Path) : (owner : Option NodeId) → (ts : List Tree) → List Nat →
    Except EditError (Option NodeId × List Tree)
  | owner, ts, [] => .ok (owner, ts)
  | _, ts, i :: rest =>
    match ts[i]? with
    | none => .error (.outOfRange walked i ts.length)
    | some t =>
      if t.kind.isContainer then locate (walked.child i) (some t.id) t.children rest
      else .error (.invalidTarget (walked.child i))

/-- The forest with another sibling list at the given indices. -/
def graft : (ts : List Tree) → List Nat → (new : List Tree) → List Tree
  | _, [], new => new
  | ts, i :: rest, new => ts.modify i fun t => t.withChildren (graft t.children rest new)

variable {walked : Path} {owner q : Option NodeId} {ts cs : List Tree} {ks : List Nat}

@[simp] theorem locate_nil : locate walked owner ts [] = .ok (owner, ts) := rfl

@[simp] theorem graft_nil (ts new : List Tree) : graft ts [] new = new := rfl

theorem locate_cons_iff {i : Nat} {rest : List Nat} :
    locate walked owner ts (i :: rest) = .ok (q, cs) ↔ ∃ t, ts[i]? = some t ∧
      t.kind.isContainer = true ∧
      locate (walked.child i) (some t.id) t.children rest = .ok (q, cs) := by
  rw [locate]
  rcases hi : ts[i]? with _ | t
  · simp
  · simp only
    split_ifs with hc
    · constructor
      · exact fun h => ⟨t, rfl, hc, h⟩
      · rintro ⟨u, hu, -, h⟩
        cases hu
        exact h
    · constructor
      · intro h; cases h
      · rintro ⟨u, hu, h, -⟩
        cases hu
        exact absurd h hc

theorem graft_cons_of_getElem? {i : Nat} {t : Tree} (h : ts[i]? = some t) (rest : List Nat)
    (new : List Tree) :
    graft ts (i :: rest) new = ts.set i (t.withChildren (graft t.children rest new)) := by
  rw [graft]
  obtain ⟨hlt, rfl⟩ := List.getElem?_eq_some_iff.mp h
  refine List.ext_getElem? fun j => ?_
  rw [List.getElem?_modify, List.getElem?_set]
  by_cases hj : i = j
  · subst hj
    simp [hlt]
  · simp [hj]

theorem map_id_graft_cons (ts : List Tree) (i : Nat) (rest : List Nat) (new : List Tree) :
    (graft ts (i :: rest) new).map Tree.id = ts.map Tree.id := by
  rw [graft]
  refine List.ext_getElem? fun j => ?_
  rw [List.getElem?_map, List.getElem?_map, List.getElem?_modify]
  split_ifs
  · rw [Option.map_eq_map, Option.map_map]
    congr 1
    funext t
    simp
  · simp

theorem graft_self (h : locate walked owner ts ks = .ok (q, cs)) : graft ts ks cs = ts := by
  induction ks generalizing walked owner ts with
  | nil =>
    rw [locate_nil] at h
    cases h
    rfl
  | cons i rest ih =>
    obtain ⟨t, hi, -, h⟩ := locate_cons_iff.mp h
    rw [graft_cons_of_getElem? hi, ih h, withChildren_children]
    obtain ⟨hlt, rfl⟩ := List.getElem?_eq_some_iff.mp hi
    exact List.set_getElem_self hlt

theorem locate_graft (h : locate walked owner ts ks = .ok (q, cs)) (new : List Tree) :
    locate walked owner (graft ts ks new) ks = .ok (q, new) := by
  induction ks generalizing walked owner ts with
  | nil =>
    rw [locate_nil] at h
    cases h
    rfl
  | cons i rest ih =>
    obtain ⟨t, hi, hc, h⟩ := locate_cons_iff.mp h
    have hlt := (List.getElem?_eq_some_iff.mp hi).1
    rw [graft_cons_of_getElem? hi]
    refine locate_cons_iff.mpr ⟨_, List.getElem?_set_self hlt, ?_, ?_⟩
    · rw [kind_withChildren]; exact hc
    · rw [id_withChildren, children_withChildren]; exact ih h

theorem graft_graft (ts : List Tree) (ks : List Nat) (first last : List Tree) :
    graft (graft ts ks first) ks last = graft ts ks last := by
  induction ks generalizing ts with
  | nil => rfl
  | cons i rest ih =>
    rw [graft, graft, graft, List.modify_modify_eq]
    congr 1
    funext t
    rw [Function.comp_apply, children_withChildren, ih]
    cases t; rfl

theorem graft_back (h : locate walked owner ts ks = .ok (q, cs)) (new : List Tree) :
    graft (graft ts ks new) ks cs = ts := by
  rw [graft_graft, graft_self h]

/-- The tree at an index of the list `cs`, which stands at `parent`. -/
def pick (parent : Path) (cs : List Tree) (i : Nat) : Except EditError Tree :=
  match cs[i]? with
  | none => .error (.outOfRange parent i cs.length)
  | some t => .ok t

theorem pick_eq_ok_iff {parent : Path} {i : Nat} {t : Tree} :
    pick parent cs i = .ok t ↔ cs[i]? = some t := by
  unfold pick
  rcases cs[i]? with _ | u <;> simp

theorem locate_concat (walked : Path) (owner : Option NodeId) (ts : List Tree) (ks : List Nat)
    (i : Nat) : locate walked owner ts (ks ++ [i]) = (do
      let found ← locate walked owner ts ks
      let t ← pick ⟨walked.indices ++ ks⟩ found.2 i
      if t.kind.isContainer then .ok (some t.id, t.children)
      else .error (.invalidTarget ⟨walked.indices ++ ks ++ [i]⟩)) := by
  induction ks generalizing walked owner ts with
  | nil =>
    rw [List.nil_append, List.append_nil, locate_nil, locate]
    simp only [bind, Except.bind, pick]
    rcases ts[i]? with _ | t <;> rfl
  | cons k ks ih =>
    rw [List.cons_append, locate, locate]
    rcases ts[k]? with _ | t
    · rfl
    · simp only
      split_ifs with hc
      · rw [ih]
        simp only [Path.child, List.append_assoc, List.cons_append, List.nil_append]
      · rfl

/-! ### Without the numbers -/

theorem pick_blocks (parent : Path) (cs : List Tree) (i : Nat) :
    Forest.pick parent (blocks cs) i = (pick parent cs i).map block := by
  unfold Forest.pick pick
  rw [getElem?_blocks, length_blocks]
  rcases cs[i]? with _ | t <;> rfl

/-- Numbers do not matter for where a list is found, nor for how the search fails. -/
theorem siblings_blocks (walked : Path) (owner : Option NodeId) (ts : List Tree) (ks : List Nat) :
    Forest.siblings walked (blocks ts) ks =
      (locate walked owner ts ks).map fun found => blocks found.2 := by
  induction ks generalizing walked owner ts with
  | nil => rfl
  | cons i rest ih =>
    rw [Forest.siblings, locate, getElem?_blocks, length_blocks]
    rcases ts[i]? with _ | t
    · rfl
    · simp only [Option.map_some, Block.isContainer, kind_block, children_block]
      split_ifs
      · exact ih _ _ _
      · rfl

theorem graft_blocks (ts : List Tree) (ks : List Nat) (new : List Tree) :
    Forest.graft (blocks ts) ks (blocks new) = blocks (graft ts ks new) := by
  induction ks generalizing ts with
  | nil => rfl
  | cons i rest ih =>
    rw [Forest.graft, graft]
    refine List.ext_getElem? fun j => ?_
    rw [List.getElem?_modify, getElem?_blocks, getElem?_blocks, List.getElem?_modify]
    split_ifs
    · rw [Option.map_eq_map, Option.map_eq_map, Option.map_map, Option.map_map]
      congr 1
      funext t
      simp [ih]
    · simp

/-! ### The nodes of a forest with another sibling list -/

theorem nodesAll_set_perm {i : Nat} {t : Tree} (h : ts[i]? = some t) (owner : Option NodeId)
    (u : Tree) : (nodesAll owner (ts.set i u)).Perm
      (u.nodes owner ++ nodesAll owner (ts.eraseIdx i)) := by
  obtain ⟨hlt, -⟩ := List.getElem?_eq_some_iff.mp h
  have h1 : (ts.set i u)[i]? = some u := by simp [hlt]
  have h2 := nodesAll_perm_eraseIdx h1 owner
  rw [List.eraseIdx_set_eq] at h2
  exact h2.trans List.perm_append_comm

/-- **The nodes of a forest with another sibling list.** Below the topmost list there is an owner,
whose node has the links to the new list. -/
theorem nodesAll_graft (h : locate walked owner ts ks = .ok (q, cs)) (hks : ks ≠ []) :
    ∃ (id : NodeId) (kind : Kind) (settings : Settings) (parent : Option NodeId)
      (around : List (NodeId × Node)), q = some id ∧ kind.isContainer = true ∧
      ∀ new, (nodesAll owner (graft ts ks new)).Perm
        ((id, ⟨kind, settings, parent, new.map Tree.id⟩) :: (around ++ nodesAll q new)) := by
  induction ks generalizing walked owner ts with
  | nil => exact absurd rfl hks
  | cons i rest ih =>
    obtain ⟨t, hi, hc, h⟩ := locate_cons_iff.mp h
    rcases rest with _ | ⟨j, rest⟩
    · rw [locate_nil] at h
      cases h
      refine ⟨t.id, t.kind, t.settings, owner, nodesAll owner (ts.eraseIdx i), rfl, hc,
        fun new => ?_⟩
      rw [graft_cons_of_getElem? hi, graft_nil]
      refine (nodesAll_set_perm hi owner _).trans ?_
      rw [nodes_eq, id_withChildren, kind_withChildren, settings_withChildren,
        children_withChildren, List.cons_append]
      exact List.perm_append_comm.cons _
    · obtain ⟨id, kind, settings, parent, around, hq, hkind, hperm⟩ := ih h (by simp)
      refine ⟨id, kind, settings, parent,
        (t.id, ⟨t.kind, t.settings, owner, t.children.map Tree.id⟩) ::
          (nodesAll owner (ts.eraseIdx i) ++ around), hq, hkind, fun new => ?_⟩
      rw [graft_cons_of_getElem? hi]
      refine (nodesAll_set_perm hi owner _).trans ?_
      rw [nodes_eq, id_withChildren, kind_withChildren, settings_withChildren,
        children_withChildren, List.cons_append, map_id_graft_cons]
      refine (((hperm new).append_right _).cons _).trans ?_
      rw [List.cons_append, List.cons_append]
      refine (List.Perm.swap _ _ _).trans ((List.Perm.cons _ ?_).cons _)
      rw [List.append_assoc (nodesAll owner _)]
      exact List.perm_append_comm

theorem nodesAll_subset_of_locate (h : locate walked owner ts ks = .ok (q, cs)) :
    nodesAll q cs ⊆ nodesAll owner ts := by
  rcases ks with _ | ⟨i, rest⟩
  · rw [locate_nil] at h
    cases h
    exact List.Subset.refl _
  · obtain ⟨id, kind, settings, parent, around, -, -, hperm⟩ := nodesAll_graft h (by simp)
    have h1 := (hperm cs).symm.subset
    rw [graft_self h] at h1
    exact fun e he => h1 (by simp [he])

theorem owner_mem_of_locate {id : NodeId} (h : locate walked none ts ks = .ok (some id, cs)) :
    id ∈ (nodesAll none ts).map Prod.fst := by
  rcases ks with _ | ⟨i, rest⟩
  · rw [locate_nil] at h; cases h
  · obtain ⟨id', kind, settings, parent, around, hq, -, hperm⟩ := nodesAll_graft h (by simp)
    cases hq
    have h1 := (hperm cs).symm.subset List.mem_cons_self
    rw [graft_self h] at h1
    exact List.mem_map_of_mem h1

theorem map_id_set {i : Nat} {t u : Tree} (ht : cs[i]? = some t) (hu : u.id = t.id) :
    (cs.set i u).map Tree.id = cs.map Tree.id := by
  have hlt := (List.getElem?_eq_some_iff.mp ht).1
  refine List.ext_getElem? fun j => ?_
  rw [List.map_set, List.getElem?_set, List.getElem?_map]
  split_ifs with hj h1
  · subst hj
    rw [ht, Option.map_some, hu]
  · rw [List.length_map] at h1
    exact absurd (hj ▸ hlt) h1
  · rfl

/-- The nodes of a forest with another tree in the place of one, if the number stays. -/
theorem nodesAll_graft_set (h : locate walked owner ts ks = .ok (q, cs)) {i : Nat} {t : Tree}
    (ht : cs[i]? = some t) : ∃ others : List (NodeId × Node), ∀ u : Tree, u.id = t.id →
      (nodesAll owner (graft ts ks (cs.set i u))).Perm (u.nodes q ++ others) := by
  rcases ks with _ | ⟨j, rest⟩
  · rw [locate_nil] at h
    cases h
    exact ⟨_, fun u _ => nodesAll_set_perm ht owner u⟩
  · obtain ⟨id, kind, settings, parent, around, -, -, hperm⟩ := nodesAll_graft h (by simp)
    refine ⟨(id, ⟨kind, settings, parent, cs.map Tree.id⟩) ::
      (around ++ nodesAll q (cs.eraseIdx i)), fun u hu => ?_⟩
    have h1 := hperm (cs.set i u)
    rw [map_id_set ht hu] at h1
    refine h1.trans (List.Perm.trans (List.Perm.cons _ ?_) List.perm_middle.symm)
    refine ((nodesAll_set_perm ht q u).append_left around).trans ?_
    rw [← List.append_assoc, ← List.append_assoc]
    exact List.perm_append_comm.append_right _

theorem map_id_graft_set (h : locate walked owner ts ks = .ok (q, cs)) {i : Nat} {t u : Tree}
    (ht : cs[i]? = some t) (hu : u.id = t.id) :
    (graft ts ks (cs.set i u)).map Tree.id = ts.map Tree.id := by
  rcases ks with _ | ⟨j, rest⟩
  · rw [locate_nil] at h
    cases h
    exact map_id_set ht hu
  · exact map_id_graft_cons ts j rest _

/-! ### Lists after a change of another one -/

/-- Only how a search fails depends on where the forest stands. -/
theorem locate_walked (h : locate walked owner ts ks = .ok (q, cs)) (other : Path) :
    locate other owner ts ks = .ok (q, cs) := by
  induction ks generalizing walked other owner ts with
  | nil => exact h
  | cons i rest ih =>
    obtain ⟨t, hi, hc, h⟩ := locate_cons_iff.mp h
    exact locate_cons_iff.mpr ⟨t, hi, hc, ih h _⟩

/-- **A list after a change of another one.** If the block that leads to a list has gone along to
another index, the list is found where `relocate` says, under the owner that it had. -/
theorem locate_relocate {ks' : List Nat} {q' : Option NodeId} {cs' new : List Tree}
    {shift : Nat → Nat} (h : locate walked owner ts ks = .ok (q, cs))
    (h' : locate walked owner ts ks' = .ok (q', cs'))
    (hshift : ∀ j rest, ks' = ks ++ j :: rest → new[shift j]? = cs[j]?) :
    ∃ cs'', locate walked owner (graft ts ks new) (Forest.relocate ks shift ks') =
      .ok (q', cs'') := by
  induction ks generalizing walked owner ts ks' with
  | nil =>
    rw [locate_nil] at h
    cases h
    rw [graft_nil]
    rcases ks' with _ | ⟨j, rest⟩
    · rw [locate_nil] at h'
      cases h'
      exact ⟨_, rfl⟩
    · -- the list goes through the one that changes
      obtain ⟨t, hj, hc, h'⟩ := locate_cons_iff.mp h'
      refine ⟨cs', ?_⟩
      rw [Forest.relocate]
      exact locate_cons_iff.mpr ⟨t, by rw [hshift j rest rfl, hj], hc, locate_walked h' _⟩
  | cons k ks ih =>
    rcases ks' with _ | ⟨j, rest⟩
    · rw [locate_nil] at h'
      cases h'
      exact ⟨_, rfl⟩
    · obtain ⟨t, hk, hc, h⟩ := locate_cons_iff.mp h
      obtain ⟨u, hj, hcu, h'⟩ := locate_cons_iff.mp h'
      rw [graft_cons_of_getElem? hk, Forest.relocate]
      -- the two paths go on together or part here, and then the change is not seen
      split_ifs with hkj
      · subst hkj
        obtain rfl : t = u := Option.some.inj (hk.symm.trans hj)
        obtain ⟨cs'', h''⟩ := ih h h' fun j' rest' hrest => hshift j' rest' (by rw [hrest]; rfl)
        have hlt := (List.getElem?_eq_some_iff.mp hk).1
        refine ⟨cs'', locate_cons_iff.mpr ⟨_, List.getElem?_set_self hlt, ?_, ?_⟩⟩
        · rw [kind_withChildren]; exact hc
        · rw [id_withChildren, children_withChildren]; exact h''
      · refine ⟨cs', locate_cons_iff.mpr ⟨u, ?_, hcu, h'⟩⟩
        rw [List.getElem?_set_ne hkj]; exact hj

theorem getElem?_eraseIdx_shift {α : Type} (as : List α) {i j : Nat} (h : i ≠ j) :
    (as.eraseIdx i)[if i < j then j - 1 else j]? = as[j]? := by
  rw [List.getElem?_eraseIdx]
  split_ifs with h1 h2 h2
  · omega
  · rw [Nat.sub_add_cancel (by omega)]
  · rfl
  · omega

/-- **A list after a removal.** A list that does not lie below the block that is taken out is found
where `afterRemoval` says, under the owner that it had. -/
theorem locate_afterRemoval {ks' : List Nat} {q' : Option NodeId} {cs' : List Tree} {i : Nat}
    (h : locate walked owner ts ks = .ok (q, cs)) (h' : locate walked owner ts ks' = .ok (q', cs'))
    (hnot : ¬ ks ++ [i] <+: ks') :
    ∃ cs'', locate walked owner (graft ts ks (cs.eraseIdx i)) (Forest.afterRemoval ks i ks') =
      .ok (q', cs'') := by
  rw [Forest.afterRemoval_eq_relocate]
  refine locate_relocate h h' fun j rest hks => getElem?_eraseIdx_shift cs ?_
  rintro rfl
  exact hnot ⟨rest, by rw [hks, List.append_assoc]; rfl⟩

end Choreo.Tree
