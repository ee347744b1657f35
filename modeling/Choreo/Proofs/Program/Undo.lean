import Choreo.Proofs.Program.Walk

/-! # Undoing edits

What an edit did to a sibling list, another edit takes back: a removal an insertion and the other
way round, a reordering one with the indices exchanged, and a move a move to where the block was.

For the move the paths shift twice. `Forest.afterRemoval` says where a list stands once a block is
out, `Forest.afterInsertion` where it stands once a block is in; the first undoes the second
(`Forest.afterRemoval_afterInsertion`), and this is why the list that the block came from is found
again when the block is taken out of the other list. -/

namespace Choreo

/-! ### Lists after an insertion -/

namespace Forest

/-- Where the list at `list` stands once a block is in at index `i` of the list at `parent`. -/
def afterInsertion (parent : List Nat) (i : Nat) (list : List Nat) : List Nat :=
  relocate parent (fun j => if i ≤ j then j + 1 else j) list

theorem afterRemoval_afterInsertion (parent : List Nat) (i : Nat) (list : List Nat) :
    afterRemoval parent i (afterInsertion parent i list) = list := by
  rw [afterRemoval_eq_relocate]
  refine relocate_relocate (fun j => ?_) parent list
  split_ifs <;> omega

/-- No list that was there before lies below the block that comes in. -/
theorem not_prefix_afterInsertion (parent : List Nat) (i : Nat) (list : List Nat) :
    ¬ parent ++ [i] <+: afterInsertion parent i list := by
  induction parent generalizing list with
  | nil =>
    rcases list with _ | ⟨j, rest⟩
    · simp [afterInsertion, relocate]
    · rw [afterInsertion, relocate, List.nil_append, List.cons_prefix_cons]
      rintro ⟨hi, -⟩
      split_ifs at hi <;> omega
  | cons k parent ih =>
    rcases list with _ | ⟨j, rest⟩
    · simp [afterInsertion, relocate]
    · rw [afterInsertion, relocate, List.cons_append, List.cons_prefix_cons]
      rintro ⟨rfl, h⟩
      rw [if_pos rfl] at h
      exact ih rest h

end Forest

namespace Tree

variable {walked : Path} {owner q q' : Option NodeId} {ts cs cs' : List Tree} {ks ks' : List Nat}

theorem getElem?_insertIdx_shift {α : Type} (as : List α) (i j : Nat) (a : α) :
    (as.insertIdx i a)[if i ≤ j then j + 1 else j]? = as[j]? := by
  rw [List.getElem?_insertIdx]
  split_ifs with h1 h2 h2 <;> first | omega | rfl

/-- **A list after an insertion.** A list is found where `afterInsertion` says, under the owner that
it had. -/
theorem locate_afterInsertion (h : locate walked owner ts ks = .ok (q, cs))
    (h' : locate walked owner ts ks' = .ok (q', cs')) (i : Nat) (t : Tree) :
    ∃ cs'', locate walked owner (graft ts ks (cs.insertIdx i t)) (Forest.afterInsertion ks i ks') =
      .ok (q', cs'') :=
  locate_relocate h h' fun j _ _ => getElem?_insertIdx_shift cs i j t

theorem insertIdx_eraseIdx {i : Nat} {t : Tree} (h : cs[i]? = some t) :
    (cs.eraseIdx i).insertIdx i t = cs := by
  obtain ⟨hlt, rfl⟩ := List.getElem?_eq_some_iff.mp h
  exact List.insertIdx_eraseIdx_getElem hlt

theorem length_eraseIdx_succ {i : Nat} {t : Tree} (h : cs[i]? = some t) :
    (cs.eraseIdx i).length + 1 = cs.length := by
  have hlt := (List.getElem?_eq_some_iff.mp h).1
  rw [List.length_eraseIdx_of_lt hlt]
  omega

theorem getElem?_insertIdx_self {i : Nat} (h : i ≤ cs.length) (t : Tree) :
    (cs.insertIdx i t)[i]? = some t := by
  rw [List.getElem?_insertIdx_self, if_pos h]

end Tree

namespace Program

open Choreo.Tree (blocks label locate graft insertIdx_eraseIdx length_eraseIdx_succ
  getElem?_insertIdx_self locate_graft graft_back)

variable {p q : Program} {ts : List Tree}

/-! ### Edits that succeed, on the forest -/

theorem Yields.stores {result : Except EditError Program} (h : p.Yields result ts)
    (hq : result = .ok q) : q.Stores ts [] := by
  obtain ⟨r, hr, hstores, -⟩ := h
  cases hq.symm.trans hr
  exact hstores

theorem Yields.exists_same {result : Except EditError Program} (h : q.Yields result ts)
    (hp : p.toBlocks = blocks ts) : ∃ r, result = .ok r ∧ r.same p = true := by
  obtain ⟨r, hr, hstores, -⟩ := h
  exact ⟨r, hr, decide_eq_true (hstores.toBlocks.trans hp.symm)⟩

theorem Stores.exists_of_insert (h : p.Stores ts []) {parent : Path} {index : Nat} {b : Block}
    (hq : p.insert parent index b = .ok q) : ∃ o cs,
      locate .root none ts parent.indices = .ok (o, cs) ∧ index ≤ cs.length ∧
      q.Stores (graft ts parent.indices (cs.insertIdx index (label p.slots.size b))) [] := by
  obtain ⟨o, ids, ho, hids, -⟩ := insert_eq_ok hq
  obtain ⟨cs, hl, rfl⟩ := h.locate_of_resolveParent ho hids
  have hi : index ≤ cs.length := by
    by_contra hi
    rw [Nat.not_le, ← List.length_map (f := Tree.id)] at hi
    simp only [Program.insert, ho, hids, hi, bind, Except.bind, if_true] at hq
    cases hq
  exact ⟨o, cs, hl, hi, (h.insert hl hi b).stores hq⟩

theorem Stores.exists_of_remove (h : p.Stores ts []) {parent : Path} {index : Nat}
    (hq : p.remove parent index = .ok q) : ∃ o cs t,
      locate .root none ts parent.indices = .ok (o, cs) ∧ cs[index]? = some t ∧
      q.Stores (graft ts parent.indices (cs.eraseIdx index)) [] := by
  obtain ⟨o, ids, top, ho, hids, htop, -⟩ := remove_eq_ok hq
  obtain ⟨cs, hl, rfl⟩ := h.locate_of_resolveParent ho hids
  rw [List.getElem?_map] at htop
  obtain ⟨t, ht, -⟩ := Option.map_eq_some_iff.mp htop
  exact ⟨o, cs, t, hl, ht, (h.remove hl ht).stores hq⟩

theorem Stores.exists_of_reorder (h : p.Stores ts []) {parent : Path} {source target : Nat}
    (hq : p.reorder parent source target = .ok q) : ∃ o cs t,
      locate .root none ts parent.indices = .ok (o, cs) ∧ cs[source]? = some t ∧
      target < cs.length ∧
      q.Stores (graft ts parent.indices ((cs.eraseIdx source).insertIdx target t)) [] := by
  obtain ⟨o, ids, moved, ho, hids, hmoved, -⟩ := reorder_eq_ok hq
  obtain ⟨cs, hl, rfl⟩ := h.locate_of_resolveParent ho hids
  have htarget : target < cs.length := by
    by_contra htarget
    rw [Nat.not_lt, ← List.length_map (f := Tree.id)] at htarget
    simp only [Program.reorder, ho, hids, hmoved, htarget, bind, Except.bind, if_true] at hq
    cases hq
  rw [List.getElem?_map] at hmoved
  obtain ⟨t, ht, -⟩ := Option.map_eq_some_iff.mp hmoved
  exact ⟨o, cs, t, hl, ht, htarget, (h.reorder hl ht htarget).stores hq⟩

theorem Stores.exists_of_move (h : p.Stores ts []) {source dest : Path} {index : Nat}
    (hq : p.move source dest index = .ok q) : ∃ parent i o cs t o' es,
      source.split? = some (parent, i) ∧
      locate .root none ts parent.indices = .ok (o, cs) ∧ cs[i]? = some t ∧
      locate .root none (graft ts parent.indices (cs.eraseIdx i))
        (Forest.afterRemoval parent.indices i dest.indices) = .ok (o', es) ∧
      index ≤ es.length ∧
      q.Stores (graft (graft ts parent.indices (cs.eraseIdx i))
        (Forest.afterRemoval parent.indices i dest.indices) (es.insertIdx index t)) [] := by
  obtain ⟨parent, i, moved, n, o', hp, hmoved, -, hdest, -⟩ := move_eq_ok hq
  rw [h.resolve hp] at hmoved
  obtain ⟨⟨o, cs⟩, hl, hmoved⟩ := bind_eq_ok.mp hmoved
  obtain ⟨t, ht, -⟩ := bind_eq_ok.mp hmoved
  have ht := Tree.pick_eq_ok_iff.mp ht
  rw [h.resolveParent] at hdest
  obtain ⟨⟨o', ds⟩, hd, rfl⟩ := map_eq_ok.mp hdest
  have hsd : dest.startsWith source = false := by
    by_contra hbelow
    rw [Bool.not_eq_false] at hbelow
    simp only [Program.move, hp, hbelow, bind, Except.bind, if_true] at hq
    cases hq
  have hnot : ¬ parent.indices ++ [i] <+: dest.indices := by
    rw [← split?_eq_some_iff.mp hp, ← Path.startsWith_iff, hsd]
    exact Bool.false_ne_true
  obtain ⟨es, he⟩ := Tree.locate_afterRemoval hl hd hnot
  have hi : index ≤ es.length := by
    by_contra hi
    rw [h.move_eq hp hsd hl ht hd he, if_pos (Nat.not_le.mp hi)] at hq
    cases hq
  exact ⟨parent, i, o, cs, t, o', es, hp, hl, ht, he, hi,
    (h.move hp hsd hl ht hd he hi).stores hq⟩

/-! ### Where the walk finds a list -/

/-- The list that `owner` has stands at `path`, as the walk lists it; the root list has no owner. -/
def ListAt (p : Program) : (owner : Option NodeId) → (path : Path) → Prop
  | none, path => path = .root
  | some id, path => (path, id) ∈ p.walk

theorem Reachable.listAt_of_locate (hp : p.Reachable) (h : p.Stores ts []) {ks : List Nat}
    {o : Option NodeId} {cs : List Tree} (hl : locate .root none ts ks = .ok (o, cs)) :
    p.ListAt o ⟨ks⟩ := by
  have ho : p.resolveParent ⟨ks⟩ = .ok o := by
    rw [h.resolveParent, hl]
    rfl
  rcases o with _ | id
  · rcases ks with _ | ⟨k, ks⟩
    · rfl
    · obtain ⟨id, -, -, -, -, ho, -⟩ := Tree.nodesAll_graft hl (by simp)
      cases ho
  · refine hp.mem_walk_iff.mpr ?_
    rw [resolve, descend_of_resolveParent ho]
    rfl

theorem Reachable.listAt_unique (hp : p.Reachable) {o : Option NodeId} {a b : Path}
    (ha : p.ListAt o a) (hb : p.ListAt o b) : a = b := by
  rcases o with _ | id
  · exact ha.trans hb.symm
  · exact hp.walk_unique ha hb

/-! ### The edits back -/

theorem Stores.insert_back (h : p.Stores ts []) {parent : Path} {index : Nat} {b : Block}
    (hq : p.insert parent index b = .ok q) : q.Yields (q.remove parent index) ts := by
  obtain ⟨o, cs, hl, hi, hstores⟩ := h.exists_of_insert hq
  have hback := hstores.remove (locate_graft hl _) (getElem?_insertIdx_self hi _)
  rwa [List.eraseIdx_insertIdx_self, graft_back hl] at hback

/-- The block comes back with other numbers. -/
theorem Stores.remove_back (h : p.Stores ts []) {parent : Path} {index : Nat}
    (hq : p.remove parent index = .ok q) : ∃ b us, p.blockAt (parent.child index) = .ok b ∧
      q.Yields (q.insert parent index b) us ∧ blocks us = blocks ts := by
  obtain ⟨o, cs, t, hl, ht, hstores⟩ := h.exists_of_remove hq
  have hlt := (List.getElem?_eq_some_iff.mp ht).1
  have hleft := length_eraseIdx_succ ht
  refine ⟨t.block, _, (h.blockAt_of_locate hl ht).2,
    hstores.insert (locate_graft hl _) (by omega) t.block, ?_⟩
  rw [Tree.graft_graft, ← Tree.graft_blocks, Tree.blocks_insertIdx, Tree.block_label,
    ← Tree.blocks_insertIdx, insertIdx_eraseIdx ht, Tree.graft_blocks, Tree.graft_self hl]

theorem Stores.reorder_back (h : p.Stores ts []) {parent : Path} {source target : Nat}
    (hq : p.reorder parent source target = .ok q) :
    q.Yields (q.reorder parent target source) ts := by
  obtain ⟨o, cs, t, hl, ht, htarget, hstores⟩ := h.exists_of_reorder hq
  have hsource := (List.getElem?_eq_some_iff.mp ht).1
  have hleft := length_eraseIdx_succ ht
  have hlength : ((cs.eraseIdx source).insertIdx target t).length = cs.length := by
    rw [List.length_insertIdx_of_le_length (by omega), hleft]
  rw [← hlength] at hsource
  have hback := hstores.reorder (locate_graft hl _) (getElem?_insertIdx_self (by omega) t) hsource
  rwa [List.eraseIdx_insertIdx_self, insertIdx_eraseIdx ht, graft_back hl] at hback

/-- A block that was moved goes back from where it stands now into the list that it came from. -/
theorem Stores.move_back (h : p.Stores ts []) (hreachable : q.Reachable) {source dest : Path}
    {index : Nat} (hq : p.move source dest index = .ok q) : ∃ parent i moved n source' dest',
      source.split? = some (parent, i) ∧ p.resolve source = .ok moved ∧ p.node? moved = some n ∧
      (source', moved) ∈ q.walk ∧ q.ListAt n.parent dest' ∧
      q.Yields (q.move source' dest' i) ts := by
  obtain ⟨parent, i, o, cs, t, o', es, hp, hl, ht, he, hi, hstores⟩ := h.exists_of_move hq
  obtain ⟨target, htarget⟩ : ∃ target : Path,
      Forest.afterRemoval parent.indices i dest.indices = target.indices := ⟨⟨_⟩, rfl⟩
  rw [htarget] at he hstores
  have hmoved : p.resolve source = .ok t.id :=
    h.resolve_iff.mpr ⟨parent.indices, i, o, cs, t, split?_eq_some_iff.mp hp, hl, ht, rfl⟩
  -- the block now, and the list that it came from, which the insertion may have shifted
  have hnow := locate_graft he (es.insertIdx index t)
  have ht' := getElem?_insertIdx_self hi t
  have hcame := locate_graft hl (cs.eraseIdx i)
  obtain ⟨ds, hd⟩ := Tree.locate_afterInsertion he hcame index t
  have hsd : Path.startsWith ⟨Forest.afterInsertion target.indices index parent.indices⟩
      (target.child index) = false :=
    Bool.eq_false_iff.mpr fun hbelow => Forest.not_prefix_afterInsertion _ _ _
      (Path.startsWith_iff.mp hbelow)
  -- once the block is out again, the list is where it was
  have hleft : graft (graft (graft ts parent.indices (cs.eraseIdx i)) target.indices
      (es.insertIdx index t)) target.indices ((es.insertIdx index t).eraseIdx index) =
      graft ts parent.indices (cs.eraseIdx i) := by
    rw [List.eraseIdx_insertIdx_self, graft_back he]
  have hback : i ≤ (cs.eraseIdx i).length := by
    have hlt := (List.getElem?_eq_some_iff.mp ht).1
    have hlength := length_eraseIdx_succ ht
    omega
  refine ⟨parent, i, t.id, _, target.child index, ⟨_⟩, hp, hmoved, h.node_of_locate hl ht, ?_,
    hreachable.listAt_of_locate hstores hd, ?_⟩
  · exact hreachable.mem_walk_iff.mpr
      (hstores.resolve_iff.mpr ⟨target.indices, index, o', _, t, rfl, hnow, ht', rfl⟩)
  · have hmove := hstores.move (split?_eq_some_iff.mpr rfl) hsd hnow ht' hd
      (by rw [hleft, Forest.afterRemoval_afterInsertion]; exact hcame) hback
    rwa [hleft, Forest.afterRemoval_afterInsertion, insertIdx_eraseIdx ht, graft_back hl] at hmove

/-- **Every edit of the structure can be taken back by another one.** An insertion is taken back by
a removal at the same place, a removal by inserting the block that stood there, and a reordering by
one with the indices exchanged. A move is taken back by moving the block from where the walk lists
it afterwards to where the walk lists the node that it stood below, if any, at the index that it
had. -/
theorem structural_edits_undone (hp : p.Reachable) :
    (∀ parent index b q, p.insert parent index b = .ok q →
      ∃ r, q.remove parent index = .ok r ∧ r.same p = true) ∧
    (∀ parent index q, p.remove parent index = .ok q → ∃ b r,
      p.blockAt (parent.child index) = .ok b ∧ q.insert parent index b = .ok r ∧
      r.same p = true) ∧
    (∀ parent source target q, p.reorder parent source target = .ok q →
      ∃ r, q.reorder parent target source = .ok r ∧ r.same p = true) ∧
    (∀ source dest index q, p.move source dest index = .ok q → ∃ parent i moved n source' dest',
      source.split? = some (parent, i) ∧ p.resolve source = .ok moved ∧ p.node? moved = some n ∧
      (∀ path, (path, moved) ∈ q.walk ↔ path = source') ∧
      (∀ path, q.ListAt n.parent path ↔ path = dest') ∧
      ∃ r, q.move source' dest' i = .ok r ∧ r.same p = true) := by
  obtain ⟨ts, h⟩ := hp.stores
  refine ⟨fun parent index b q hq => (h.insert_back hq).exists_same h.toBlocks,
    fun parent index q hq => ?_,
    fun parent source target q hq => (h.reorder_back hq).exists_same h.toBlocks,
    fun source dest index q hq => ?_⟩
  · obtain ⟨b, us, hblock, hyields, hblocks⟩ := h.remove_back hq
    obtain ⟨r, hr, hsame⟩ := hyields.exists_same (h.toBlocks.trans hblocks.symm)
    exact ⟨b, r, hblock, hr, hsame⟩
  · have hreachable : q.Reachable := hp.apply (e := .move source dest index) trivial hq
    obtain ⟨parent, i, moved, n, source', dest', hsplit, hmoved, hn, hsource, hdest, hyields⟩ :=
      h.move_back hreachable hq
    refine ⟨parent, i, moved, n, source', dest', hsplit, hmoved, hn, fun path => ⟨?_, ?_⟩,
      fun path => ⟨?_, ?_⟩, hyields.exists_same h.toBlocks⟩
    · exact fun hpath => hreachable.walk_unique hpath hsource
    · rintro rfl
      exact hsource
    · exact fun hpath => hreachable.listAt_unique hpath hdest
    · rintro rfl
      exact hdest

/-- The pause leaves the repeat at `/1` for the front of the root list, and the repeat moves down to
`/2`. There the pause goes back to. -/
theorem pause_moved_out_and_back :
    ∃ p q : Program, p.Reachable ∧ p.toBlocks = [.ofKind .wave, ⟨.loop, .empty, [.ofKind .pause]⟩] ∧
      p.move ⟨[1, 0]⟩ .root 0 = .ok q ∧
      q.toBlocks = [.ofKind .pause, .ofKind .wave, .ofKind .loop] ∧
      ∃ r, q.move ⟨[0]⟩ ⟨[2]⟩ 0 = .ok r ∧ r.same p = true := by
  have hp : (ofBlocks [.ofKind .wave, ⟨.loop, .empty, [.ofKind .pause]⟩]).Reachable :=
    Reachable.ofBlocks (by simp [Block.AllValid, Block.Valid, Block.ofKind, Kind.isContainer])
  obtain ⟨-, -, -, hmove⟩ := structural_edits_undone hp
  obtain ⟨parent, i, moved, n, source', dest', hsplit, hmoved, hn, hsource, hdest, hback⟩ :=
    hmove ⟨[1, 0]⟩ .root 0 _ rfl
  cases hsplit
  cases hmoved
  cases hn
  obtain rfl := (hsource ⟨[0]⟩).mp (by decide)
  obtain rfl := (hdest ⟨[2]⟩).mp (by simp only [ListAt]; decide)
  exact ⟨_, _, hp, rfl, rfl, rfl, hback⟩

end Program

end Choreo
