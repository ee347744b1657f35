import Choreo.Proofs.Program.Simulation

/-! # Edits of programs are edits of nested lists

A program that edits lead to stores a forest, and each edit of it is the edit of the nested list of
its blocks: it fails when that one fails, with the same error, and otherwise the program reads back
as the edited list and is one revision on. -/

namespace Choreo.Program

open Choreo.Tree (blocks locate)

variable {p : Program} {ts : List Tree}

/-- The result of an edit follows the edit of the nested list. -/
def Follows (p : Program) (result : Except EditError Program) :
    (reference : Except EditError (List Block)) → Prop
  | .error e => result = .error e
  | .ok bs => ∃ us, p.Yields result us ∧ blocks us = bs

theorem Stores.insert_follows (h : p.Stores ts []) (parent : Path) (index : Nat) (b : Block) :
    p.Follows (p.insert parent index b) (Forest.insert (blocks ts) parent index b) := by
  unfold Forest.insert
  rw [Tree.siblings_blocks .root none]
  rcases hl : locate .root none ts parent.indices with e | ⟨q, cs⟩
  · simp only [Follows, Program.insert, h.resolveParent, hl, Except.map, bind, Except.bind]
  · simp only [Except.map, bind, Except.bind, Forest.put, Tree.length_blocks]
    split_ifs with hi
    · simp only [Follows, Program.insert, h.resolveParent, hl, Except.map, bind, Except.bind,
        (h.owns hl).siblings, List.length_map, hi, if_true]
      rfl
    · refine ⟨_, h.insert hl (Nat.not_lt.mp hi) b, ?_⟩
      rw [← Tree.graft_blocks, Tree.blocks_insertIdx, Tree.block_label]

theorem Stores.remove_follows (h : p.Stores ts []) (parent : Path) (index : Nat) :
    p.Follows (p.remove parent index) (Forest.remove (blocks ts) parent index) := by
  unfold Forest.remove
  rw [Tree.siblings_blocks .root none]
  rcases hl : locate .root none ts parent.indices with e | ⟨q, cs⟩
  · simp only [Follows, Program.remove, h.resolveParent, hl, Except.map, bind, Except.bind]
  · simp only [Except.map, bind, Except.bind, Tree.pick_blocks]
    rcases ht : cs[index]? with _ | t
    · simp only [Tree.pick, ht, Follows, Program.remove, h.resolveParent, hl, Except.map, bind,
        Except.bind, (h.owns hl).siblings, List.getElem?_map, Option.map_none, List.length_map]
      rfl
    · rw [Tree.pick_eq_ok_iff.mpr ht]
      refine ⟨_, h.remove hl ht, ?_⟩
      rw [← Tree.graft_blocks, Tree.blocks_eraseIdx]

theorem Stores.reorder_follows (h : p.Stores ts []) (parent : Path) (source target : Nat) :
    p.Follows (p.reorder parent source target)
      (Forest.reorder (blocks ts) parent source target) := by
  unfold Forest.reorder
  rw [Tree.siblings_blocks .root none]
  rcases hl : locate .root none ts parent.indices with e | ⟨q, cs⟩
  · simp only [Follows, Program.reorder, h.resolveParent, hl, Except.map, bind, Except.bind]
  · simp only [Except.map, bind, Except.bind, Tree.pick_blocks]
    rcases ht : cs[source]? with _ | t
    · simp only [Tree.pick, ht, Follows, Program.reorder, h.resolveParent, hl, Except.map, bind,
        Except.bind, (h.owns hl).siblings, List.getElem?_map, Option.map_none, List.length_map]
      rfl
    · rw [Tree.pick_eq_ok_iff.mpr ht]
      rcases hu : cs[target]? with _ | u
      · have hle := List.getElem?_eq_none_iff.mp hu
        simp only [Tree.pick, hu, Follows, Program.reorder, h.resolveParent, hl, Except.map, bind,
          Except.bind, (h.owns hl).siblings, List.getElem?_map, ht, Option.map_some,
          List.length_map, hle, if_true]
        rfl
      · rw [Tree.pick_eq_ok_iff.mpr hu]
        refine ⟨_, h.reorder hl ht (List.getElem?_eq_some_iff.mp hu).1, ?_⟩
        rw [← Tree.graft_blocks, Tree.blocks_insertIdx, Tree.blocks_eraseIdx]

theorem Stores.setParam_follows (h : p.Stores ts []) (path : Path) (param : Param)
    (value : Float) :
    p.Follows (p.setParam path param value) (Forest.set (blocks ts) path param value) := by
  unfold Forest.set
  rcases hp : path.split? with _ | ⟨parent, i⟩
  · rw [split?_eq_none_iff] at hp
    subst hp
    simp only [Follows, Program.setParam, resolve_root, bind, Except.bind]
  · simp only
    rw [Tree.siblings_blocks .root none]
    rcases hl : locate .root none ts parent.indices with e | ⟨q, cs⟩
    · simp only [Follows, Program.setParam, h.resolve hp, hl, Except.map, bind, Except.bind]
    · simp only [Except.map, bind, Except.bind, Tree.pick_blocks]
      rcases ht : cs[i]? with _ | t
      · simp only [Tree.pick, ht, Follows, Program.setParam, h.resolve hp, hl, bind, Except.bind]
      · rw [Tree.pick_eq_ok_iff.mpr ht]
        simp only [Block.set, Tree.settings_block, Tree.kind_block, bind, Except.bind]
        rcases hs : t.settings.set t.kind param value with e | s
        · simp only [Follows, Program.setParam, h.resolve hp, hl, bind, Except.bind,
            Tree.pick_eq_ok_iff.mpr ht, pure, Except.pure, node, h.node_of_locate hl ht, hs]
          rfl
        · refine ⟨_, h.setParam hp hl ht hs, ?_⟩
          rw [← Tree.graft_blocks, Tree.blocks_set, Tree.block_withSettings]
          simp only [Tree.kind_block]

theorem Stores.move_follows (h : p.Stores ts []) (source dest : Path) (index : Nat) :
    p.Follows (p.move source dest index) (Forest.move (blocks ts) source dest index) := by
  unfold Forest.move
  rcases hp : source.split? with _ | ⟨parent, i⟩
  · simp only [Follows, Program.move, hp]
    rfl
  · simp only
    rcases hsd : dest.startsWith source with _ | _
    · simp only [Bool.false_eq_true, if_false, bind, Except.bind, pure, Except.pure]
      rw [Tree.siblings_blocks .root none, Tree.siblings_blocks .root none]
      rcases hl : locate .root none ts parent.indices with e | ⟨q, cs⟩
      · simp only [Follows, Program.move, hp, hsd, h.resolve hp, hl, Except.map, bind, Except.bind]
        rfl
      · simp only [Except.map, Tree.pick_blocks]
        rcases ht : cs[i]? with _ | t
        · simp only [Tree.pick, ht, Follows, Program.move, hp, hsd, h.resolve hp, hl, bind,
            Except.bind]
          rfl
        · rw [Tree.pick_eq_ok_iff.mpr ht]
          rcases hd : locate .root none ts dest.indices with e | ⟨q', ds⟩
          · simp only [Follows, Program.move, hp, hsd, h.resolve hp, h.resolveParent, hl, hd, bind,
              Except.bind, Tree.pick_eq_ok_iff.mpr ht, pure, Except.pure, Except.map]
            rfl
          · have hnot : ¬ parent.indices ++ [i] <+: dest.indices := by
              rw [← split?_eq_some_iff.mp hp, ← List.isPrefixOf_iff_prefix, Bool.not_eq_true]
              exact hsd
            obtain ⟨es, he⟩ := Tree.locate_afterRemoval hl hd hnot
            simp only
            rw [← Tree.blocks_eraseIdx, Tree.graft_blocks, Tree.siblings_blocks .root none, he]
            simp only [Except.map, Forest.put, Tree.length_blocks]
            by_cases hi : es.length < index
            · simp only [hi, if_true, Follows, h.move_eq hp hsd hl ht hd he]
            · simp only [hi, if_false]
              refine ⟨_, h.move hp hsd hl ht hd he (Nat.not_lt.mp hi), ?_⟩
              rw [← Tree.blocks_insertIdx, Tree.graft_blocks]
    · simp only [Follows, Program.move, hp, hsd, bind, Except.bind, if_true]
      rfl

theorem Stores.apply_follows (h : p.Stores ts []) (e : Edit) :
    p.Follows (p.apply e) (Forest.apply (blocks ts) e) := by
  cases e with
  | insert parent index b => exact h.insert_follows parent index b
  | remove parent index => exact h.remove_follows parent index
  | move source dest index => exact h.move_follows source dest index
  | reorder parent source target => exact h.reorder_follows parent source target
  | set path param value => exact h.setParam_follows path param value
  | replace bs => exact ⟨_, yields_replace p bs, Tree.blocks_labelAll 0 bs⟩

theorem Stores.of_apply (h : p.Stores ts []) {e : Edit} {q : Program} (hq : p.apply e = .ok q) :
    ∃ us, q.Stores us [] := by
  have hfollows := h.apply_follows e
  rcases hr : Forest.apply (blocks ts) e with err | bs
  · rw [hr, Follows, hq] at hfollows
    cases hfollows
  · rw [hr] at hfollows
    obtain ⟨us, ⟨r, hok, hstores, -⟩, -⟩ := hfollows
    rw [hq] at hok
    cases hok
    exact ⟨us, hstores⟩

/-- **Every program that edits lead to stores a forest.** -/
theorem Reachable.stores (hp : p.Reachable) : ∃ ts, p.Stores ts [] := by
  induction hp with
  | ofBlocks _ => exact ⟨_, stores_ofBlocks _⟩
  | apply _ _ edit ih =>
    obtain ⟨ts, h⟩ := ih
    exact h.of_apply edit

/-- An edit of nested lists that can be made can be made of a program with these lists. -/
theorem Reachable.exists_apply (hp : p.Reachable) {e : Edit}
    {bs : List Block} (h : Forest.apply p.toBlocks e = .ok bs) :
    ∃ q, p.apply e = .ok q ∧ q.toBlocks = bs := by
  obtain ⟨ts, hts⟩ := hp.stores
  have hfollows := hts.apply_follows e
  rw [← hts.toBlocks, h] at hfollows
  obtain ⟨us, ⟨q, hq, hus, -⟩, rfl⟩ := hfollows
  exact ⟨q, hq, hus.toBlocks⟩

/-- **Edits of programs are edits of nested lists.** An edit of a program that edits lead to fails
if and only if the edit of the nested list fails, with the same error; otherwise the program reads
back as the edited list and is one revision on. -/
theorem apply_refines (hp : p.Reachable) (e : Edit) :
    (p.apply e).map (fun q => (q.toBlocks, q.revision)) =
      (Forest.apply p.toBlocks e).map fun bs => (bs, p.revision + 1) := by
  obtain ⟨ts, h⟩ := hp.stores
  have hf := h.apply_follows e
  rw [h.toBlocks]
  rcases hr : Forest.apply (blocks ts) e with err | bs
  · rw [hr, Follows] at hf
    rw [hf]
    rfl
  · rw [hr] at hf
    obtain ⟨us, ⟨r, hok, hstores, hrev⟩, hbs⟩ := hf
    rw [hok]
    simp only [Except.map, hstores.toBlocks, hrev, hbs]

/-- The destination of this move stands one place further to the front once the block is out. -/
theorem apply_refines_into_later_sibling :
    (ofBlocks [.ofKind .wave, ⟨.loop, .empty, [.ofKind .pause]⟩]).Reachable ∧
    ((ofBlocks [.ofKind .wave, ⟨.loop, .empty, [.ofKind .pause]⟩]).apply
      (.move ⟨[0]⟩ ⟨[1]⟩ 1)).map (fun q => (q.toBlocks, q.revision)) =
      .ok ([⟨.loop, .empty, [.ofKind .pause, .ofKind .wave]⟩], 1) := by
  have hp : (ofBlocks [.ofKind .wave, ⟨.loop, .empty, [.ofKind .pause]⟩]).Reachable :=
    Reachable.ofBlocks (by simp [Block.AllValid, Block.Valid, Block.ofKind, Kind.isContainer])
  exact ⟨hp, (apply_refines hp _).trans rfl⟩

end Choreo.Program
