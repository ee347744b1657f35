import Choreo.Proofs.Program.Access
import Choreo.Proofs.Program.Walk

/-! # Edits and look-ups always answer

In a program that edits lead to, no access fails and no recursion goes on for ever. Links lead to
slots in use, so the only errors are those that are told to the caller; the trees below a node and
the way up from it are finite, and so is a way that starts at a number without a node
(`every_attempt_answers`). -/

namespace Choreo

open Access (Attempt answer)

/-! ### Errors that are told -/

namespace Access

variable {α β : Type}

/-- The computation answers: it does not come upon an empty slot. -/
def Told (r : Except EditError α) : Prop := answer r = ExceptT.mk (some r)

/-- An error that is told is told whatever there might have been instead of it. -/
theorem Told.error {e : EditError} (h : Told (.error e : Except EditError α)) :
    Told (.error e : Except EditError β) := by
  cases e with
  | brokenLink id => cases h
  | _ => rfl

theorem Told.bind {x : Except EditError α} {f : α → Except EditError β} (hx : Told x)
    (hf : ∀ a, x = .ok a → Told (f a)) : Told (x >>= f) := by
  rcases x with e | a
  · exact hx.error
  · exact hf a rfl

end Access

namespace Forest

open Access (Told)

theorem told_siblings (walked : Path) (bs : List Block) (ks : List Nat) :
    Told (siblings walked bs ks) := by
  induction ks generalizing walked bs with
  | nil => rfl
  | cons i rest ih =>
    rw [siblings]
    rcases bs[i]? with _ | b
    · rfl
    · simp only
      split_ifs
      · exact ih _ _
      · rfl

theorem told_pick (parent : Path) (cs : List Block) (i : Nat) : Told (pick parent cs i) := by
  rw [pick]
  rcases cs[i]? with _ | b <;> rfl

theorem told_put (parent : Path) (cs : List Block) (i : Nat) (b : Block) :
    Told (put parent cs i b) := by
  rw [put]
  split_ifs <;> rfl

/-- **An edit of nested lists knows no empty slots.** -/
theorem told_apply (bs : List Block) (e : Edit) : Told (apply bs e) := by
  cases e with
  | insert parent index b =>
    exact (told_siblings _ _ _).bind fun cs _ => (told_put _ _ _ _).bind fun _ _ => rfl
  | remove parent index =>
    exact (told_siblings _ _ _).bind fun cs _ => (told_pick _ _ _).bind fun _ _ => rfl
  | reorder parent source target =>
    exact (told_siblings _ _ _).bind fun cs _ => (told_pick _ _ _).bind fun _ _ =>
      (told_pick _ _ _).bind fun _ _ => rfl
  | move source dest index =>
    rw [apply, move]
    rcases source.split? with _ | ⟨parent, i⟩
    · rfl
    · simp only
      split_ifs
      · rfl
      · exact (told_siblings _ _ _).bind fun cs _ => (told_pick _ _ _).bind fun b _ =>
          (told_siblings _ _ _).bind fun _ _ => (told_siblings _ _ _).bind fun ds _ =>
            (told_put _ _ _ _).bind fun _ _ => rfl
  | set path param value =>
    rw [apply, set]
    rcases path.split? with _ | ⟨parent, i⟩
    · rfl
    · refine (told_siblings _ _ _).bind fun cs _ => (told_pick _ _ _).bind fun b _ => ?_
      rcases b.set param value with e | b <;> rfl
  | replace blocks => rfl

end Forest

namespace Program

open Access (Told)
open Choreo.Tree (nodesAll nodesAll_cons walkAll blocks locate)

variable {p : Program} {ts : List Tree} {id : NodeId} {fuel : Nat}

theorem Stores.told_apply (h : p.Stores ts []) (e : Edit) : Told (p.apply e) := by
  have hfollows := h.apply_follows e
  have htold := Forest.told_apply (blocks ts) e
  rcases hr : Forest.apply (blocks ts) e with err | bs
  · rw [hr, Follows] at hfollows
    rw [hr] at htold
    rw [hfollows]
    exact htold.error
  · rw [hr] at hfollows
    obtain ⟨us, ⟨q, hq, -⟩, -⟩ := hfollows
    rw [hq]
    rfl

theorem Stores.told_resolve (h : p.Stores ts []) (path : Path) : Told (p.resolve path) := by
  rcases hr : p.resolve path with err | id
  · rcases h.resolve_eq_error_iff.mp hr with _ | _ | _ <;> rfl
  · rfl

/-! ### Reading down -/

mutual

theorem toBlock_tree (parent : Option NodeId) : ∀ (t : Tree) (fuel : Nat),
    (t.nodes parent).length ≤ fuel → (∀ e ∈ t.nodes parent, p.node? e.1 = some e.2) →
    Access.toBlock p fuel t.id = some t.block
  | .node id kind settings children, fuel, hfuel, hheld => by
    rw [Tree.nodes] at hfuel hheld
    rw [List.length_cons] at hfuel
    obtain ⟨fuel, rfl⟩ : ∃ k, fuel = k + 1 := ⟨fuel - 1, by omega⟩
    have hroot := hheld _ List.mem_cons_self
    have hchildren := fun e he => hheld e (List.mem_cons_of_mem _ he)
    have hbelow := toBlock_forest (some id) children fuel (by omega) hchildren
    rw [Tree.id, Access.toBlock, hroot, Option.bind_eq_bind, Option.bind_some, liveChildren,
      List.filter_eq_self.mpr (live_of_held hchildren), hbelow, Tree.block]
    rfl

theorem toBlock_forest (parent : Option NodeId) : ∀ (ts : List Tree) (fuel : Nat),
    (nodesAll parent ts).length ≤ fuel → (∀ e ∈ nodesAll parent ts, p.node? e.1 = some e.2) →
    (ts.map Tree.id).mapM (Access.toBlock p fuel) = some (blocks ts)
  | [], _, _, _ => by rw [Tree.blocks]; rfl
  | t :: ts, fuel, hfuel, hheld => by
    rw [nodesAll_cons] at hfuel hheld
    rw [List.length_append] at hfuel
    have hfirst := toBlock_tree parent t fuel (by omega)
      fun e he => hheld e (List.mem_append_left _ he)
    have hrest := toBlock_forest parent ts fuel (by omega)
      fun e he => hheld e (List.mem_append_right _ he)
    rw [List.map_cons, List.mapM_cons, hfirst, hrest, Tree.blocks]
    rfl

end

mutual

theorem visit_tree (owner : Option NodeId) : ∀ (t : Tree) (here : Path) (fuel : Nat),
    (t.nodes owner).length ≤ fuel → (∀ e ∈ t.nodes owner, p.node? e.1 = some e.2) →
    Access.visit p fuel here t.id = some (t.walk here)
  | .node id kind settings children, here, fuel, hfuel, hheld => by
    rw [Tree.nodes] at hfuel hheld
    rw [List.length_cons] at hfuel
    obtain ⟨fuel, rfl⟩ : ∃ k, fuel = k + 1 := ⟨fuel - 1, by omega⟩
    have hroot := hheld _ List.mem_cons_self
    have hchildren := fun e he => hheld e (List.mem_cons_of_mem _ he)
    obtain ⟨below, hbelow, hflat⟩ :=
      visit_forest (some id) children here 0 fuel (by omega) hchildren
    rw [Tree.id, Access.visit, hroot, Option.bind_eq_bind, Option.bind_some, liveChildren,
      List.filter_eq_self.mpr (live_of_held hchildren), hbelow, Tree.walk, ← hflat]
    rfl

theorem visit_forest (owner : Option NodeId) : ∀ (ts : List Tree) (parent : Path)
    (index fuel : Nat), (nodesAll owner ts).length ≤ fuel →
    (∀ e ∈ nodesAll owner ts, p.node? e.1 = some e.2) → ∃ lists,
    ((ts.map Tree.id).zipIdx index).mapM
      (fun (child, i) => Access.visit p fuel (parent.child i) child) = some lists ∧
    lists.flatten = walkAll parent index ts
  | [], _, _, _, _, _ => ⟨[], rfl, by simp⟩
  | t :: ts, parent, index, fuel, hfuel, hheld => by
    rw [nodesAll_cons] at hfuel hheld
    rw [List.length_append] at hfuel
    have hfirst := visit_tree owner t (parent.child index) fuel (by omega)
      fun e he => hheld e (List.mem_append_left _ he)
    obtain ⟨lists, hrest, hflat⟩ := visit_forest owner ts parent (index + 1) fuel (by omega)
      fun e he => hheld e (List.mem_append_right _ he)
    refine ⟨t.walk (parent.child index) :: lists, ?_, ?_⟩
    · rw [List.map_cons, List.zipIdx_cons, List.mapM_cons]
      simp only
      rw [hfirst, hrest]
      rfl
    · rw [List.flatten_cons, hflat, Tree.walkAll_cons]

end

theorem Stores.toBlocks_answers (h : p.Stores ts []) (hfuel : p.slots.size ≤ fuel) :
    Access.toBlocks fuel p = some p.toBlocks := by
  rw [Access.toBlocks, h.toBlocks, h.roots, List.filter_eq_self.mpr (live_of_held h.held)]
  exact toBlock_forest none ts fuel (h.length_le.trans hfuel) h.held

theorem Stores.walk_answers (h : p.Stores ts []) (hfuel : p.slots.size ≤ fuel) :
    Access.walk fuel p = some p.walk := by
  obtain ⟨lists, hlists, hflat⟩ :=
    visit_forest none ts .root 0 fuel (h.length_le.trans hfuel) h.held
  rw [Access.walk, h.walk, h.roots, List.filter_eq_self.mpr (live_of_held h.held), ← hflat]
  exact congrArg (· >>= fun below => some below.flatten) hlists

theorem Stores.toBlock_answers (h : p.Stores ts []) (hfuel : p.slots.size ≤ fuel) {path : Path}
    (hid : p.resolve path = .ok id) :
    ∃ b, Access.toBlock p fuel id = some b ∧ p.subtree? id = some b := by
  obtain ⟨ks, i, q, cs, t, -, hl, hi, rfl⟩ := h.resolve_iff.mp hid
  obtain ⟨hheld, hlength⟩ := h.held_of_locate hl hi
  exact ⟨t.block, toBlock_tree q t fuel (hlength.trans hfuel) hheld,
    blockWithin_tree q t _ hlength hheld⟩

theorem Stores.blockAt_answers (h : p.Stores ts []) (hfuel : p.slots.size ≤ fuel) (path : Path) :
    (Access.blockAt fuel p path).run = some (p.blockAt path) := by
  have htold := h.told_resolve path
  rw [Access.blockAt, Program.blockAt]
  rcases hr : p.resolve path with err | id
  · rw [hr, Told] at htold
    rw [htold]
    rfl
  · obtain ⟨b, hb, hsubtree⟩ := h.toBlock_answers hfuel hr
    rw [Access.answer_ok, pure_bind, hb]
    simp only [bind, Except.bind, hsubtree]
    rfl

/-! ### Going up -/

/-- The parent links from `id` end after at most `k` nodes. -/
def Ends (p : Program) : (k : Nat) → (id : NodeId) → Prop
  | 0, _ => False
  | k + 1, id => ∀ up, (p.node? id >>= (·.parent)) = some up → Ends p k up

theorem Ends.mono {k m : Nat} (h : p.Ends k id) (hkm : k ≤ m) : p.Ends m id := by
  induction k generalizing m id with
  | zero => exact h.elim
  | succ k ih =>
    obtain ⟨m, rfl⟩ : ∃ j, m = j + 1 := ⟨m - 1, by omega⟩
    exact fun up hup => ih (h up hup) (by omega)

/-- **The way up is followed to its end.** -/
theorem Ends.isWithin {k fuel fuel' : Nat} (h : p.Ends k id) (hk : k ≤ fuel) (hk' : k ≤ fuel')
    (ancestor : NodeId) :
    Access.isWithin p fuel id ancestor = some ((p.lineage fuel' id).contains ancestor) := by
  induction k generalizing fuel fuel' id with
  | zero => exact h.elim
  | succ k ih =>
    obtain ⟨fuel, rfl⟩ : ∃ j, fuel = j + 1 := ⟨fuel - 1, by omega⟩
    obtain ⟨fuel', rfl⟩ : ∃ j, fuel' = j + 1 := ⟨fuel' - 1, by omega⟩
    rw [Access.isWithin, lineage, List.contains_cons]
    split_ifs with hid
    · simp [hid]
    · rw [beq_false_of_ne (Ne.symm hid), Bool.false_or]
      rcases hup : (p.node? id >>= (·.parent)) with _ | up
      · rfl
      · exact ih (h up hup) (by omega) (by omega)

mutual

theorem ends_nodes (parent : Option NodeId) (d : Nat) : ∀ t : Tree,
    (∀ e ∈ t.nodes parent, p.node? e.1 = some e.2) → (∀ up, parent = some up → p.Ends d up) →
    ∀ e ∈ t.nodes parent, p.Ends (d + (t.nodes parent).length) e.1
  | .node id kind settings children, hheld, hup, e, he => by
    rw [Tree.nodes] at hheld he ⊢
    have hlive := hheld _ List.mem_cons_self
    have hroot : p.Ends (d + 1) id := by
      intro up h
      rw [hlive] at h
      exact hup up h
    rw [List.length_cons]
    rcases List.mem_cons.mp he with rfl | he
    · exact hroot.mono (by omega)
    · have hbelow := ends_nodesAll (some id) (d + 1) children
        (fun e he => hheld e (List.mem_cons_of_mem _ he))
        (fun up h => Option.some.inj h ▸ hroot) e he
      exact hbelow.mono (by omega)

theorem ends_nodesAll (parent : Option NodeId) (d : Nat) : ∀ ts : List Tree,
    (∀ e ∈ nodesAll parent ts, p.node? e.1 = some e.2) → (∀ up, parent = some up → p.Ends d up) →
    ∀ e ∈ nodesAll parent ts, p.Ends (d + (nodesAll parent ts).length) e.1
  | [], _, _, e, he => by simp at he
  | t :: ts, hheld, hup, e, he => by
    rw [nodesAll_cons] at hheld he ⊢
    rw [List.length_append]
    rcases List.mem_append.mp he with he | he
    · have hfirst := ends_nodes parent d t (fun e he => hheld e (List.mem_append_left _ he)) hup
        e he
      exact hfirst.mono (by omega)
    · have hrest := ends_nodesAll parent d ts (fun e he => hheld e (List.mem_append_right _ he)) hup
        e he
      exact hrest.mono (by omega)

end

/-- **The way up ends**, also from a number without a node. -/
theorem Stores.ends (h : p.Stores ts []) (id : NodeId) : p.Ends (p.slots.size + 1) id := by
  rcases hn : p.node? id with _ | n
  · intro up hup
    rw [hn] at hup
    cases hup
  · have hlength := h.length_le
    exact (ends_nodesAll none 0 ts h.held nofun (id, n) (h.node?_iff.mp hn)).mono (by omega)

theorem Stores.isWithin_answers (h : p.Stores ts []) (hfuel : p.slots.size < fuel)
    (id ancestor : NodeId) :
    Access.isWithin p fuel id ancestor = some (p.isWithin id ancestor) :=
  (h.ends id).isWithin hfuel le_rfl ancestor

theorem Stores.apply_answers (h : p.Stores ts []) (hfuel : p.slots.size < fuel) (e : Edit) :
    (Access.apply fuel p e).run = some (p.apply e) := by
  rw [Access.apply_eq hfuel (h.isWithin_answers hfuel) e, h.told_apply e]
  rfl

/-- **Edits and look-ups always answer.** In a program that edits lead to, every edit gives its
result or its error, whatever its path, its index, its block or its value are: each slot that it
reads or changes on the way is in use, and each entry that it takes out of a list or puts into one
is within the list, also when a part of the edit is done already. So do the look-ups by path. A
look-up by number reads a slot that is there or finds nothing, a node that is in use is read with
all that is below it, and the way up from any number, in use or not, comes to its end. -/
theorem every_attempt_answers (hp : p.Reachable) (hfuel : p.slots.size < fuel) :
    (∀ e, (Access.apply fuel p e).run = some (p.apply e)) ∧
    (∀ path, (Access.resolve p path).run = some (p.resolve path)) ∧
    (∀ path, (Access.blockAt fuel p path).run = some (p.blockAt path)) ∧
    Access.walk fuel p = some p.walk ∧
    Access.toBlocks fuel p = some p.toBlocks ∧
    (∀ id, p.node? id = none ∨ ∃ h : id < p.slots.size, p.node? id = p.slots[id]) ∧
    (∀ id, p.InUse id → ∃ b, Access.toBlock p fuel id = some b ∧ p.subtree? id = some b) ∧
    (∀ id ancestor, Access.isWithin p fuel id ancestor = some (p.isWithin id ancestor)) := by
  obtain ⟨ts, h⟩ := hp.stores
  refine ⟨h.apply_answers hfuel, h.told_resolve, h.blockAt_answers hfuel.le,
    h.walk_answers hfuel.le, h.toBlocks_answers hfuel.le, fun id => ?_, fun id hid => ?_,
    h.isWithin_answers hfuel⟩
  · rcases Nat.lt_or_ge id p.slots.size with hlt | hge
    · refine Or.inr ⟨hlt, ?_⟩
      rw [node?, Array.getElem?_eq_getElem hlt, Option.join_some]
    · refine Or.inl ?_
      rw [node?, Array.getElem?_eq_none hge]
      rfl
  · obtain ⟨⟨path, id⟩, hwalk, rfl⟩ := List.mem_map.mp ((hp.walk_lists_once.2 id).mpr hid)
    exact h.toBlock_answers hfuel.le (hp.mem_walk_iff.mp hwalk)

/-- The pause goes from the end of the loop to the end of the root list, and not past it. Neither
the wave nor the number 7, which has no slot, lies below the loop. -/
theorem pause_leaves_the_loop :
    ∃ p : Program, p.Reachable ∧ p.slots.size < 4 ∧
      ((Access.apply 4 p (.move ⟨[1, 0]⟩ .root 2)).run.map fun r => r.map toBlocks) =
        some (.ok [.ofKind .wave, ⟨.loop, .empty, []⟩, .ofKind .pause]) ∧
      ((Access.apply 4 p (.move ⟨[1, 0]⟩ .root 3)).run.map fun r => r.map toBlocks) =
        some (.error (.outOfRange .root 3 2)) ∧
      Access.isWithin p 4 0 1 = some false ∧ Access.isWithin p 4 7 1 = some false := by
  have hp : (ofBlocks [.ofKind .wave, ⟨.loop, .empty, [.ofKind .pause]⟩]).Reachable :=
    Reachable.ofBlocks (by simp [Block.AllValid, Block.Valid, Block.ofKind, Kind.isContainer])
  have hfuel : (ofBlocks [.ofKind .wave, ⟨.loop, .empty, [.ofKind .pause]⟩]).slots.size < 4 := by
    decide
  obtain ⟨happly, -, -, -, -, -, -, hwithin⟩ := every_attempt_answers hp hfuel
  refine ⟨_, hp, hfuel, ?_, ?_, hwithin 0 1, hwithin 7 1⟩
  · rw [happly]
    rfl
  · rw [happly]
    rfl

end Program

end Choreo
