import Choreo.Proofs.Block.Domain
import Choreo.Proofs.Program.Frame

/-! # Edits as accesses to slots and lists

An edit reads and writes slots and sibling lists. Here every access says what it needs: a link must
lead to a slot in use, an entry that is taken out of a list must be there, one that is put in must
come next to those that are there, and a value can be brought between two bounds only if they are in
order. Where this fails, and where a recursion is cut off, there is no answer at all, neither a
result nor an error.

For each edit a lemma says that it answers as `Program.apply` does, unless that comes upon an empty
slot: no other access can fail (`apply_eq`). Numbers and revisions are as large as they need to
be. -/

namespace Choreo.Access

open Program (siblings_place siblings_modifySiblings node?_modifySiblings node_eq_ok_iff
  modifySiblings_modifySiblings)

variable {α β : Type}

/-- A computation that answers with a value or with an error, or does not answer. -/
abbrev Attempt := ExceptT EditError Option

/-- No answer. -/
def stop : Attempt α := ExceptT.mk none

/-- The answer of a computation; there is none where a link leads to an empty slot. -/
def answer : Except EditError α → Attempt α
  | .error (.brokenLink _) => stop
  | r => ExceptT.mk (some r)

@[simp] theorem answer_ok (a : α) : answer (.ok a) = pure a := rfl

theorem answer_bind (x : Except EditError α) (f : α → Except EditError β) :
    answer (x >>= f) = answer x >>= fun a => answer (f a) := by
  rcases x with e | a
  · cases e <;> rfl
  · rfl

/-- Two computations answer alike if they do so after a first step that they share. -/
theorem answer_bind_congr {x : Except EditError α} {f : α → Attempt β} {g : α → Except EditError β}
    (h : ∀ a, x = .ok a → f a = answer (g a)) : answer x >>= f = answer (x >>= g) := by
  rw [answer_bind]
  rcases x with e | a
  · cases e <;> rfl
  · exact h a rfl

/-! ### Accesses -/

/-- The program with the node `id` changed, which must be there. -/
def writeNode (p : Program) (id : NodeId) (f : Node → Node) : Attempt Program := do
  let _ ← answer (p.node id)
  return p.modifyNode id f

/-- The program without the entry at `index` of a sibling list, and the entry. It must be there. -/
def takeOut (p : Program) (owner : Option NodeId) (index : Nat) : Attempt (Program × NodeId) := do
  let ids ← answer (p.siblings owner)
  match ids[index]? with
  | none => stop
  | some id => return (p.modifySiblings owner (·.eraseIdx index), id)

/-- The program with one more entry at `index` of a sibling list, which must reach that far. -/
def putIn (p : Program) (owner : Option NodeId) (index : Nat) (id : NodeId) : Attempt Program := do
  let ids ← answer (p.siblings owner)
  if ids.length < index then stop
  return p.modifySiblings owner (·.insertIdx index id)

mutual

/-- The program with the nodes of a block in the next slots, and the number of the topmost one. Its
slot is filled before those of its children, whose numbers are written down last. -/
def alloc (p : Program) (parent : Option NodeId) : Block → Attempt (Program × NodeId)
  | ⟨kind, settings, children⟩ => do
    let id := p.slots.size
    let p := { p with slots := p.slots.push (some ⟨kind, settings, parent, []⟩) }
    let (p, ids) ← allocAll p (some id) children
    let p ← writeNode p id ({ · with children := ids })
    return (p, id)

/-- The program with the nodes of some blocks in the next slots, and the numbers of the topmost
ones. -/
def allocAll (p : Program) (parent : Option NodeId) :
    List Block → Attempt (Program × List NodeId)
  | [] => return (p, [])
  | b :: rest => do
    let (p, id) ← alloc p parent b
    let (p, ids) ← allocAll p parent rest
    return (p, id :: ids)

end

/-- The slots without a node and those below it, with a recursion of less than `fuel` levels. -/
def free : (fuel : Nat) → Array (Option Node) → NodeId → Option (Array (Option Node))
  | 0, _, _ => none
  | fuel + 1, slots, id =>
    match slots[id]?.join with
    | none => some slots
    | some n => n.children.foldlM (free fuel) (slots.setIfInBounds id none)

/-- Whether a node is `ancestor` or lies below it, with less than `fuel` steps up. -/
def isWithin (p : Program) : (fuel : Nat) → (id ancestor : NodeId) → Option Bool
  | 0, _, _ => none
  | fuel + 1, id, ancestor =>
    if id = ancestor then some true
    else match p.node? id >>= (·.parent) with
      | none => some false
      | some up => isWithin p fuel up ancestor

/-! ### The edits -/

section

variable (fuel : Nat) (p : Program)

def insert (parent : Path) (index : Nat) (b : Block) : Attempt Program := do
  let owner ← answer (p.resolveParent parent)
  let ids ← answer (p.siblings owner)
  if ids.length < index then throw (.outOfRange parent index ids.length)
  let (p, id) ← alloc p owner b
  let p ← putIn p owner index id
  return p.bumped

def remove (parent : Path) (index : Nat) : Attempt Program := do
  let owner ← answer (p.resolveParent parent)
  let ids ← answer (p.siblings owner)
  if ids.length ≤ index then throw (.outOfRange parent index ids.length)
  let (p, id) ← takeOut p owner index
  let slots ← free fuel p.slots id
  return { p with slots }.bumped

/-- The block `moved` taken out at `sourceIndex` of the list that its parent link names, and put in
at `index` of the list at `dest`, which `destOwner` has. -/
def relink (moved : NodeId) (sourceIndex : Nat) (dest : Path) (destOwner : Option NodeId)
    (index : Nat) : Attempt Program := do
  let n ← answer (p.node moved)
  let (p, _) ← takeOut p n.parent sourceIndex
  let ids ← answer (p.siblings destOwner)
  if ids.length < index then throw (.outOfRange dest index ids.length)
  let p ← putIn p destOwner index moved
  let p ← writeNode p moved ({ · with parent := destOwner })
  return p.bumped

def move (source dest : Path) (index : Nat) : Attempt Program := do
  let some (_, sourceIndex) := source.split? | throw (.invalidTarget source)
  if dest.startsWith source then throw (.cyclicMove source dest)
  let moved ← answer (p.resolve source)
  let destOwner ← answer (p.resolveParent dest)
  if let some id := destOwner then
    if ← isWithin p fuel id moved then throw (.cyclicMove source dest)
  relink p moved sourceIndex dest destOwner index

def reorder (parent : Path) (source target : Nat) : Attempt Program := do
  let owner ← answer (p.resolveParent parent)
  let ids ← answer (p.siblings owner)
  if ids.length ≤ source then throw (.outOfRange parent source ids.length)
  if ids.length ≤ target then throw (.outOfRange parent target ids.length)
  let (p, id) ← takeOut p owner source
  let p ← putIn p owner target id
  return p.bumped

def setParam (path : Path) (param : Param) (value : Float) : Attempt Program := do
  let id ← answer (p.resolve path)
  let n ← answer (p.node id)
  match n.settings.set n.kind param value with
  | .error e => throw (.block e)
  | .ok settings =>
    if ¬ param.low ≤ param.high then stop
    let p ← writeNode p id ({ · with settings })
    return p.bumped

def replace (blocks : List Block) : Attempt Program := do
  let next ← blocks.foldlM (fun q b => do
    let (q, id) ← alloc q none b
    return { q with roots := q.roots ++ [id] }) Program.empty
  return { next with revision := p.revision + 1 }

def apply : Edit → Attempt Program
  | .insert parent index block => insert p parent index block
  | .remove parent index => remove fuel p parent index
  | .move source dest index => move fuel p source dest index
  | .reorder parent source target => reorder p parent source target
  | .set path param value => setParam p path param value
  | .replace blocks => replace p blocks

end

/-! ### Look-ups -/

/-- The block at a node, which must be there, with all blocks below it on less than `fuel`
levels. -/
def toBlock (p : Program) : (fuel : Nat) → NodeId → Option Block
  | 0, _ => none
  | fuel + 1, id => do
    let n ← p.node? id
    let children ← (p.liveChildren n).mapM (toBlock p fuel)
    return ⟨n.kind, n.settings, children⟩

/-- The nodes from one on that stands at `here` and must be there, in document order, on less than
`fuel` levels. -/
def visit (p : Program) : (fuel : Nat) → Path → NodeId → Option (List (Path × NodeId))
  | 0, _, _ => none
  | fuel + 1, here, id => do
    let n ← p.node? id
    let below ← (p.liveChildren n).zipIdx.mapM fun (child, i) => visit p fuel (here.child i) child
    return (here, id) :: below.flatten

section

variable (fuel : Nat) (p : Program)

def resolve (path : Path) : Attempt NodeId := answer (p.resolve path)

def blockAt (path : Path) : Attempt Block := do
  let id ← answer (p.resolve path)
  toBlock p fuel id

def toBlocks : Option (List Block) :=
  (p.roots.filter fun id => (p.node? id).isSome).mapM (toBlock p fuel)

def walk : Option (List (Path × NodeId)) := do
  let below ← (p.roots.filter fun id => (p.node? id).isSome).zipIdx.mapM fun (id, i) =>
    visit p fuel ⟨[i]⟩ id
  return below.flatten

end

/-! ### Accesses that succeed -/

variable {p : Program} {owner : Option NodeId} {ids : List NodeId} {id : NodeId} {index : Nat}

theorem writeNode_eq {n : Node} (h : p.node? id = some n) (f : Node → Node) :
    writeNode p id f = pure (p.modifyNode id f) := by
  rw [writeNode, node_eq_ok_iff.mpr h]
  rfl

theorem takeOut_eq (h : p.siblings owner = .ok ids) (hi : ids[index]? = some id) :
    takeOut p owner index = pure (p.modifySiblings owner (·.eraseIdx index), id) := by
  rw [takeOut, h, answer_ok, pure_bind, hi]

theorem putIn_eq (h : p.siblings owner = .ok ids) (hi : index ≤ ids.length) (id : NodeId) :
    putIn p owner index id = pure (p.modifySiblings owner (·.insertIdx index id)) := by
  rw [putIn, h, answer_ok, pure_bind, if_neg (Nat.not_lt.mpr hi)]

theorem modify_push_append {γ : Type} (as bs : Array γ) (a : γ) (f : γ → γ) :
    (as.push a ++ bs).modify as.size f = as.push (f a) ++ bs := by
  refine Array.ext_getElem? fun i => ?_
  rw [Array.getElem?_modify]
  split_ifs with h
  · subst h
    rw [Array.getElem?_append_left (by simp), Array.getElem?_append_left (by simp),
      Array.getElem?_push_size, Array.getElem?_push_size, Option.map_some]
  · rw [Array.getElem?_append, Array.getElem?_append, Array.size_push, Array.size_push,
      Array.getElem?_push, Array.getElem?_push, if_neg (Ne.symm h), if_neg (Ne.symm h)]

mutual

/-- **Filling slots one after the other** fills them as `place` does. -/
theorem alloc_eq (p : Program) (parent : Option NodeId) : ∀ b : Block,
    alloc p parent b = pure (p.place parent b, p.slots.size)
  | ⟨kind, settings, children⟩ => by
    rw [alloc, allocAll_eq _ _ children, pure_bind, Array.size_push]
    simp only
    rw [writeNode_eq (n := ⟨kind, settings, parent, []⟩), pure_bind]
    · congr 2
      rw [Program.modifyNode, Program.place, Program.nodesOf, modify_push_append]
      simp
    · rw [Program.node?, Array.getElem?_append_left (by simp), Array.getElem?_push_size]
      rfl

theorem allocAll_eq (p : Program) (parent : Option NodeId) : ∀ bs : List Block,
    allocAll p parent bs = pure
      ({ p with
          slots := p.slots ++ ((Program.nodesOfAll parent p.slots.size bs).map some).toArray },
        Program.idsFrom p.slots.size bs)
  | [] => by
    rw [allocAll, Program.nodesOfAll, Program.idsFrom]
    simp
  | b :: rest => by
    rw [allocAll, alloc_eq p parent b, pure_bind]
    simp only
    rw [allocAll_eq _ parent rest, pure_bind, Program.size_slots_place, Program.nodesOfAll,
      Program.idsFrom]
    simp [Program.place]

end

/-- **The root blocks of a new program** take their slots one after the other. -/
theorem foldlM_alloc (p : Program) (bs : List Block) :
    bs.foldlM (fun q b => do
      let (q, id) ← alloc q none b
      return { q with roots := q.roots ++ [id] }) p = (pure
        { p with
          slots := p.slots ++ ((Program.nodesOfAll none p.slots.size bs).map some).toArray
          roots := p.roots ++ Program.idsFrom p.slots.size bs } : Attempt Program) := by
  induction bs generalizing p with
  | nil =>
    rw [List.foldlM_nil, Program.nodesOfAll, Program.idsFrom]
    simp
  | cons b rest ih =>
    rw [List.foldlM_cons, alloc_eq, pure_bind, pure_bind, ih, Program.nodesOfAll, Program.idsFrom]
    simp [Program.place, Tree.length_nodesOf]

/-! ### Recursion -/

/-- The number of slots in use. -/
def used (slots : Array (Option Node)) : Nat := slots.countP (·.isSome)

theorem used_setIfInBounds {slots : Array (Option Node)} {n : Node} (h : slots[id]?.join = some n) :
    used (slots.setIfInBounds id none) + 1 = used slots := by
  have hlt : id < slots.size := by
    by_contra hge
    rw [Array.getElem?_eq_none (Nat.not_lt.mp hge)] at h
    cases h
  have hid : slots[id] = some n := by
    rwa [Array.getElem?_eq_getElem hlt, Option.join_some] at h
  have hpos : 0 < used slots :=
    Array.countP_pos_iff.mpr ⟨some n, hid ▸ Array.getElem_mem hlt, rfl⟩
  rw [used, Array.setIfInBounds, dif_pos hlt, Array.countP_set, hid]
  exact Nat.sub_add_cancel hpos

theorem used_setIfInBounds_le (slots : Array (Option Node)) (id : NodeId) :
    used (slots.setIfInBounds id none) ≤ used slots := by
  rcases h : slots[id]?.join with _ | n
  · rw [Array.setIfInBounds]
    split_ifs with hlt
    · rw [used, Array.countP_set]
      simp [used]
    · exact le_rfl
  · exact Nat.le_of_succ_le (used_setIfInBounds h).le

theorem used_clearWithin_le (fuel : Nat) (slots : Array (Option Node)) (id : NodeId) :
    used (Program.clearWithin fuel slots id) ≤ used slots :=
  Program.clearWithin_preserves (P := (used · ≤ used slots))
    (fun left id h => (used_setIfInBounds_le left id).trans h) fuel slots id le_rfl

/-- **Clearing a subtree ends**: every step down empties a slot. -/
theorem free_eq {fuel fuel' : Nat} {slots : Array (Option Node)} (h : used slots < fuel)
    (h' : used slots ≤ fuel') (id : NodeId) :
    free fuel slots id = some (Program.clearWithin fuel' slots id) := by
  induction fuel generalizing fuel' slots id with
  | zero => omega
  | succ fuel ih =>
    rw [free]
    rcases hid : slots[id]?.join with _ | n
    · rcases fuel' with _ | fuel'
      · rfl
      · rw [Program.clearWithin, hid]
    · have hused := used_setIfInBounds hid
      obtain ⟨fuel', rfl⟩ : ∃ k, fuel' = k + 1 := ⟨fuel' - 1, by omega⟩
      rw [Program.clearWithin, hid]
      simp only
      -- the children are cleared one after the other, with no more slots in use each time
      generalize slots.setIfInBounds id none = left at hused
      have hleft : used left < fuel ∧ used left ≤ fuel' := by omega
      clear hused
      induction n.children generalizing left with
      | nil => rfl
      | cons c cs ihcs =>
        rw [List.foldlM_cons, ih hleft.1 hleft.2 c, List.foldl_cons]
        have hle := used_clearWithin_le fuel' left c
        exact ihcs _ (by omega)

/-! ### The answers of the edits -/

theorem insert_eq (p : Program) (parent : Path) (index : Nat) (b : Block) :
    insert p parent index b = answer (p.insert parent index b) := by
  refine answer_bind_congr fun owner _ => answer_bind_congr fun ids hids => ?_
  simp only
  split_ifs with hlt
  · rfl
  · rw [alloc_eq, pure_bind, putIn_eq (siblings_place hids) (Nat.not_lt.mp hlt)]
    rfl

theorem remove_eq {fuel : Nat} (hfuel : p.slots.size < fuel) (parent : Path) (index : Nat) :
    remove fuel p parent index = answer (p.remove parent index) := by
  refine answer_bind_congr fun owner _ => answer_bind_congr fun ids hids => ?_
  simp only
  rcases hid : ids[index]? with _ | id
  · rw [if_pos (List.getElem?_eq_none_iff.mp hid)]
    rfl
  · rw [if_neg (Nat.not_le.mpr (List.getElem?_eq_some_iff.mp hid).1), takeOut_eq hids hid,
      pure_bind]
    simp only
    have hused : used (p.modifySiblings owner (·.eraseIdx index)).slots ≤ p.slots.size := by
      rw [← Program.size_slots_modifySiblings p owner (·.eraseIdx index)]
      exact Array.countP_le_size
    rw [free_eq (hused.trans_lt hfuel) hused id, ← Program.size_slots_modifySiblings]
    rfl

theorem reorder_eq (p : Program) (parent : Path) (source target : Nat) :
    reorder p parent source target = answer (p.reorder parent source target) := by
  refine answer_bind_congr fun owner _ => answer_bind_congr fun ids hids => ?_
  simp only
  rcases hid : ids[source]? with _ | id
  · rw [if_pos (List.getElem?_eq_none_iff.mp hid)]
    rfl
  · have hsource := (List.getElem?_eq_some_iff.mp hid).1
    rw [if_neg (Nat.not_le.mpr hsource)]
    simp only
    split_ifs with htarget
    · rfl
    · have hshort : (p.modifySiblings owner (·.eraseIdx source)).siblings owner =
          .ok (ids.eraseIdx source) := by
        rw [siblings_modifySiblings, if_pos rfl, hids]
        rfl
      have hfits : target ≤ (ids.eraseIdx source).length := by
        rw [List.length_eraseIdx_of_lt hsource]
        omega
      rw [takeOut_eq hids hid, pure_bind]
      simp only
      rw [putIn_eq hshort hfits, modifySiblings_modifySiblings]
      rfl

theorem setParam_eq (p : Program) (path : Path) (param : Param) (value : Float) :
    setParam p path param value = answer (p.setParam path param value) := by
  refine answer_bind_congr fun id _ => answer_bind_congr fun n hn => ?_
  rcases n.settings.set n.kind param value with e | settings
  · rfl
  · simp only
    rw [if_neg (not_not_intro (Param.admits_low param).2.2.1), writeNode_eq (node_eq_ok_iff.mp hn)]
    rfl

theorem replace_eq (p : Program) (blocks : List Block) :
    replace p blocks = pure (p.replace blocks) := by
  rw [replace, foldlM_alloc, pure_bind, Program.replace, Program.ofBlocks]
  simp [Program.empty]

/-- **The block and both lists are there** when a move changes them, also the list that has lost the
block already. -/
theorem relink_eq (p : Program) (moved : NodeId) (sourceIndex : Nat) (dest : Path)
    (destOwner : Option NodeId) (index : Nat) :
    relink p moved sourceIndex dest destOwner index = answer (do
      let oldParent := (← p.node moved).parent
      if (← p.siblings oldParent).length ≤ sourceIndex then throw (.brokenLink moved)
      let detached := p.modifySiblings oldParent (·.eraseIdx sourceIndex)
      let len := (← detached.siblings destOwner).length
      if len < index then throw (.outOfRange dest index len)
      return ((detached.modifySiblings destOwner (·.insertIdx index moved)).modifyNode moved
        ({ · with parent := destOwner })).bumped) := by
  refine answer_bind_congr fun n hn => ?_
  rw [takeOut, bind_assoc]
  refine answer_bind_congr fun ids _ => ?_
  simp only
  rcases hid : ids[sourceIndex]? with _ | id
  · rw [if_pos (List.getElem?_eq_none_iff.mp hid)]
    rfl
  · rw [if_neg (Nat.not_le.mpr (List.getElem?_eq_some_iff.mp hid).1)]
    simp only [pure_bind]
    refine answer_bind_congr fun left hleft => ?_
    split_ifs with hlt
    · rfl
    · -- the block has its slot all the time, whatever happens to the lists
      have hmoved : ∃ m, ((p.modifySiblings n.parent (·.eraseIdx sourceIndex)).modifySiblings
          destOwner (·.insertIdx index moved)).node? moved = some m := by
        rw [node?_modifySiblings, node?_modifySiblings, node_eq_ok_iff.mp hn]
        split_ifs <;> exact ⟨_, rfl⟩
      obtain ⟨m, hm⟩ := hmoved
      rw [putIn_eq hleft (Nat.not_lt.mp hlt), pure_bind, writeNode_eq hm]
      rfl

theorem move_eq {fuel : Nat} (hwithin : ∀ id ancestor,
      isWithin p fuel id ancestor = some (p.isWithin id ancestor)) (source dest : Path)
    (index : Nat) : move fuel p source dest index = answer (p.move source dest index) := by
  rw [move, Program.move]
  rcases source.split? with _ | ⟨parent, i⟩
  · rfl
  simp only
  split_ifs with hbelow
  · rfl
  refine answer_bind_congr fun moved _ => answer_bind_congr fun destOwner _ => ?_
  rcases destOwner with _ | id
  · exact relink_eq p moved i dest none index
  · simp only [hwithin]
    split_ifs with hcyclic
    · rw [hcyclic]
      rfl
    · rw [Bool.not_eq_true] at hcyclic
      rw [hcyclic]
      exact relink_eq p moved i dest (some id) index

/-- **An edit answers with its result or its error**, if the way up from a node ends and no link
that it follows leads to an empty slot. -/
theorem apply_eq {fuel : Nat} (hfuel : p.slots.size < fuel) (hwithin : ∀ id ancestor,
      isWithin p fuel id ancestor = some (p.isWithin id ancestor)) (e : Edit) :
    apply fuel p e = answer (p.apply e) := by
  cases e with
  | insert parent index b => exact insert_eq p parent index b
  | remove parent index => exact remove_eq hfuel parent index
  | move source dest index => exact move_eq hwithin source dest index
  | reorder parent source target => exact reorder_eq p parent source target
  | set path param value => exact setParam_eq p path param value
  | replace blocks => exact replace_eq p blocks

end Choreo.Access
