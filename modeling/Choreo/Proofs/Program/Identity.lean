import Choreo.Proofs.Program.Frame
import Mathlib.Data.List.Forall2
import Mathlib.Logic.Relation

/-! # The numbers of the blocks

A node keeps its number for as long as it is there. Along a history of edits that do not replace the
whole program, an insertion takes numbers that were never in use (`Edited.unused`), a removal gives
up those of the subtree that it takes out (`Stores.inUse_remove`), the other edits keep the numbers
in use, and a number that was given up is never in use again (`Edited.gone`). `Keeps` says what an
edit leaves of the nodes that are there before and afterwards. -/

namespace Choreo

namespace Edit

/-- Whether the edit changes the program where it stands. Replacing all blocks starts the numbers
anew. -/
def InPlace : Edit → Prop
  | .replace _ => False
  | _ => True

/-- The paths of the sibling lists that the edit names. -/
def lists : Edit → List Path
  | .insert parent _ _ => [parent]
  | .remove parent _ => [parent]
  | .move source dest _ => (source.split?.map Prod.fst).toList ++ [dest]
  | .reorder parent _ _ => [parent]
  | .set _ _ _ => []
  | .replace _ => []

/-- Whether the edit neither brings blocks in nor takes any out. -/
def KeepsBlocks : Edit → Prop
  | .move _ _ _ => True
  | .reorder _ _ _ => True
  | .set _ _ _ => True
  | _ => False

end Edit

namespace Program

open Choreo.Tree (nodesAll locate)

/-- A node has the number. -/
def InUse (p : Program) (id : NodeId) : Prop := ∃ n, p.node? id = some n

/-- The number is that of the node `top` or of one below it. -/
def Beneath (p : Program) (top id : NodeId) : Prop :=
  Relation.ReflTransGen (fun up c => ∃ n, p.node? up = some n ∧ c ∈ n.children) top id

/-- Edits in place lead from one program to the other. -/
def Edited : Program → Program → Prop :=
  Relation.ReflTransGen fun p q => ∃ e : Edit, e.InPlace ∧ p.apply e = .ok q

/-- The edit names the sibling list that `owner` has. -/
def Names (p : Program) (e : Edit) (owner : Option NodeId) : Prop :=
  ∃ path ∈ e.lists, p.resolveParent path = .ok owner

/-- The edit puts the block with the number into a sibling list, or takes it out of one. -/
def Shifts (p : Program) : Edit → NodeId → Prop
  | .insert _ _ _, x => x = p.slots.size
  | .remove parent index, x => p.resolve (parent.child index) = .ok x
  | .move source _ _, x => p.resolve source = .ok x
  | .reorder parent source _, x => p.resolve (parent.child source) = .ok x
  | .set _ _ _, _ => False
  | .replace _, _ => False

/-- What an edit of `p` leaves in `q` of the nodes and lists that are in both. -/
structure Keeps (p : Program) (e : Edit) (q : Program) : Prop where
  kind : ∀ {id : NodeId} {n n' : Node}, p.node? id = some n → q.node? id = some n' →
    n'.kind = n.kind
  /-- Parameters stay, but for the one that the edit sets. -/
  param : ∀ {id : NodeId} {n n' : Node}, p.node? id = some n → q.node? id = some n' →
    ∀ param : Param, n'.settings.get? param = n.settings.get? param ∨
      ∃ path value, e = .set path param value ∧ p.resolve path = .ok id
  /-- A list stays as it is, or the edit names it and only the block that it shifts changes its
  place. -/
  siblings : ∀ {owner : Option NodeId} {ids ids' : List NodeId}, p.siblings owner = .ok ids →
    q.siblings owner = .ok ids' → ids' = ids ∨
      p.Names e owner ∧ ∃ x, p.Shifts e x ∧ ids'.filter (· ≠ x) = ids.filter (· ≠ x)

variable {p q : Program} {ts : List Tree} {id : NodeId}

/-! ### Numbers in use -/

theorem InUse.lt_size (h : p.InUse id) : id < p.slots.size := by
  obtain ⟨n, hn⟩ := h
  by_contra hge
  rw [node?, Array.getElem?_eq_none (Nat.not_lt.mp hge)] at hn
  cases hn

@[simp] theorem inUse_modifyNode (f : Node → Node) (j : NodeId) :
    (p.modifyNode j f).InUse id ↔ p.InUse id := by
  rw [InUse, InUse, node?_modifyNode]
  split_ifs
  · rcases p.node? id with _ | n <;> simp
  · rfl

@[simp] theorem inUse_modifySiblings (owner : Option NodeId) (f : List NodeId → List NodeId) :
    (p.modifySiblings owner f).InUse id ↔ p.InUse id := by
  cases owner with
  | none => rfl
  | some up => exact inUse_modifyNode _ up

@[simp] theorem inUse_bumped : p.bumped.InUse id ↔ p.InUse id := Iff.rfl

theorem InUse.of_clear {top : NodeId} (h : (p.clear top).InUse id) : p.InUse id := by
  obtain ⟨n, hn⟩ := h
  exact ⟨n, node?_of_clear hn⟩

theorem InUse.of_place {parent : Option NodeId} {b : Block} (h : (p.place parent b).InUse id) :
    p.InUse id ∨ p.slots.size ≤ id := by
  rcases Nat.lt_or_ge id p.slots.size with hlt | hge
  · obtain ⟨n, hn⟩ := h
    rw [Program.place, node?, Array.getElem?_append_left hlt] at hn
    exact Or.inl ⟨n, hn⟩
  · exact Or.inr hge

/-- **One edit.** Slots are not taken away, and the numbers that come into use are those of fresh
slots. -/
theorem inUse_of_apply {e : Edit} (he : e.InPlace) (h : p.apply e = .ok q) :
    p.slots.size ≤ q.slots.size ∧ ∀ id, q.InUse id → p.InUse id ∨ p.slots.size ≤ id := by
  cases e with
  | insert parent index b =>
    obtain ⟨owner, ids, -, -, rfl⟩ := insert_eq_ok h
    refine ⟨by simp, fun id hid => ?_⟩
    rw [inUse_bumped, inUse_modifySiblings] at hid
    exact hid.of_place
  | remove parent index =>
    obtain ⟨owner, ids, top, -, -, -, rfl⟩ := remove_eq_ok h
    refine ⟨by simp, fun id hid => Or.inl ?_⟩
    rw [inUse_bumped] at hid
    rw [← inUse_modifySiblings owner]
    exact hid.of_clear
  | move source dest index =>
    obtain ⟨parent, i, moved, n, destOwner, -, -, -, -, rfl⟩ := move_eq_ok h
    exact ⟨by simp, fun id hid => Or.inl (by simpa using hid)⟩
  | reorder parent source target =>
    obtain ⟨owner, ids, moved, -, -, -, rfl⟩ := reorder_eq_ok h
    exact ⟨by simp, fun id hid => Or.inl (by simpa using hid)⟩
  | set path param value =>
    obtain ⟨j, n, s, -, -, -, rfl⟩ := setParam_eq_ok h
    exact ⟨by simp, fun id hid => Or.inl (by simpa using hid)⟩
  | replace blocks => exact he.elim

/-- **A history of edits.** -/
theorem Edited.inUse (h : p.Edited q) :
    p.slots.size ≤ q.slots.size ∧ ∀ id, q.InUse id → p.InUse id ∨ p.slots.size ≤ id := by
  induction h with
  | refl => exact ⟨le_rfl, fun _ => Or.inl⟩
  | tail _ hstep ih =>
    obtain ⟨hle, hids⟩ := ih
    obtain ⟨e, he, happly⟩ := hstep
    obtain ⟨hle', hids'⟩ := inUse_of_apply he happly
    refine ⟨hle.trans hle', fun id hid => ?_⟩
    rcases hids' id hid with hbefore | hfresh
    · exact hids id hbefore
    · exact Or.inr (hle.trans hfresh)

theorem Edited.unused (h : p.Edited q) (hid : q.slots.size ≤ id) : ¬ p.InUse id := by
  intro huse
  have hle : p.slots.size ≤ id := h.inUse.1.trans hid
  exact absurd huse.lt_size (Nat.not_lt.mpr hle)

theorem Edited.gone {before later : Program} (h : before.Edited p) (hbefore : before.InUse id)
    (hgone : ¬ p.InUse id) (hlater : p.Edited later) : ¬ later.InUse id := by
  intro huse
  rcases hlater.inUse.2 id huse with hback | hfresh
  · exact hgone hback
  · exact h.unused hfresh hbefore

theorem Edited.stores (h : p.Edited q) (hp : p.Stores ts []) : ∃ us, q.Stores us [] := by
  induction h with
  | refl => exact ⟨ts, hp⟩
  | tail _ hstep ih =>
    obtain ⟨us, hus⟩ := ih
    obtain ⟨e, -, happly⟩ := hstep
    exact hus.of_apply happly

/-! ### Insertion -/

theorem Layout.inUse_iff {es : List (NodeId × Node)} (h : p.Layout es) :
    p.InUse id ↔ id ∈ es.map Prod.fst := by
  rw [InUse, List.mem_map]
  constructor
  · rintro ⟨n, hn⟩
    exact ⟨(id, n), (h.node?_iff id n).mp hn, rfl⟩
  · rintro ⟨⟨j, n⟩, hmem, rfl⟩
    exact ⟨n, h.node? hmem⟩

theorem content_modifySiblings {n : Node} (h : p.node? id = some n) (owner : Option NodeId)
    (f : List NodeId → List NodeId) : ∃ n', (p.modifySiblings owner f).node? id = some n' ∧
      n'.kind = n.kind ∧ n'.settings = n.settings := by
  rw [node?_modifySiblings, h]
  split_ifs
  · exact ⟨_, rfl, rfl, rfl⟩
  · exact ⟨n, rfl, rfl, rfl⟩

/-- **Insertion** brings numbers into use that no node had, one for each block in document order. -/
theorem Stores.inUse_insert (hp : p.Stores ts []) {parent : Path} {index : Nat} {b : Block}
    (h : p.insert parent index b = .ok q) : ∃ fresh : List NodeId, fresh.Nodup ∧
      List.Forall₂ (fun id c => ∃ n, q.node? id = some n ∧ n.kind = c.kind ∧
        n.settings = c.settings) fresh b.row ∧
      (∀ id, q.InUse id ↔ p.InUse id ∨ id ∈ fresh) ∧ ∀ id ∈ fresh, p.slots.size ≤ id := by
  obtain ⟨owner, ids, -, -, rfl⟩ := insert_eq_ok h
  have hplace := (hp.place owner b).layout
  have hold := hp.layout
  rw [List.append_nil] at hold
  have hcontent := Tree.map_content_nodes owner (Tree.label p.slots.size b)
  rw [Tree.block_label] at hcontent
  obtain ⟨entries, hentries⟩ : ∃ entries, entries = (Tree.label p.slots.size b).nodes owner :=
    ⟨_, rfl⟩
  rw [← hentries] at hplace hcontent
  have hnodup := hplace.nodup
  rw [List.map_append, List.nodup_append] at hnodup
  obtain ⟨-, hfresh, hdisjoint⟩ := hnodup
  have hinUse : ∀ id, (p.place owner b).InUse id ↔ p.InUse id ∨ id ∈ entries.map Prod.fst := by
    intro id
    rw [hplace.inUse_iff, List.map_append, List.mem_append, hold.inUse_iff]
  refine ⟨entries.map Prod.fst, hfresh, ?_, fun id => ?_, fun id hid => ?_⟩
  · have hsame : List.Forall₂ (· = ·) (entries.map fun e => (e.2.kind, e.2.settings))
        (b.row.map fun c => (c.kind, c.settings)) := by
      rw [hcontent, List.forall₂_eq_eq_eq]
    rw [List.forall₂_map_left_iff, List.forall₂_map_right_iff] at hsame
    rw [List.forall₂_map_left_iff]
    refine List.Forall₂.imp ?_ ((List.forall₂_and_left _ _).mpr
      ⟨fun e he => hplace.node? (List.mem_append_right _ he), hsame⟩)
    rintro ⟨id, n⟩ c ⟨hheld, hc⟩
    obtain ⟨n', hn', hkind, hsettings⟩ := content_modifySiblings hheld owner
      (·.insertIdx index p.slots.size)
    obtain ⟨hk, hs⟩ := Prod.mk.inj hc
    exact ⟨n', hn', hkind.trans hk, hsettings.trans hs⟩
  · rw [inUse_bumped, inUse_modifySiblings]
    exact hinUse id
  · rcases ((hinUse id).mpr (Or.inr hid)).of_place with huse | hge
    · exact absurd rfl (hdisjoint id (hold.inUse_iff.mp huse) id hid)
    · exact hge

/-! ### Removal -/

mutual

theorem beneath_nodes (parent : Option NodeId) : ∀ t : Tree,
    (∀ e ∈ t.nodes parent, p.node? e.1 = some e.2) → ∀ e ∈ t.nodes parent, p.Beneath t.id e.1
  | .node root kind settings children, hheld, e, he => by
    rw [Tree.nodes] at hheld he
    have hroot := hheld _ List.mem_cons_self
    rcases List.mem_cons.mp he with rfl | he
    · exact .refl
    · obtain ⟨c, hc, hbelow⟩ := beneath_nodesAll (some root) children
        (fun e he => hheld e (List.mem_cons_of_mem _ he)) e he
      exact .head ⟨_, hroot, List.mem_map_of_mem hc⟩ hbelow

theorem beneath_nodesAll (parent : Option NodeId) : ∀ ts : List Tree,
    (∀ e ∈ nodesAll parent ts, p.node? e.1 = some e.2) →
    ∀ e ∈ nodesAll parent ts, ∃ t ∈ ts, p.Beneath t.id e.1
  | [], _, e, he => by simp at he
  | t :: ts, hheld, e, he => by
    rw [Tree.nodesAll_cons] at hheld he
    rcases List.mem_append.mp he with he | he
    · exact ⟨t, List.mem_cons_self,
        beneath_nodes parent t (fun e he => hheld e (List.mem_append_left _ he)) e he⟩
    · obtain ⟨u, hu, hbelow⟩ := beneath_nodesAll parent ts
        (fun e he => hheld e (List.mem_append_right _ he)) e he
      exact ⟨u, List.mem_cons_of_mem _ hu, hbelow⟩

end

theorem beneath_iff {parent : Option NodeId} {t : Tree}
    (hheld : ∀ e ∈ t.nodes parent, p.node? e.1 = some e.2) :
    p.Beneath t.id id ↔ id ∈ (t.nodes parent).map Prod.fst := by
  constructor
  · intro hbelow
    induction hbelow with
    | refl => exact List.mem_map_of_mem (Tree.mem_nodes_self parent t)
    | tail _ hstep ih =>
      obtain ⟨⟨up, m⟩, hm, rfl⟩ := List.mem_map.mp ih
      obtain ⟨n, hn, hc⟩ := hstep
      rw [hheld _ hm] at hn
      cases hn
      obtain ⟨k, hk, -⟩ := (Tree.children_nodes parent t hm).2 _ hc
      exact List.mem_map_of_mem hk
  · intro hid
    obtain ⟨e, he, rfl⟩ := List.mem_map.mp hid
    exact beneath_nodes parent t hheld e he

theorem Stores.locate_of_resolveParent (h : p.Stores ts []) {path : Path} {owner : Option NodeId}
    {ids : List NodeId} (howner : p.resolveParent path = .ok owner)
    (hids : p.siblings owner = .ok ids) : ∃ cs,
      locate .root none ts path.indices = .ok (owner, cs) ∧ ids = cs.map Tree.id := by
  rw [h.resolveParent] at howner
  obtain ⟨⟨o, cs⟩, hl, rfl⟩ := map_eq_ok.mp howner
  rw [(h.owns hl).siblings] at hids
  cases hids
  exact ⟨cs, hl, rfl⟩

theorem Stores.resolve_child (h : p.Stores ts []) {path : Path} {owner : Option NodeId}
    {ids : List NodeId} (howner : p.resolveParent path = .ok owner)
    (hids : p.siblings owner = .ok ids) {i : Nat} (hid : ids[i]? = some id) :
    p.resolve (path.child i) = .ok id := by
  obtain ⟨cs, hl, rfl⟩ := h.locate_of_resolveParent howner hids
  rw [List.getElem?_map] at hid
  obtain ⟨t, ht, rfl⟩ := Option.map_eq_some_iff.mp hid
  have hsplit : (path.child i).split? = some (path, i) := split?_eq_some_iff.mpr rfl
  rw [h.resolve hsplit]
  exact bind_eq_ok.mpr ⟨_, hl, bind_eq_ok.mpr ⟨t, Tree.pick_eq_ok_iff.mpr ht, rfl⟩⟩

/-- **Removal** gives up the numbers of the subtree that it takes out, and no others. -/
theorem Stores.inUse_remove (hp : p.Stores ts []) {parent : Path} {index : Nat}
    (h : p.remove parent index = .ok q) : ∃ top, p.resolve (parent.child index) = .ok top ∧
      ∀ id, q.InUse id ↔ p.InUse id ∧ ¬ p.Beneath top id := by
  obtain ⟨owner, ids, top, howner, hids, htop, rfl⟩ := remove_eq_ok h
  refine ⟨top, hp.resolve_child howner hids htop, fun id => ?_⟩
  obtain ⟨cs, hl, rfl⟩ := hp.locate_of_resolveParent howner hids
  rw [List.getElem?_map] at htop
  obtain ⟨t, ht, rfl⟩ := Option.map_eq_some_iff.mp htop
  have hheld : ∀ e ∈ t.nodes owner, p.node? e.1 = some e.2 := fun e he =>
    hp.held e (Tree.nodesAll_subset_of_locate hl
      (Tree.nodes_subset_nodesAll (List.mem_of_getElem? ht) owner he))
  have hdetached := hp.detach hl ht
  have hcleared := hdetached.clear.layout
  rw [List.append_nil] at hcleared
  have hnodup := hdetached.layout.nodup
  rw [List.map_append, List.nodup_append] at hnodup
  obtain ⟨-, -, hdisjoint⟩ := hnodup
  rw [inUse_bumped, hcleared.inUse_iff, ← inUse_modifySiblings owner (·.eraseIdx index),
    hdetached.layout.inUse_iff, List.map_append, List.mem_append, beneath_iff hheld]
  constructor
  · exact fun hid => ⟨Or.inl hid, fun hbelow => hdisjoint id hid id hbelow rfl⟩
  · rintro ⟨hid | hid, hnot⟩
    · exact hid
    · exact absurd hid hnot

/-! ### What edits keep -/

theorem filter_eraseIdx {x : NodeId} : ∀ {ids : List NodeId} {i : Nat}, ids[i]? = some x →
    (ids.eraseIdx i).filter (· ≠ x) = ids.filter (· ≠ x)
  | [], _, h => by simp at h
  | y :: ids, 0, h => by
    obtain rfl : y = x := Option.some.inj h
    simp
  | y :: ids, i + 1, h => by
    rw [List.eraseIdx_cons_succ, List.filter_cons, List.filter_cons,
      filter_eraseIdx (List.getElem?_cons_succ ▸ h)]

theorem filter_insertIdx (x : NodeId) : ∀ (ids : List NodeId) (i : Nat),
    (ids.insertIdx i x).filter (· ≠ x) = ids.filter (· ≠ x)
  | ids, 0 => by simp
  | [], i + 1 => by simp
  | y :: ids, i + 1 => by
    rw [List.insertIdx_succ_cons, List.filter_cons, List.filter_cons, filter_insertIdx x ids i]

theorem siblings_change {owner other : Option NodeId} {f : List NodeId → List NodeId}
    {ids ids' : List NodeId} (h : p.siblings other = .ok ids)
    (h' : (p.modifySiblings owner f).siblings other = .ok ids') :
    owner = other ∧ ids' = f ids ∨ ids' = ids := by
  rw [siblings_modifySiblings, h] at h'
  split_ifs at h' with howner
  · cases h'
    exact Or.inl ⟨howner, rfl⟩
  · cases h'
    exact Or.inr rfl

theorem Keeps.of_content {e : Edit}
    (hcontent : ∀ {id : NodeId} {n n' : Node}, p.node? id = some n → q.node? id = some n' →
      n'.kind = n.kind ∧ n'.settings = n.settings)
    (hsiblings : ∀ {owner : Option NodeId} {ids ids' : List NodeId}, p.siblings owner = .ok ids →
      q.siblings owner = .ok ids' → ids' = ids ∨
        p.Names e owner ∧ ∃ x, p.Shifts e x ∧ ids'.filter (· ≠ x) = ids.filter (· ≠ x)) :
    p.Keeps e q :=
  ⟨fun hn hn' => (hcontent hn hn').1,
    fun hn hn' param => Or.inl (by rw [(hcontent hn hn').2]), hsiblings⟩

theorem keeps_insert {parent : Path} {index : Nat} {b : Block}
    (h : p.insert parent index b = .ok q) : p.Keeps (.insert parent index b) q := by
  obtain ⟨owner, ids, howner, -, rfl⟩ := insert_eq_ok h
  refine .of_content (fun {id n n'} hn hn' => ?_) (fun {other ids ids'} hs hs' => ?_)
  · obtain ⟨m, hm, hcontent⟩ := content_modifySiblings (node?_place hn) owner
      (·.insertIdx index p.slots.size)
    obtain rfl : m = n' := Option.some.inj (hm.symm.trans hn')
    exact hcontent
  · rcases siblings_change (siblings_place hs) hs' with ⟨rfl, rfl⟩ | rfl
    · exact Or.inr ⟨⟨parent, List.mem_singleton_self _, howner⟩, _, rfl, filter_insertIdx _ _ _⟩
    · exact Or.inl rfl

theorem Stores.keeps_remove (hp : p.Stores ts []) {parent : Path} {index : Nat}
    (h : p.remove parent index = .ok q) : p.Keeps (.remove parent index) q := by
  obtain ⟨owner, ids, top, howner, hids, htop, rfl⟩ := remove_eq_ok h
  refine .of_content (fun {id n n'} hn hn' => ?_) (fun {other ids ids'} hs hs' => ?_)
  · obtain ⟨m, hm, hcontent⟩ := content_modifySiblings hn owner (·.eraseIdx index)
    obtain rfl : m = n' := Option.some.inj (hm.symm.trans (node?_of_clear hn'))
    exact hcontent
  · rcases siblings_change hs (siblings_of_clear hs') with ⟨rfl, rfl⟩ | rfl
    · obtain rfl := Except.ok.inj (hs.symm.trans hids)
      exact Or.inr ⟨⟨parent, List.mem_singleton_self _, howner⟩, top,
        hp.resolve_child howner hids htop, filter_eraseIdx htop⟩
    · exact Or.inl rfl

theorem Stores.keeps_reorder (hp : p.Stores ts []) {parent : Path} {source target : Nat}
    (h : p.reorder parent source target = .ok q) : p.Keeps (.reorder parent source target) q := by
  obtain ⟨owner, ids, moved, howner, hids, hmoved, rfl⟩ := reorder_eq_ok h
  refine .of_content (fun {id n n'} hn hn' => ?_) (fun {other ids ids'} hs hs' => ?_)
  · obtain ⟨m, hm, hcontent⟩ := content_modifySiblings hn owner
      fun ids => (ids.eraseIdx source).insertIdx target moved
    obtain rfl : m = n' := Option.some.inj (hm.symm.trans hn')
    exact hcontent
  · rcases siblings_change hs hs' with ⟨rfl, rfl⟩ | rfl
    · obtain rfl := Except.ok.inj (hs.symm.trans hids)
      exact Or.inr ⟨⟨parent, List.mem_singleton_self _, howner⟩, moved,
        hp.resolve_child howner hids hmoved,
        (filter_insertIdx _ _ _).trans (filter_eraseIdx hmoved)⟩
    · exact Or.inl rfl

/-- A move takes the block out of one list and puts it into another; the two may be the same. -/
theorem Stores.keeps_move (hp : p.Stores ts []) {source dest : Path} {index : Nat}
    (h : p.move source dest index = .ok q) : p.Keeps (.move source dest index) q := by
  obtain ⟨parent, i, moved, n, target, hsplit, hmoved, hn, htarget, rfl⟩ := move_eq_ok h
  obtain ⟨parent', i', n', from', hsplit', hn', howner, hfrom, hi⟩ := hp.resolve_eq_ok hmoved
  cases hsplit.symm.trans hsplit'
  cases hn.symm.trans hn'
  have hsource : p.Names (.move source dest index) n.parent :=
    ⟨parent, by simp [Edit.lists, hsplit], howner⟩
  have hdest : p.Names (.move source dest index) target := ⟨dest, by simp [Edit.lists], htarget⟩
  refine .of_content (fun {id k k'} hk hk' => ?_) (fun {other ids ids'} hs hs' => ?_)
  · obtain ⟨k₁, hk₁, hkind₁, hsettings₁⟩ := content_modifySiblings hk n.parent (·.eraseIdx i)
    obtain ⟨k₂, hk₂, hkind₂, hsettings₂⟩ := content_modifySiblings hk₁ target
      (·.insertIdx index moved)
    have hlast : k'.kind = k₂.kind ∧ k'.settings = k₂.settings := by
      have hk' := (node?_modifyNode _ moved id _).symm.trans hk'
      rw [hk₂] at hk'
      split_ifs at hk'
      · cases hk'
        exact ⟨rfl, rfl⟩
      · cases hk'
        exact ⟨rfl, rfl⟩
    exact ⟨hlast.1.trans (hkind₂.trans hkind₁), hlast.2.trans (hsettings₂.trans hsettings₁)⟩
  · have hput : ((p.modifySiblings n.parent (·.eraseIdx i)).modifySiblings target
        (·.insertIdx index moved)).siblings other = .ok ids' :=
      (siblings_modifyNode (f := ({ · with parent := target })) (fun _ => rfl) _ moved
        other).symm.trans hs'
    obtain ⟨left, hleft⟩ : ∃ left,
        (p.modifySiblings n.parent (·.eraseIdx i)).siblings other = .ok left := by
      rw [siblings_modifySiblings, hs]
      split_ifs
      · exact ⟨_, rfl⟩
      · exact ⟨_, rfl⟩
    rcases siblings_change hs hleft with ⟨rfl, rfl⟩ | rfl
    · obtain rfl := Except.ok.inj (hs.symm.trans hfrom)
      refine Or.inr ⟨hsource, moved, hmoved, ?_⟩
      rcases siblings_change hleft hput with ⟨-, rfl⟩ | rfl
      · exact (filter_insertIdx _ _ _).trans (filter_eraseIdx hi)
      · exact filter_eraseIdx hi
    · rcases siblings_change hleft hput with ⟨rfl, rfl⟩ | rfl
      · exact Or.inr ⟨hdest, moved, hmoved, filter_insertIdx _ _ _⟩
      · exact Or.inl rfl

theorem keeps_setParam {path : Path} {param : Param} {value : Float}
    (h : p.setParam path param value = .ok q) : p.Keeps (.set path param value) q := by
  obtain ⟨j, m, s, hj, hm, hs, rfl⟩ := setParam_eq_ok h
  obtain ⟨-, y, -, rfl⟩ := Settings.set_eq_ok hs
  have hnode : ∀ {id : NodeId} {n n' : Node}, p.node? id = some n →
      (p.modifyNode j ({ · with settings := m.settings.insert param y })).node? id = some n' →
      n' = n ∨ id = j ∧ n' = { n with settings := n.settings.insert param y } := by
    intro id n n' hn hn'
    rw [node?_modifyNode, hn] at hn'
    split_ifs at hn' with hid
    · subst hid
      cases hm.symm.trans hn
      cases hn'
      exact Or.inr ⟨rfl, rfl⟩
    · cases hn'
      exact Or.inl rfl
  refine ⟨fun {id n n'} hn hn' => ?_, fun {id n n'} hn hn' r => ?_,
    fun {owner ids ids'} hs hs' => Or.inl ?_⟩
  · rcases hnode hn hn' with rfl | ⟨-, rfl⟩
    · rfl
    · rfl
  · rcases hnode hn hn' with rfl | ⟨rfl, rfl⟩
    · exact Or.inl rfl
    · by_cases hr : r = param
      · subst hr
        exact Or.inr ⟨path, value, rfl, hj⟩
      · exact Or.inl (Settings.get?_insert_of_ne _ hr y)
  · have hkept := siblings_modifyNode (f := ({ · with settings := m.settings.insert param y }))
      (fun _ => rfl) p j owner
    exact Except.ok.inj (hs'.symm.trans (hkept.trans hs))

/-- **What an edit keeps.** -/
theorem Stores.keeps (hp : p.Stores ts []) {e : Edit} (he : e.InPlace) (h : p.apply e = .ok q) :
    p.Keeps e q := by
  cases e with
  | insert parent index b => exact keeps_insert h
  | remove parent index => exact hp.keeps_remove h
  | move source dest index => exact hp.keeps_move h
  | reorder parent source target => exact hp.keeps_reorder h
  | set path param value => exact keeps_setParam h
  | replace blocks => exact he.elim

theorem Edited.kind (h : p.Edited q) (hp : p.Stores ts []) {n n' : Node} (hn : p.node? id = some n)
    (hn' : q.node? id = some n') : n'.kind = n.kind := by
  induction h generalizing n' with
  | refl =>
    rw [hn] at hn'
    cases hn'
    rfl
  | @tail m r hm hstep ih =>
    obtain ⟨us, hus⟩ := Edited.stores hm hp
    obtain ⟨e, he, happly⟩ := hstep
    by_cases hmid : m.InUse id
    · obtain ⟨k, hk⟩ := hmid
      exact ((hus.keeps he happly).kind hk hn').trans (ih hk)
    · have hafter : m.Edited r := .single ⟨e, he, happly⟩
      exact absurd ⟨n', hn'⟩ (Edited.gone hm ⟨n, hn⟩ hmid hafter)

theorem inUse_of_keepsBlocks {e : Edit} (he : e.KeepsBlocks) (h : p.apply e = .ok q) :
    q.InUse id ↔ p.InUse id := by
  cases e with
  | insert parent index b => exact he.elim
  | remove parent index => exact he.elim
  | move source dest index =>
    obtain ⟨parent, i, moved, n, target, -, -, -, -, rfl⟩ := move_eq_ok h
    rw [inUse_bumped, inUse_modifyNode, inUse_modifySiblings, inUse_modifySiblings]
  | reorder parent source target =>
    obtain ⟨owner, ids, moved, -, -, -, rfl⟩ := reorder_eq_ok h
    rw [inUse_bumped, inUse_modifySiblings]
  | set path param value =>
    obtain ⟨j, n, s, -, -, -, rfl⟩ := setParam_eq_ok h
    rw [inUse_bumped, inUse_modifyNode]
  | replace blocks => exact he.elim

/-- **Nodes keep their numbers.** After any history of edits in place, an insertion takes numbers
that no node of the history had, one for each block in document order; a removal gives up those of
the subtree and no others; moves and changes of parameters keep the numbers in use; a number that
was given up stays so; and the nodes that stay keep their kind, the parameters that are not set and
the order of their children but for the block that the edit shifts. -/
theorem numbers_identify_nodes (hp : p.Reachable) {m : Program} (hm : p.Edited m) :
    (∀ parent index b q, m.insert parent index b = .ok q → ∃ fresh : List NodeId, fresh.Nodup ∧
      List.Forall₂ (fun id c => ∃ n, q.node? id = some n ∧ n.kind = c.kind ∧
        n.settings = c.settings) fresh b.row ∧
      (∀ id, q.InUse id ↔ m.InUse id ∨ id ∈ fresh) ∧
      ∀ before : Program, before.Edited m → ∀ id ∈ fresh, ¬ before.InUse id) ∧
    (∀ parent index q, m.remove parent index = .ok q →
      ∃ top, m.resolve (parent.child index) = .ok top ∧
        ∀ id, q.InUse id ↔ m.InUse id ∧ ¬ m.Beneath top id) ∧
    (∀ e q, e.KeepsBlocks → m.apply e = .ok q → ∀ id, q.InUse id ↔ m.InUse id) ∧
    (∀ (before later : Program) id, before.Edited m → m.Edited later → before.InUse id →
      ¬ m.InUse id → ¬ later.InUse id) ∧
    (∀ id n n', p.node? id = some n → m.node? id = some n' → n'.kind = n.kind) ∧
    ∀ e q, e.InPlace → m.apply e = .ok q → m.Keeps e q := by
  obtain ⟨ts, hts⟩ := hp.stores
  obtain ⟨us, hus⟩ := hm.stores hts
  refine ⟨fun parent index b q h => ?_, fun parent index q h => hus.inUse_remove h,
    fun e q he h id => inUse_of_keepsBlocks he h,
    fun before later id hbefore hlater huse hgone => hbefore.gone huse hgone hlater,
    fun id n n' hn hn' => hm.kind hts hn hn',
    fun e q he h => hus.keeps he h⟩
  obtain ⟨fresh, hnodup, hcontent, hinUse, hsize⟩ := hus.inUse_insert h
  exact ⟨fresh, hnodup, hcontent, hinUse,
    fun before hbefore id hid => hbefore.unused (hsize id hid)⟩

/-- The repeat has the number 1 and the pause below it the number 2; both are given up, and neither
comes back with the block that is inserted afterwards. -/
theorem numbers_after_removal_and_insertion :
    ∃ p m q : Program, p.Reachable ∧ p.remove .root 1 = .ok m ∧ p.Edited m ∧
      m.insert .root 0 (.ofKind .wave) = .ok q ∧ p.InUse 2 ∧ ¬ m.InUse 2 ∧ ¬ q.InUse 2 ∧
      ∃ fresh : List NodeId, fresh.length = 1 ∧ ∀ id ∈ fresh, q.InUse id ∧ ¬ p.InUse id := by
  have hstart : (ofBlocks [.ofKind .wave, ⟨.loop, .empty, [.ofKind .pause]⟩]).Reachable :=
    Reachable.ofBlocks (by simp [Block.AllValid, Block.Valid, Block.ofKind, Kind.isContainer])
  obtain ⟨p, hp, hpause⟩ : ∃ p : Program,
      p = ofBlocks [.ofKind .wave, ⟨.loop, .empty, [.ofKind .pause]⟩] ∧ p.InUse 2 :=
    ⟨_, rfl, _, rfl⟩
  obtain ⟨m, q, hremove, hinsert, hgone⟩ : ∃ m q : Program, p.remove .root 1 = .ok m ∧
      m.insert .root 0 (.ofKind .wave) = .ok q ∧ m.node? 2 = none := by
    subst hp
    exact ⟨_, _, rfl, rfl, rfl⟩
  rw [← hp] at hstart
  have hm : p.Edited m := .single ⟨.remove .root 1, trivial, hremove⟩
  have hq : m.Edited q := .single ⟨.insert .root 0 (.ofKind .wave), trivial, hinsert⟩
  have hdead : ¬ m.InUse 2 := by
    rintro ⟨n, hn⟩
    rw [hgone] at hn
    cases hn
  obtain ⟨hinserted, -, -, hstays, -⟩ := numbers_identify_nodes hstart hm
  obtain ⟨fresh, -, hcontent, huse, hunused⟩ := hinserted .root 0 (.ofKind .wave) q hinsert
  refine ⟨p, m, q, hstart, hremove, hm, hinsert, hpause, hdead,
    hstays p q 2 hm hq hpause hdead, fresh, hcontent.length_eq, fun id hid => ?_⟩
  exact ⟨(huse id).mpr (Or.inr hid), hunused p hm id hid⟩

end Program

end Choreo
