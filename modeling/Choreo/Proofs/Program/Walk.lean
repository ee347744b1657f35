import Choreo.Proofs.Program.Identity

/-! # Walking through a program and finding the way

`Program.walk` goes down the child lists and counts siblings as it passes them, `Program.resolve`
follows a path from the root list down. Both read the same links: the walk lists every node once, in
document order, with the one path that leads to it (`Reachable.mem_walk_iff`).

A path that leads to no node is refused for the first thing that is wrong on the way: it goes on
below a block that cannot have children, or past the end of a list. `Astray` says which, and
`Stores.resolve_eq_error_iff` that nothing else is reported. -/

namespace Choreo

/-! ### Document order -/

namespace Path

theorem compareLex_append (as bs cs : List Nat) :
    order.compareLex (as ++ bs) (as ++ cs) = order.compareLex bs cs := by
  induction as with
  | nil => rfl
  | cons a as ih =>
    rw [List.cons_append, List.cons_append, order.compareLex, ih, Nat.compare_eq_eq.mpr rfl]
    rfl

theorem order_of_below {a b : Path} {i : Nat} (h : (a.child i).indices <+: b.indices) :
    a.order b = .lt := by
  obtain ⟨rest, hrest⟩ := h
  have hb : b.indices = a.indices ++ (i :: rest) := by
    rw [← hrest, child, List.append_assoc]
    rfl
  have hcompare := compareLex_append a.indices [] (i :: rest)
  rwa [List.append_nil, ← hb] at hcompare

theorem order_of_siblings {parent a b : Path} {i j : Nat} (hij : i < j)
    (ha : (parent.child i).indices <+: a.indices) (hb : (parent.child j).indices <+: b.indices) :
    a.order b = .lt := by
  obtain ⟨as, has⟩ := ha
  obtain ⟨bs, hbs⟩ := hb
  rw [child, List.append_assoc] at has hbs
  rw [order, ← has, ← hbs, compareLex_append, List.singleton_append, List.singleton_append,
    order.compareLex, Nat.compare_eq_lt.mpr hij]
  rfl

theorem startsWith_iff {a b : Path} : a.startsWith b = true ↔ b.indices <+: a.indices := by
  rw [startsWith, List.isPrefixOf_iff_prefix]

theorem startsWith_eq_false_iff {a b : Path} :
    a.startsWith b = false ↔ ¬ b.indices <+: a.indices := by
  rw [← startsWith_iff, Bool.not_eq_true]

theorem startsWith_self (a : Path) : a.startsWith a = true :=
  startsWith_iff.mpr (List.prefix_refl _)

end Path

namespace Tree

open Block (AllValid allValid_iff valid_iff)

/-! ### The walk through a forest -/

mutual

/-- The nodes of a tree that stands at `here` with their paths, in document order. -/
def walk (here : Path) : Tree → List (Path × NodeId)
  | node id _ _ children => (here, id) :: walkAll here 0 children

/-- The nodes of a forest that is what the list at `parent` holds from `index` on. -/
def walkAll (parent : Path) (index : Nat) : List Tree → List (Path × NodeId)
  | [] => []
  | t :: ts => t.walk (parent.child index) ++ walkAll parent (index + 1) ts

end

@[simp] theorem walkAll_nil (parent : Path) (index : Nat) : walkAll parent index [] = [] := by
  rw [walkAll]

@[simp] theorem walkAll_cons (parent : Path) (index : Nat) (t : Tree) (ts : List Tree) :
    walkAll parent index (t :: ts) =
      t.walk (parent.child index) ++ walkAll parent (index + 1) ts := by
  rw [walkAll]

mutual

theorem map_snd_walk (owner : Option NodeId) (here : Path) : ∀ t : Tree,
    (t.walk here).map Prod.snd = (t.nodes owner).map Prod.fst
  | node id kind settings children => by
    rw [walk, nodes, List.map_cons, List.map_cons, map_snd_walkAll (some id) here 0 children]

theorem map_snd_walkAll (owner : Option NodeId) (parent : Path) (index : Nat) : ∀ ts : List Tree,
    (walkAll parent index ts).map Prod.snd = (nodesAll owner ts).map Prod.fst
  | [] => by simp
  | t :: ts => by
    rw [walkAll_cons, nodesAll_cons, List.map_append, List.map_append,
      map_snd_walk owner (parent.child index) t, map_snd_walkAll owner parent (index + 1) ts]

end

mutual

theorem prefix_of_mem_walk : ∀ (t : Tree) {here : Path} {e : Path × NodeId},
    e ∈ t.walk here → here.indices <+: e.1.indices
  | node id kind settings children, here, e, he => by
    rw [walk, List.mem_cons] at he
    rcases he with rfl | he
    · exact List.prefix_refl _
    · obtain ⟨i, -, hi⟩ := prefix_of_mem_walkAll children he
      exact (List.prefix_append _ _).trans hi

theorem prefix_of_mem_walkAll : ∀ (ts : List Tree) {parent : Path} {index : Nat}
    {e : Path × NodeId}, e ∈ walkAll parent index ts →
      ∃ i, index ≤ i ∧ (parent.child i).indices <+: e.1.indices
  | [], _, _, _, he => by simp at he
  | t :: ts, parent, index, e, he => by
    rw [walkAll_cons, List.mem_append] at he
    rcases he with he | he
    · exact ⟨index, le_rfl, prefix_of_mem_walk t he⟩
    · obtain ⟨i, hi, hprefix⟩ := prefix_of_mem_walkAll ts he
      exact ⟨i, (Nat.le_succ _).trans hi, hprefix⟩

end

mutual

theorem pairwise_walk (here : Path) : ∀ t : Tree,
    (t.walk here).Pairwise fun a b => a.1.order b.1 = .lt
  | node id kind settings children => by
    rw [walk, List.pairwise_cons]
    refine ⟨fun e he => ?_, pairwise_walkAll here 0 children⟩
    obtain ⟨i, -, hi⟩ := prefix_of_mem_walkAll children he
    exact Path.order_of_below hi

/-- **The walk goes in document order.** -/
theorem pairwise_walkAll (parent : Path) (index : Nat) : ∀ ts : List Tree,
    (walkAll parent index ts).Pairwise fun a b => a.1.order b.1 = .lt
  | [] => by simp
  | t :: ts => by
    rw [walkAll_cons, List.pairwise_append]
    refine ⟨pairwise_walk _ t, pairwise_walkAll parent (index + 1) ts, fun a ha b hb => ?_⟩
    obtain ⟨i, hi, hb⟩ := prefix_of_mem_walkAll ts hb
    exact Path.order_of_siblings hi (prefix_of_mem_walk t ha) hb

end

/-! ### The way to a tree -/

/-- The path leads to the tree with the number `id` in the forest, which is the list that `owner`
has and stands at `parent`. -/
def Leads (owner : Option NodeId) (parent : Path) (ts : List Tree) (path : Path) (id : NodeId) :
    Prop :=
  ∃ (ks : List Nat) (i : Nat) (q : Option NodeId) (cs : List Tree) (t : Tree),
    path.indices = parent.indices ++ (ks ++ [i]) ∧ locate parent owner ts ks = .ok (q, cs) ∧
      cs[i]? = some t ∧ t.id = id

/-- A path leads to a tree of the list, or on into the list below it. -/
def LeadsFrom (here : Path) (t : Tree) (path : Path) (id : NodeId) : Prop :=
  (path = here ∧ t.id = id) ∨
    (t.kind.isContainer = true ∧ Leads (some t.id) here t.children path id)

theorem leads_iff {owner : Option NodeId} {parent path : Path} {ts : List Tree} {id : NodeId} :
    Leads owner parent ts path id ↔
      ∃ (i : Nat) (t : Tree), ts[i]? = some t ∧ LeadsFrom (parent.child i) t path id := by
  constructor
  · rintro ⟨_ | ⟨k, ks⟩, i, q, cs, t, hpath, hl, hi, hid⟩
    · cases hl
      exact ⟨i, t, hi, Or.inl ⟨by cases path; exact congrArg Path.mk hpath, hid⟩⟩
    · obtain ⟨u, hu, hc, hl⟩ := locate_cons_iff.mp hl
      refine ⟨k, u, hu, Or.inr ⟨hc, ks, i, q, cs, t, ?_, hl, hi, hid⟩⟩
      rw [hpath, Path.child, List.append_assoc]
      rfl
  · rintro ⟨i, t, hi, ⟨rfl, hid⟩ | ⟨hc, ks, j, q, cs, u, hpath, hl, hj, hid⟩⟩
    · exact ⟨[], i, owner, ts, t, rfl, rfl, hi, hid⟩
    · refine ⟨i :: ks, j, q, cs, u, ?_, locate_cons_iff.mpr ⟨t, hi, hc, hl⟩, hj, hid⟩
      rw [hpath, Path.child, List.append_assoc]
      rfl

mutual

theorem mem_walk_iff : ∀ t : Tree, t.block.Valid → ∀ {here path : Path} {id : NodeId},
    (path, id) ∈ t.walk here ↔ LeadsFrom here t path id
  | node root kind settings children, hvalid, here, path, id => by
    obtain ⟨-, hleaf, hbelow⟩ := valid_iff.mp hvalid
    rw [block] at hleaf hbelow
    have hchildren : (path, id) ∈ walkAll here 0 children ↔
        kind.isContainer = true ∧ Leads (some root) here children path id := by
      rw [mem_walkAll_iff children hbelow, leads_iff]
      simp only [Nat.zero_add]
      refine ⟨fun h => ⟨?_, h⟩, And.right⟩
      -- a block with something below it is a container
      by_contra hc
      have hnil := hleaf (Bool.eq_false_iff.mpr hc)
      rw [blocks_eq_map, List.map_eq_nil_iff] at hnil
      obtain ⟨i, t, hi, -⟩ := h
      rw [hnil] at hi
      cases hi
    rw [walk, List.mem_cons, hchildren, Prod.mk.injEq, LeadsFrom, Tree.id, eq_comm (a := root)]
    rfl

theorem mem_walkAll_iff : ∀ ts : List Tree, AllValid (blocks ts) →
    ∀ {parent path : Path} {index : Nat} {id : NodeId}, (path, id) ∈ walkAll parent index ts ↔
      ∃ (i : Nat) (t : Tree), ts[i]? = some t ∧ LeadsFrom (parent.child (index + i)) t path id
  | [], _, _, _, _, _ => by simp
  | t :: ts, hvalid, parent, path, index, id => by
    rw [blocks, AllValid] at hvalid
    rw [walkAll_cons, List.mem_append, mem_walk_iff t hvalid.1, mem_walkAll_iff ts hvalid.2]
    constructor
    · rintro (h | ⟨i, u, hu, h⟩)
      · exact ⟨0, t, rfl, h⟩
      · exact ⟨i + 1, u, hu, by rwa [← Nat.add_assoc, Nat.add_right_comm]⟩
    · rintro ⟨_ | i, u, hu, h⟩
      · cases hu
        exact Or.inl h
      · exact Or.inr ⟨i, u, hu, by rwa [Nat.add_right_comm, Nat.add_assoc]⟩

end

/-- **The walk lists the trees with the paths that lead to them.** -/
theorem mem_walkAll_iff_leads {ts : List Tree} (hvalid : AllValid (blocks ts))
    (owner : Option NodeId) {parent path : Path} {id : NodeId} :
    (path, id) ∈ walkAll parent 0 ts ↔ Leads owner parent ts path id := by
  rw [mem_walkAll_iff ts hvalid, leads_iff]
  simp only [Nat.zero_add]

/-- **How the search for a list fails.** Some of the indices lead to a list, and there the next one
is past the end or names a tree that cannot have children. -/
theorem exists_of_locate_eq_error {walked : Path} {owner : Option NodeId} {ts : List Tree}
    {ks : List Nat} {e : EditError} (h : locate walked owner ts ks = .error e) :
    ∃ (as : List Nat) (i : Nat) (rest : List Nat) (q : Option NodeId) (cs : List Tree),
      ks = as ++ i :: rest ∧ locate walked owner ts as = .ok (q, cs) ∧
      ((cs.length ≤ i ∧ e = .outOfRange ⟨walked.indices ++ as⟩ i cs.length) ∨
        ∃ t, cs[i]? = some t ∧ t.kind.isContainer = false ∧
          e = .invalidTarget ⟨walked.indices ++ as ++ [i]⟩) := by
  induction ks generalizing walked owner ts with
  | nil => cases h
  | cons k ks ih =>
    rw [locate] at h
    rcases hk : ts[k]? with _ | t
    · rw [hk] at h
      cases h
      refine ⟨[], k, ks, owner, ts, rfl, rfl, Or.inl ⟨List.getElem?_eq_none_iff.mp hk, ?_⟩⟩
      rw [List.append_nil]
    · rw [hk] at h
      simp only at h
      split_ifs at h with hc
      · obtain ⟨as, i, rest, q, cs, rfl, hl, hend⟩ := ih h
        refine ⟨k :: as, i, rest, q, cs, rfl, locate_cons_iff.mpr ⟨t, hk, hc, hl⟩, ?_⟩
        rwa [Path.child, List.append_assoc, List.singleton_append] at hend
      · cases h
        refine ⟨[], k, ks, owner, ts, rfl, rfl, Or.inr ⟨t, hk, Bool.eq_false_iff.mpr hc, ?_⟩⟩
        rw [List.append_nil]
        rfl

end Tree

namespace Program

open Choreo.Tree (nodesAll nodesAll_cons walkAll blocks locate)

variable {p : Program} {ts : List Tree}

/-! ### The walk through a program -/

theorem live_of_held {owner : Option NodeId}
    (hheld : ∀ e ∈ nodesAll owner ts, p.node? e.1 = some e.2) :
    ∀ id ∈ ts.map Tree.id, (p.node? id).isSome = true := by
  intro id hid
  obtain ⟨t, ht, rfl⟩ := List.mem_map.mp hid
  rw [hheld _ (Tree.nodes_subset_nodesAll ht owner (Tree.mem_nodes_self owner t))]
  rfl

mutual

theorem walkWithin_tree (owner : Option NodeId) : ∀ (t : Tree) (here : Path) (fuel : Nat),
    (t.nodes owner).length ≤ fuel → (∀ e ∈ t.nodes owner, p.node? e.1 = some e.2) →
    p.walkWithin fuel here t.id = t.walk here
  | .node id kind settings children, here, fuel, hfuel, hheld => by
    rw [Tree.nodes] at hfuel hheld
    rw [List.length_cons] at hfuel
    obtain ⟨fuel, rfl⟩ : ∃ k, fuel = k + 1 := ⟨fuel - 1, by omega⟩
    have hroot := hheld _ List.mem_cons_self
    have hchildren := fun e he => hheld e (List.mem_cons_of_mem _ he)
    have hbelow := walkWithin_forest (some id) children here 0 fuel (by omega) hchildren
    rw [Tree.id, walkWithin, hroot, Tree.walk]
    simp only
    rw [liveChildren, List.filter_eq_self.mpr (live_of_held hchildren), hbelow]

theorem walkWithin_forest (owner : Option NodeId) : ∀ (ts : List Tree) (parent : Path)
    (index fuel : Nat), (nodesAll owner ts).length ≤ fuel →
    (∀ e ∈ nodesAll owner ts, p.node? e.1 = some e.2) →
    ((ts.map Tree.id).zipIdx index).flatMap
      (fun (child, i) => p.walkWithin fuel (parent.child i) child) = walkAll parent index ts
  | [], _, _, _, _, _ => by simp
  | t :: ts, parent, index, fuel, hfuel, hheld => by
    rw [nodesAll_cons] at hfuel hheld
    rw [List.length_append] at hfuel
    have hfirst := walkWithin_tree owner t (parent.child index) fuel (by omega)
      fun e he => hheld e (List.mem_append_left _ he)
    have hrest := walkWithin_forest owner ts parent (index + 1) fuel (by omega)
      fun e he => hheld e (List.mem_append_right _ he)
    rw [List.map_cons, List.zipIdx_cons, List.flatMap_cons, hrest, Tree.walkAll_cons]
    simp only
    rw [hfirst]

end

/-- **The walk through a program is that through its forest.** -/
theorem Stores.walk (h : p.Stores ts []) : p.walk = walkAll .root 0 ts := by
  rw [Program.walk, h.roots, List.filter_eq_self.mpr (live_of_held h.held)]
  exact walkWithin_forest none ts .root 0 _ h.length_le h.held

theorem Stores.resolve_iff (h : p.Stores ts []) {path : Path} {id : NodeId} :
    p.resolve path = .ok id ↔ Tree.Leads none .root ts path id := by
  constructor
  · intro hid
    rcases hp : path.split? with _ | ⟨parent, i⟩
    · rw [split?_eq_none_iff] at hp
      rw [hp, resolve_root] at hid
      cases hid
    · rw [h.resolve hp] at hid
      obtain ⟨⟨q, cs⟩, hl, hid⟩ := bind_eq_ok.mp hid
      obtain ⟨t, ht, hid⟩ := bind_eq_ok.mp hid
      exact ⟨parent.indices, i, q, cs, t, split?_eq_some_iff.mp hp, hl, Tree.pick_eq_ok_iff.mp ht,
        Except.ok.inj hid⟩
  · rintro ⟨ks, i, q, cs, t, hpath, hl, hi, rfl⟩
    have hp : path.split? = some (⟨ks⟩, i) := split?_eq_some_iff.mpr hpath
    rw [h.resolve hp]
    exact bind_eq_ok.mpr ⟨_, hl, bind_eq_ok.mpr ⟨t, Tree.pick_eq_ok_iff.mpr hi, rfl⟩⟩

theorem Stores.mem_walk_iff (h : p.Stores ts []) (hvalid : Block.AllValid (blocks ts)) {path : Path}
    {id : NodeId} : (path, id) ∈ p.walk ↔ p.resolve path = .ok id := by
  rw [h.walk, Tree.mem_walkAll_iff_leads hvalid none, h.resolve_iff]

/-- **The walk lists the paths that lead somewhere**, each with the node that it leads to. -/
theorem Reachable.mem_walk_iff (hp : p.Reachable) {path : Path} {id : NodeId} :
    (path, id) ∈ p.walk ↔ p.resolve path = .ok id := by
  obtain ⟨ts, h⟩ := hp.stores
  have hvalid := hp.allValid
  rw [h.toBlocks] at hvalid
  exact h.mem_walk_iff hvalid

theorem Stores.map_snd_walk (h : p.Stores ts []) :
    p.walk.map Prod.snd = (nodesAll none ts).map Prod.fst := by
  rw [h.walk, Tree.map_snd_walkAll none]

/-- **The walk lists every node once.** -/
theorem Reachable.walk_lists_once (hp : p.Reachable) :
    (p.walk.map Prod.snd).Nodup ∧ ∀ id, id ∈ p.walk.map Prod.snd ↔ p.InUse id := by
  obtain ⟨ts, h⟩ := hp.stores
  have hlayout := h.layout
  rw [List.append_nil] at hlayout
  rw [h.map_snd_walk]
  exact ⟨hlayout.nodup, fun id => hlayout.inUse_iff.symm⟩

theorem Stores.pairwise_walk (h : p.Stores ts []) :
    p.walk.Pairwise fun a b => a.1.order b.1 = .lt := by
  rw [h.walk]
  exact Tree.pairwise_walkAll .root 0 ts

theorem Reachable.walk_unique (hp : p.Reachable) {a b : Path} {id : NodeId} (ha : (a, id) ∈ p.walk)
    (hb : (b, id) ∈ p.walk) : a = b :=
  congrArg Prod.fst (List.inj_on_of_nodup_map hp.walk_lists_once.1 ha hb rfl)

/-- The slots hold a tree of the forest, which has no more nodes than there are slots. -/
theorem Stores.held_of_locate (h : p.Stores ts []) {ks : List Nat} {q : Option NodeId}
    {cs : List Tree} (hl : locate .root none ts ks = .ok (q, cs)) {i : Nat} {t : Tree}
    (hi : cs[i]? = some t) : (∀ e ∈ t.nodes q, p.node? e.1 = some e.2) ∧
      (t.nodes q).length ≤ p.slots.size := by
  refine ⟨fun e he => h.held e (Tree.nodesAll_subset_of_locate hl
    (Tree.nodes_subset_nodesAll (List.mem_of_getElem? hi) q he)), ?_⟩
  have hlength := (h.detach hl hi).layout.length_le
  rw [List.length_append, size_slots_modifySiblings] at hlength
  omega

theorem Stores.blockAt_of_locate (h : p.Stores ts []) {parent : Path} {q : Option NodeId}
    {cs : List Tree} (hl : locate .root none ts parent.indices = .ok (q, cs)) {i : Nat} {t : Tree}
    (hi : cs[i]? = some t) :
    p.subtree? t.id = some t.block ∧ p.blockAt (parent.child i) = .ok t.block := by
  obtain ⟨hheld, hfuel⟩ := h.held_of_locate hl hi
  have hsubtree : p.subtree? t.id = some t.block := blockWithin_tree q t _ hfuel hheld
  refine ⟨hsubtree, bind_eq_ok.mpr ⟨t.id, ?_, ?_⟩⟩
  · exact h.resolve_iff.mpr ⟨parent.indices, i, q, cs, t, rfl, hl, hi, rfl⟩
  · rw [hsubtree]
    rfl

theorem Stores.blockAt (h : p.Stores ts []) {path : Path} {id : NodeId}
    (hid : p.resolve path = .ok id) : ∃ parent i cs b, path.split? = some (parent, i) ∧
      Forest.siblings .root p.toBlocks parent.indices = .ok cs ∧ cs[i]? = some b ∧
      p.subtree? id = some b ∧ p.blockAt path = .ok b := by
  obtain ⟨ks, i, q, cs, t, hpath, hl, hi, rfl⟩ := h.resolve_iff.mp hid
  obtain ⟨parent, rfl⟩ : ∃ parent : Path, ks = parent.indices := ⟨⟨ks⟩, rfl⟩
  obtain ⟨hsubtree, hblock⟩ := h.blockAt_of_locate hl hi
  obtain rfl : path = parent.child i := congrArg Path.mk hpath
  refine ⟨parent, i, blocks cs, t.block, split?_eq_some_iff.mpr rfl, ?_, ?_, hsubtree, hblock⟩
  · rw [h.toBlocks, Tree.siblings_blocks .root none, hl]
    rfl
  · rw [Tree.getElem?_blocks, hi]
    rfl

/-! ### Paths that lead nowhere -/

/-- The path leads to a block that cannot have children. -/
def LeafAt (p : Program) (path : Path) : Prop :=
  ∃ id n, p.resolve path = .ok id ∧ p.node? id = some n ∧ n.kind.isContainer = false

/-- The path is that of the root list, or leads to a block. -/
def Arrives (p : Program) (path : Path) : Prop := path = .root ∨ ∃ id, p.resolve path = .ok id

/-- What is wrong with a path that leads to no block, and the error that says so. -/
inductive Astray (p : Program) (path : Path) : EditError → Prop where
  /-- The path is that of the root list. -/
  | root (top : path = .root) : Astray p path (.invalidTarget .root)
  /-- The path goes on below a block that cannot have children, the first one on the way. -/
  | leaf {stop : Path} {i : Nat} {rest : List Nat}
    (split : path.indices = stop.indices ++ i :: rest) (leaf : p.LeafAt stop)
    (first : ∀ x : Path, path.startsWith x = true → p.LeafAt x → stop.depth ≤ x.depth) :
    Astray p path (.invalidTarget stop)
  /-- The path leads to a list, but not on into it: the list is too short. -/
  | range {stop : Path} {i : Nat} {rest : List Nat} {owner : Option NodeId} {ids : List NodeId}
    (split : path.indices = stop.indices ++ i :: rest) (list : p.resolveParent stop = .ok owner)
    (members : p.siblings owner = .ok ids) (short : ids.length ≤ i)
    (longest : ∀ x : Path, path.startsWith x = true → p.Arrives x → x.depth ≤ stop.depth) :
    Astray p path (.outOfRange stop i ids.length)

theorem descend_append (walked : Path) (owner : Option NodeId) (as bs : List Nat) :
    p.descend walked owner (as ++ bs) = (do
      let found ← p.descend walked owner as
      p.descend ⟨walked.indices ++ as⟩ found bs) := by
  induction as generalizing walked owner with
  | nil =>
    rw [List.nil_append, List.append_nil, descend]
    rfl
  | cons i as ih =>
    have hbelow : ∀ id, p.descend (walked.child i) (some id) (as ++ bs) = (do
        let found ← p.descend (walked.child i) (some id) as
        p.descend ⟨walked.indices ++ i :: as⟩ found bs) := fun id => by
      rw [ih, Path.child, List.append_assoc]
      rfl
    rw [List.cons_append]
    rcases owner with _ | id
    · simp only [descend, siblings, bind, Except.bind]
      rcases p.roots[i]? with _ | id
      · rfl
      · exact hbelow id
    · simp only [descend, bind, Except.bind]
      rcases p.node id with e | n
      · rfl
      simp only
      split_ifs
      · rfl
      rcases p.siblings (some id) with e | ids
      · rfl
      simp only
      rcases ids[i]? with _ | c
      · rfl
      · exact hbelow c

theorem descend_of_resolve {path : Path} {id : NodeId} (h : p.resolve path = .ok id) :
    p.descend .root none path.indices = .ok (some id) := by
  obtain ⟨found, hfound, h⟩ := bind_eq_ok.mp h
  rcases found with _ | x
  · cases h
  · cases h
    exact hfound

theorem descend_of_resolveParent {path : Path} {owner : Option NodeId}
    (h : p.resolveParent path = .ok owner) : p.descend .root none path.indices = .ok owner := by
  unfold resolveParent at h
  split_ifs at h with hroot
  · cases h
    rw [List.isEmpty_iff.mp hroot]
    rfl
  · obtain ⟨id, hid, h⟩ := bind_eq_ok.mp h
    obtain ⟨n, -, h⟩ := bind_eq_ok.mp h
    split_ifs at h
    cases h
    exact descend_of_resolve hid

theorem resolve_of_descend {path : Path} {e : EditError}
    (h : p.descend .root none path.indices = .error e) : p.resolve path = .error e := by
  rw [resolve, h]
  rfl

theorem LeafAt.resolve_below {stop path : Path} (h : p.LeafAt stop) {i : Nat} {rest : List Nat}
    (hsplit : path.indices = stop.indices ++ i :: rest) :
    p.resolve path = .error (.invalidTarget stop) := by
  obtain ⟨id, n, hid, hn, hleaf⟩ := h
  refine resolve_of_descend ?_
  rw [hsplit, descend_append, descend_of_resolve hid]
  exact descend_leaf hn (Bool.eq_false_iff.mp hleaf) _ _ _

theorem Stores.resolve_past (h : p.Stores ts []) {stop path : Path} {owner : Option NodeId}
    {ids : List NodeId} (howner : p.resolveParent stop = .ok owner)
    (hids : p.siblings owner = .ok ids) {i : Nat} {rest : List Nat} (hi : ids.length ≤ i)
    (hsplit : path.indices = stop.indices ++ i :: rest) :
    p.resolve path = .error (.outOfRange stop i ids.length) := by
  obtain ⟨cs, hl, rfl⟩ := h.locate_of_resolveParent howner hids
  rw [List.length_map] at hi
  refine resolve_of_descend ?_
  rw [hsplit, descend_append, descend_of_resolveParent howner]
  refine ((h.owns hl).descend_cons _ i rest).trans ?_
  rw [Tree.pick, List.getElem?_eq_none hi, List.length_map]
  rfl

theorem Stores.astray_past (h : p.Stores ts []) {path stop : Path} {i : Nat} {rest : List Nat}
    {q : Option NodeId} {cs : List Tree} (hsplit : path.indices = stop.indices ++ i :: rest)
    (hl : locate .root none ts stop.indices = .ok (q, cs)) (hi : cs.length ≤ i) :
    p.Astray path (.outOfRange stop i cs.length) := by
  have howner : p.resolveParent stop = .ok q := by
    rw [h.resolveParent, hl]
    rfl
  have hids := (h.owns hl).siblings
  have hlast : (stop.child i).indices <+: path.indices := ⟨rest, by
    rw [hsplit, Path.child, List.append_assoc]
    rfl⟩
  rw [← List.length_map (f := Tree.id)] at hi ⊢
  refine .range hsplit howner hids hi fun x hx hx' => ?_
  by_contra hlt
  rw [Path.depth, Path.depth, Nat.not_le] at hlt
  -- a longer path would go past the end of the same list
  obtain ⟨rest', hrest⟩ := List.prefix_of_prefix_length_le hlast (Path.startsWith_iff.mp hx)
    (by rw [Path.child, List.length_append]; exact hlt)
  rw [Path.child, List.append_assoc] at hrest
  rcases hx' with rfl | ⟨id, hid⟩
  · exact absurd hrest (by simp [Path.root])
  · rw [h.resolve_past howner hids hi hrest.symm] at hid
    cases hid

theorem LeafAt.astray {path stop : Path} (hstop : p.LeafAt stop) {i : Nat} {rest : List Nat}
    (hsplit : path.indices = stop.indices ++ i :: rest) : p.Astray path (.invalidTarget stop) := by
  refine .leaf hsplit hstop fun x hx hx' => ?_
  by_contra hlt
  rw [Path.depth, Path.depth, Nat.not_le] at hlt
  -- a shorter leaf would stand on the way to this one
  obtain ⟨rest', hrest⟩ := List.prefix_of_prefix_length_le (Path.startsWith_iff.mp hx)
    ⟨i :: rest, hsplit.symm⟩ hlt.le
  obtain ⟨id, n, hid, -⟩ := hstop
  rcases rest' with _ | ⟨j, rest'⟩
  · rw [List.append_nil] at hrest
    rw [hrest] at hlt
    exact absurd hlt (lt_irrefl _)
  · rw [hx'.resolve_below hrest.symm] at hid
    cases hid

theorem Stores.leafAt (h : p.Stores ts []) {ks : List Nat} {q : Option NodeId} {cs : List Tree}
    (hl : locate .root none ts ks = .ok (q, cs)) {i : Nat} {t : Tree} (ht : cs[i]? = some t)
    (hleaf : t.kind.isContainer = false) : p.LeafAt ⟨ks ++ [i]⟩ :=
  ⟨t.id, _, h.resolve_iff.mpr ⟨ks, i, q, cs, t, rfl, hl, ht, rfl⟩, h.node_of_locate hl ht, hleaf⟩

/-- **A path that leads nowhere is refused for the first thing that is wrong with it.** -/
theorem Stores.resolve_eq_error_iff (h : p.Stores ts []) {path : Path} {e : EditError} :
    p.resolve path = .error e ↔ p.Astray path e := by
  constructor
  · intro he
    rcases hp : path.split? with _ | ⟨parent, i⟩
    · rw [split?_eq_none_iff] at hp
      rw [hp, resolve_root] at he
      cases he
      exact .root hp
    have hpath := split?_eq_some_iff.mp hp
    rw [h.resolve hp] at he
    rcases hl : locate .root none ts parent.indices with e' | ⟨q, cs⟩
    · rw [hl] at he
      cases he
      obtain ⟨as, j, rest, q, cs, has, hlist, ⟨hj, rfl⟩ | ⟨t, ht, hleaf, rfl⟩⟩ :=
        Tree.exists_of_locate_eq_error hl
      · have hsplit : path.indices = (Path.mk as).indices ++ j :: (rest ++ [i]) := by
          rw [hpath, has, List.append_assoc]
          rfl
        exact h.astray_past hsplit hlist hj
      · obtain ⟨k, rest', hrest⟩ : ∃ k rest', rest ++ [i] = k :: rest' :=
          List.exists_cons_of_ne_nil (by simp)
        have hsplit : path.indices = (Path.mk (as ++ [j])).indices ++ k :: rest' := by
          rw [hpath, has, ← hrest]
          simp
        exact (h.leafAt hlist ht hleaf).astray hsplit
    · rw [hl] at he
      rcases ht : cs[i]? with _ | t
      · simp only [bind, Except.bind, Tree.pick, ht] at he
        cases he
        exact h.astray_past hpath hl (List.getElem?_eq_none_iff.mp ht)
      · simp only [bind, Except.bind, Tree.pick, ht] at he
        cases he
  · rintro (rfl | ⟨hsplit, hleaf, -⟩ | ⟨hsplit, howner, hids, hi, -⟩)
    · exact resolve_root p
    · exact hleaf.resolve_below hsplit
    · exact h.resolve_past howner hids hi hsplit

/-- **Walking and finding are inverse to each other.** The walk through a program that edits lead to
lists every node once and goes in document order: a place comes before those below it, and siblings
come in their order. The paths that it lists are those that lead to a node, each with the node that
it leads to; there stands the block that stands at the same place of the nested list of the blocks.
Every other path is refused for the first thing that is wrong with it. -/
theorem walk_inverts_resolve (hp : p.Reachable) :
    ((p.walk.map Prod.snd).Nodup ∧ ∀ id, id ∈ p.walk.map Prod.snd ↔ p.InUse id) ∧
    p.walk.Pairwise (fun a b => a.1.order b.1 = .lt) ∧
    (∀ path id, (path, id) ∈ p.walk ↔ p.resolve path = .ok id) ∧
    (∀ path id, (path, id) ∈ p.walk → ∃ parent i cs b, path.split? = some (parent, i) ∧
      Forest.siblings .root p.toBlocks parent.indices = .ok cs ∧ cs[i]? = some b ∧
      p.subtree? id = some b ∧ p.blockAt path = .ok b) ∧
    (∀ path e, p.resolve path = .error e ↔ p.Astray path e) := by
  obtain ⟨ts, h⟩ := hp.stores
  exact ⟨hp.walk_lists_once, h.pairwise_walk, fun _ _ => hp.mem_walk_iff,
    fun _ _ hmem => h.blockAt (hp.mem_walk_iff.mp hmem), fun _ _ => h.resolve_eq_error_iff⟩

/-- The pause stands below the loop that comes after the wave. A path on below the wave and a path
past the end of the loop lead nowhere. -/
theorem walk_of_wave_and_loop :
    ∃ p : Program, p.Reachable ∧ p.walk = [(⟨[0]⟩, 0), (⟨[1]⟩, 1), (⟨[1, 0]⟩, 2)] ∧
      p.resolve ⟨[1, 0]⟩ = .ok 2 ∧ p.Astray ⟨[0, 3, 1]⟩ (.invalidTarget ⟨[0]⟩) ∧
      p.Astray ⟨[1, 4, 2]⟩ (.outOfRange ⟨[1]⟩ 4 1) := by
  have hp : (ofBlocks [.ofKind .wave, ⟨.loop, .empty, [.ofKind .pause]⟩]).Reachable :=
    Reachable.ofBlocks (by simp [Block.AllValid, Block.Valid, Block.ofKind, Kind.isContainer])
  obtain ⟨-, -, hlists, -, hastray⟩ := walk_inverts_resolve hp
  refine ⟨_, hp, rfl, ?_, (hastray _ _).mp rfl, (hastray _ _).mp rfl⟩
  exact (hlists ⟨[1, 0]⟩ 2).mp (by decide)

end Program

end Choreo
