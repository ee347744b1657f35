import Choreo.Proofs.Program.Walk

/-! # Edits of different blocks commute

An edit below a block changes this block and reads nothing else: it takes the block out of the
forest, changes it and puts it back (`Part.amend`, `Edit.Within.exists_amend`). Where of two paths
neither starts with the other, there is a sibling list that they leave by different indices
(`exists_fork`), so that edits below them are changes of two siblings, and neither disturbs the
other (`Part.spares_of_independent`). Programs follow the nested lists, whatever slots the first edit
has filled or emptied. -/

namespace Choreo

/-! ### Changes that spare each other -/

/-- A change after which another one fails as it would without it, and succeeds as it would; in this
case the two can be made in either order. -/
structure Spares {α : Type} (f g : α → Except EditError α) : Prop where
  error : ∀ {a b e}, f a = .ok b → g a = .error e → g b = .error e
  ok : ∀ {a b c}, f a = .ok b → g a = .ok c → ∃ d, g b = .ok d ∧ f c = .ok d

/-- A part of a value. Where it is found, it can be replaced. -/
structure Part (α β : Type) where
  get : α → Except EditError β
  put : α → β → α
  get_put : ∀ {a b}, get a = .ok b → ∀ c, get (put a c) = .ok c
  put_put : ∀ a b c, put (put a b) c = put a c

namespace Part

variable {α β γ : Type} {l : Part α β} {m : Part α γ} {a : α} {b : β}

/-- The value with the part changed. -/
def amend (l : Part α β) (f : β → Except EditError β) (a : α) : Except EditError α := do
  let b ← l.get a
  let c ← f b
  return l.put a c

theorem amend_eq_ok {f : β → Except EditError β} {d : α} :
    l.amend f a = .ok d ↔ ∃ b c, l.get a = .ok b ∧ f b = .ok c ∧ l.put a c = d := by
  simp only [amend, bind_eq_ok, pure, Except.pure, Except.ok.injEq, exists_and_left]

theorem amend_eq_error {f : β → Except EditError β} {e : EditError} : l.amend f a = .error e ↔
    l.get a = .error e ∨ ∃ b, l.get a = .ok b ∧ f b = .error e := by
  rw [amend]
  rcases l.get a with e' | b
  · simp [bind, Except.bind]
  · rcases hb : f b with e' | c <;> simp [bind, Except.bind, pure, Except.pure, hb]

theorem spares_amend (l : Part α β) {f g : β → Except EditError β} (h : Spares f g) :
    Spares (l.amend f) (l.amend g) where
  error {a d e} hf hg := by
    obtain ⟨b, c, hb, hc, rfl⟩ := amend_eq_ok.mp hf
    obtain hb' | ⟨b', hb', he⟩ := amend_eq_error.mp hg
    · cases hb.symm.trans hb'
    · cases hb.symm.trans hb'
      exact amend_eq_error.mpr (Or.inr ⟨c, l.get_put hb c, h.error hc he⟩)
  ok {a d d'} hf hg := by
    obtain ⟨b, c, hb, hc, rfl⟩ := amend_eq_ok.mp hf
    obtain ⟨b', c', hb', hc', rfl⟩ := amend_eq_ok.mp hg
    cases hb.symm.trans hb'
    obtain ⟨x, hcx, hcx'⟩ := h.ok hc hc'
    exact ⟨l.put a x, amend_eq_ok.mpr ⟨c, x, l.get_put hb c, hcx, l.put_put a c x⟩,
      amend_eq_ok.mpr ⟨c', x, l.get_put hb c', hcx', l.put_put a c' x⟩⟩

/-- **Changes of two parts that have nothing in common spare each other.** -/
theorem spares_of_independent (hlm : ∀ a b, m.get (l.put a b) = m.get a)
    (hml : ∀ a c, l.get (m.put a c) = l.get a)
    (hput : ∀ a b c, m.put (l.put a b) c = l.put (m.put a c) b)
    (f : β → Except EditError β) (g : γ → Except EditError γ) :
    Spares (l.amend f) (m.amend g) where
  error {a d e} hf hg := by
    obtain ⟨b, c, -, -, rfl⟩ := amend_eq_ok.mp hf
    rw [amend_eq_error] at hg ⊢
    rwa [hlm]
  ok {a d d'} hf hg := by
    obtain ⟨b, c, hb, hc, rfl⟩ := amend_eq_ok.mp hf
    obtain ⟨b', c', hb', hc', rfl⟩ := amend_eq_ok.mp hg
    exact ⟨m.put (l.put a c) c', amend_eq_ok.mpr ⟨b', c', (hlm a c).trans hb', hc', rfl⟩,
      amend_eq_ok.mpr ⟨b, c, (hml a c').trans hb, hc, (hput a c c').symm⟩⟩

end Part

/-! ### The parts of a forest -/

namespace Forest

variable {walked : Path} {bs cs : List Block} {ks : List Nat}

theorem pick_eq_ok_iff {i : Nat} {b : Block} : pick walked cs i = .ok b ↔ cs[i]? = some b := by
  unfold pick
  rcases cs[i]? with _ | c <;> simp

theorem pick_set_of_ne {i j : Nat} (h : i ≠ j) (walked : Path) (cs : List Block) (b : Block) :
    pick walked (cs.set i b) j = pick walked cs j := by
  unfold pick
  rw [List.getElem?_set_ne h, List.length_set]

theorem siblings_graft (h : siblings walked bs ks = .ok cs) (new : List Block) :
    siblings walked (graft bs ks new) ks = .ok new := by
  induction ks generalizing walked bs with
  | nil => rfl
  | cons i rest ih =>
    obtain ⟨b, hi, hc, h⟩ := siblings_cons_iff.mp h
    have hlt := (List.getElem?_eq_some_iff.mp hi).1
    rw [graft_cons_of_getElem? hi]
    exact siblings_cons_iff.mpr ⟨_, List.getElem?_set_self hlt, hc, ih h⟩

theorem graft_graft (bs : List Block) (ks : List Nat) (first last : List Block) :
    graft (graft bs ks first) ks last = graft bs ks last := by
  induction ks generalizing bs with
  | nil => rfl
  | cons i rest ih =>
    rw [graft, graft, graft, List.modify_modify_eq]
    congr 1
    funext b
    rw [Function.comp_apply, ih]

/-- The block at an index of a list that stands at `walked`. -/
def child (walked : Path) (i : Nat) : Part (List Block) Block where
  get cs := pick walked cs i
  put cs b := cs.set i b
  get_put h c := by
    have hlt := (List.getElem?_eq_some_iff.mp (pick_eq_ok_iff.mp h)).1
    exact pick_eq_ok_iff.mpr (List.getElem?_set_self hlt)
  put_put _ b c := List.set_set b

/-- The children of a container, which stands at `walked`. -/
def children (walked : Path) : Part Block (List Block) where
  get b := if b.isContainer then .ok b.children else .error (.invalidTarget walked)
  put b cs := { b with children := cs }
  get_put h c := by
    split_ifs at h with hc
    exact if_pos hc
  put_put _ _ _ := rfl

/-- The sibling list at some indices. -/
def list (walked : Path) (ks : List Nat) : Part (List Block) (List Block) where
  get bs := siblings walked bs ks
  put bs new := graft bs ks new
  get_put h new := siblings_graft h new
  put_put bs first last := graft_graft bs ks first last

theorem spares_of_ne {i j : Nat} (h : i ≠ j) (walked : Path) (f g : Block → Except EditError Block) :
    Spares ((child walked i).amend f) ((child walked j).amend g) :=
  Part.spares_of_independent (fun cs b => pick_set_of_ne h walked cs b)
    (fun cs b => pick_set_of_ne h.symm walked cs b) (fun _ b c => List.set_comm b c h) f g

theorem amend_list_cons (walked : Path) (i : Nat) (rest : List Nat)
    (f : List Block → Except EditError (List Block)) :
    (list walked (i :: rest)).amend f = (child walked i).amend
      ((children (walked.child i)).amend ((list (walked.child i) rest).amend f)) := by
  funext bs
  simp only [Part.amend, list, child, children, siblings, pick]
  rcases hi : bs[i]? with _ | b
  · rfl
  · simp only [bind, Except.bind]
    split_ifs with hc
    · rcases hcs : siblings (walked.child i) b.children rest with e | cs
      · simp only [hcs]
      · rcases hnew : f cs with e | new
        · simp only [hcs, hnew]
        · simp only [hcs, hnew, pure, Except.pure, graft_cons_of_getElem? hi]
    · rfl

theorem amend_list_append (walked : Path) (ks js : List Nat)
    (f : List Block → Except EditError (List Block)) :
    (list walked (ks ++ js)).amend f =
      (list walked ks).amend ((list ⟨walked.indices ++ ks⟩ js).amend f) := by
  induction ks generalizing walked with
  | nil =>
    rw [List.nil_append, List.append_nil]
    funext bs
    exact (bind_pure _).symm
  | cons i rest ih =>
    rw [List.cons_append, amend_list_cons, amend_list_cons, ih]
    simp only [Path.child, List.append_assoc, List.singleton_append]

end Forest

/-! ### Edits below a block -/

/-- The edit changes the block at the path or blocks below it, and no others. -/
def Edit.Within (path : Path) : Edit → Prop
  | .insert parent _ _ | .remove parent _ | .reorder parent _ _ => parent.startsWith path = true
  | .set target _ _ => target.startsWith path = true
  | .move _ _ _ | .replace _ => False

namespace Forest

theorem exists_amend_list {parent : Path} {ks rest : List Nat} {i : Nat}
    (h : parent.startsWith ⟨ks ++ i :: rest⟩ = true)
    (f : List Block → Except EditError (List Block)) :
    ∃ g, (list .root parent.indices).amend f = (list .root ks).amend ((child ⟨ks⟩ i).amend g) := by
  obtain ⟨more, hmore⟩ := Path.startsWith_iff.mp h
  rw [← hmore, List.append_assoc, amend_list_append, List.cons_append]
  exact ⟨_, congrArg _ (amend_list_cons _ i _ f)⟩

theorem set_eq_amend {path : Path} (parent : Path) {k : Nat}
    (h : path.indices = parent.indices ++ [k]) (bs : List Block) (param : Param) (value : Float) :
    set bs path param value = (list .root parent.indices).amend
      ((child parent k).amend fun b => (b.set param value).mapError .block) bs := by
  simp only [set, Program.split?_eq_some_iff.mpr h, Part.amend, list, child]
  congr 1
  funext cs
  rcases pick parent cs k with e | b
  · rfl
  · simp only [bind, Except.bind]
    rcases b.set param value <;> rfl

end Forest

open Forest (list child)

/-- **An edit below a block changes this block** where it stands, whatever else there is. -/
theorem Edit.Within.exists_amend {e : Edit} {ks rest : List Nat} {i : Nat}
    (h : e.Within ⟨ks ++ i :: rest⟩) :
    ∃ g, ∀ bs, Forest.apply bs e = (list .root ks).amend ((child ⟨ks⟩ i).amend g) bs := by
  cases e with
  | insert parent index b =>
    obtain ⟨g, hg⟩ := Forest.exists_amend_list h (Forest.put parent · index b)
    exact ⟨g, fun bs => congrFun hg bs⟩
  | remove parent index =>
    obtain ⟨g, hg⟩ := Forest.exists_amend_list h fun cs => do
      let _ ← Forest.pick parent cs index
      return cs.eraseIdx index
    refine ⟨g, fun bs => Eq.trans ?_ (congrFun hg bs)⟩
    simp only [Forest.apply, Forest.remove, Part.amend, list, bind_assoc, pure_bind]
  | reorder parent source target =>
    obtain ⟨g, hg⟩ := Forest.exists_amend_list h fun cs => do
      let b ← Forest.pick parent cs source
      let _ ← Forest.pick parent cs target
      return (cs.eraseIdx source).insertIdx target b
    refine ⟨g, fun bs => Eq.trans ?_ (congrFun hg bs)⟩
    simp only [Forest.apply, Forest.reorder, Part.amend, list, bind_assoc, pure_bind]
  | set path param value =>
    obtain ⟨more, hmore⟩ := Path.startsWith_iff.mp h
    rw [List.append_assoc, List.cons_append] at hmore
    -- the path ends at the block or at one below it
    rcases List.eq_nil_or_concat (rest ++ more) with hnil | ⟨inner, k, hinner⟩
    · rw [hnil] at hmore
      exact ⟨_, fun bs => Forest.set_eq_amend ⟨ks⟩ hmore.symm bs param value⟩
    · have hpath : path.indices = (ks ++ i :: inner) ++ [k] := by
        rw [← hmore, hinner, List.concat_eq_append, List.append_assoc, List.cons_append]
      obtain ⟨g, hg⟩ := Forest.exists_amend_list (Path.startsWith_self ⟨ks ++ i :: inner⟩)
        ((child ⟨ks ++ i :: inner⟩ k).amend fun b => (b.set param value).mapError .block)
      exact ⟨g, fun bs => (Forest.set_eq_amend _ hpath bs param value).trans (congrFun hg bs)⟩
  | move source dest index => exact h.elim
  | replace blocks => exact h.elim

/-! ### Paths that part -/

/-- Two paths of which neither starts with the other leave some list by different indices. -/
theorem exists_fork {as bs : List Nat} (hab : ¬ as <+: bs) (hba : ¬ bs <+: as) :
    ∃ ks i rest j rest', as = ks ++ i :: rest ∧ bs = ks ++ j :: rest' ∧ i ≠ j := by
  induction as generalizing bs with
  | nil => exact absurd List.nil_prefix hab
  | cons a as ih =>
    rcases bs with _ | ⟨b, bs⟩
    · exact absurd List.nil_prefix hba
    · by_cases h : a = b
      · subst h
        rw [List.prefix_cons_inj] at hab hba
        obtain ⟨ks, i, rest, j, rest', rfl, rfl, hij⟩ := ih hab hba
        exact ⟨a :: ks, i, rest, j, rest', rfl, rfl, hij⟩
      · exact ⟨[], a, as, b, bs, rfl, rfl, h⟩

variable {P Q : Path} {e f : Edit}

/-- **Edits below different blocks spare each other.** -/
theorem Edit.Within.spares (he : e.Within P) (hf : f.Within Q) (hPQ : P.startsWith Q = false)
    (hQP : Q.startsWith P = false) : Spares (Forest.apply · e) (Forest.apply · f) := by
  obtain ⟨ks, i, rest, j, rest', hP, hQ, hij⟩ :=
    exists_fork (Path.startsWith_eq_false_iff.mp hQP) (Path.startsWith_eq_false_iff.mp hPQ)
  obtain ⟨P⟩ := P
  obtain ⟨Q⟩ := Q
  obtain rfl : P = ks ++ i :: rest := hP
  obtain rfl : Q = ks ++ j :: rest' := hQ
  obtain ⟨g, hg⟩ := he.exists_amend
  obtain ⟨g', hg'⟩ := hf.exists_amend
  rw [show (Forest.apply · e) = _ from funext hg, show (Forest.apply · f) = _ from funext hg']
  exact (list .root ks).spares_amend (Forest.spares_of_ne hij ⟨ks⟩ g g')

/-! ### Programs -/

namespace Program

variable {p q r : Program} {ts : List Tree}

theorem Stores.apply_eq_error_iff (h : p.Stores ts []) {err : EditError} :
    p.apply e = .error err ↔ Forest.apply p.toBlocks e = .error err := by
  have hfollows := h.apply_follows e
  rw [h.toBlocks]
  rcases hr : Forest.apply (Tree.blocks ts) e with err' | bs
  · rw [hr, Follows] at hfollows
    rw [hfollows, Except.error.injEq, Except.error.injEq]
  · rw [hr] at hfollows
    obtain ⟨us, ⟨s, hs, -, -⟩, -⟩ := hfollows
    simp [hs]

/-- What an edit gives stores a forest, is one revision on, and reads back as the edited list. -/
theorem Stores.of_apply_eq_ok (h : p.Stores ts []) (hq : p.apply e = .ok q) :
    (∃ us, q.Stores us []) ∧ q.revision = p.revision + 1 ∧
      Forest.apply p.toBlocks e = .ok q.toBlocks := by
  have hfollows := h.apply_follows e
  rw [h.toBlocks]
  rcases hr : Forest.apply (Tree.blocks ts) e with err | bs
  · rw [hr, Follows, hq] at hfollows
    cases hfollows
  · rw [hr] at hfollows
    obtain ⟨us, ⟨s, hs, hstores, hrevision⟩, rfl⟩ := hfollows
    cases hq.symm.trans hs
    exact ⟨⟨us, hstores⟩, hrevision, by rw [hstores.toBlocks]⟩

theorem Stores.exists_apply (h : p.Stores ts []) {bs : List Block}
    (hbs : Forest.apply p.toBlocks e = .ok bs) :
    ∃ q, p.apply e = .ok q ∧ q.toBlocks = bs ∧ q.revision = p.revision + 1 := by
  rcases hq : p.apply e with err | q
  · rw [h.apply_eq_error_iff, hbs] at hq
    cases hq
  · obtain ⟨-, hrevision, hblocks⟩ := h.of_apply_eq_ok hq
    cases hbs.symm.trans hblocks
    exact ⟨q, rfl, rfl, hrevision⟩

theorem Stores.apply_eq_error_of_spares (h : p.Stores ts [])
    (hspares : Spares (Forest.apply · e) (Forest.apply · f)) (hq : p.apply e = .ok q)
    {err : EditError} (hf : p.apply f = .error err) : q.apply f = .error err := by
  obtain ⟨⟨us, hus⟩, -, hblocks⟩ := h.of_apply_eq_ok hq
  exact hus.apply_eq_error_iff.mpr (hspares.error hblocks (h.apply_eq_error_iff.mp hf))

/-- Two edits that succeed, one of which spares the other, give the same blocks in either order. -/
theorem Stores.exists_apply_of_spares (h : p.Stores ts [])
    (hspares : Spares (Forest.apply · e) (Forest.apply · f)) (hq : p.apply e = .ok q)
    (hr : p.apply f = .ok r) : ∃ s s', q.apply f = .ok s ∧ r.apply e = .ok s' ∧
      s.same s' = true ∧ s.revision = p.revision + 2 ∧ s'.revision = s.revision := by
  obtain ⟨⟨us, hus⟩, hrevision, hblocks⟩ := h.of_apply_eq_ok hq
  obtain ⟨⟨vs, hvs⟩, hrevision', hblocks'⟩ := h.of_apply_eq_ok hr
  obtain ⟨bs, hbs, hbs'⟩ := hspares.ok hblocks hblocks'
  obtain ⟨s, hs, hsblocks, hsrevision⟩ := hus.exists_apply hbs
  obtain ⟨s', hs', hsblocks', hsrevision'⟩ := hvs.exists_apply hbs'
  refine ⟨s, s', hs, hs', ?_, by rw [hsrevision, hrevision], ?_⟩
  · rw [same, hsblocks, hsblocks', decide_eq_true rfl]
  · rw [hsrevision, hsrevision', hrevision, hrevision']

/-- **Edits below different blocks commute.** Where of two paths neither starts with the other, an
insertion, a removal, a reordering or a change of a parameter below one of them does after such an
edit below the other one what it does before it. It fails with the same error; and if both edits
succeed, they succeed in either order, and the two programs that come out have the same blocks and
the same revision. -/
theorem disjoint_edits_commute (hp : p.Reachable) (hPQ : P.startsWith Q = false)
    (hQP : Q.startsWith P = false) (he : e.Within P) (hf : f.Within Q) :
    (∀ q err, p.apply e = .ok q → p.apply f = .error err → q.apply f = .error err) ∧
    (∀ r err, p.apply f = .ok r → p.apply e = .error err → r.apply e = .error err) ∧
    (∀ q r, p.apply e = .ok q → p.apply f = .ok r →
      ∃ s s', q.apply f = .ok s ∧ r.apply e = .ok s' ∧ s.same s' = true ∧
        s.revision = p.revision + 2 ∧ s'.revision = s.revision) := by
  obtain ⟨ts, h⟩ := hp.stores
  have hef := he.spares hf hPQ hQP
  have hfe := hf.spares he hQP hPQ
  exact ⟨fun _ _ hq hf => h.apply_eq_error_of_spares hef hq hf,
    fun _ _ hr he => h.apply_eq_error_of_spares hfe hr he,
    fun _ _ hq hr => h.exists_apply_of_spares hef hq hr⟩

/-- The first loop loses its pause and the second one gets one, in either order; a place that the
second one does not have, it does not have afterwards either. -/
theorem loops_edited_in_either_order :
    ∃ p q : Program, p.Reachable ∧
      p.toBlocks = [⟨.loop, .empty, [.ofKind .pause]⟩, ⟨.loop, .empty, [.ofKind .wave]⟩] ∧
      p.apply (.remove ⟨[0]⟩ 0) = .ok q ∧
      q.apply (.insert ⟨[1]⟩ 3 (.ofKind .wave)) = .error (.outOfRange ⟨[1]⟩ 3 1) ∧
      ∃ r s s', p.apply (.insert ⟨[1]⟩ 1 (.ofKind .pause)) = .ok r ∧
        q.apply (.insert ⟨[1]⟩ 1 (.ofKind .pause)) = .ok s ∧
        r.apply (.remove ⟨[0]⟩ 0) = .ok s' ∧ s.same s' = true ∧ s'.revision = s.revision := by
  have hp : (ofBlocks [⟨.loop, .empty, [.ofKind .pause]⟩,
      ⟨.loop, .empty, [.ofKind .wave]⟩]).Reachable :=
    Reachable.ofBlocks (by simp [Block.AllValid, Block.Valid, Block.ofKind, Kind.isContainer])
  have hcommute (index : Nat) (b : Block) := disjoint_edits_commute (P := ⟨[0]⟩) (Q := ⟨[1]⟩)
    (e := .remove ⟨[0]⟩ 0) (f := .insert ⟨[1]⟩ index b) hp rfl rfl rfl rfl
  obtain ⟨s, s', hs, hs', hsame, -, hrevision⟩ :=
    (hcommute 1 (.ofKind .pause)).2.2 _ _ rfl rfl
  exact ⟨_, _, hp, rfl, rfl, (hcommute 3 (.ofKind .wave)).1 _ _ rfl rfl, _, s, s', rfl, hs, hs',
    hsame, hrevision⟩

end Program

end Choreo
