import Choreo.Proofs.Block.Checked

/-! # Faults of blocks

A block that was put together without looking at what its kind allows may be wrong in many places at
once. `Block.faults` lists all of them in the order in which they are found: the values of a block in
listing order, a value that is not for the kind before one that is no finite number, and then child
by child the faults of the child before the one that the block may have no child at all.

Checking a block gives the first of its faults, or, if there are none, the block with its values
clamped (`Block.checked_follows`). What follows a list of faults in this way is put together from
steps that do (`FollowsFaults.bind`), so each lemma is about one step of the check. -/

namespace Choreo

/-! ### Computations that give the first fault -/

/-- The computation fails with the first of the faults; if there are none, what it gives is as
`Result` says. -/
def FollowsFaults {ε α : Type} (faults : List ε) (Result : α → Prop) : Except ε α → Prop
  | .ok a => faults = [] ∧ Result a
  | .error e => faults.head? = some e

namespace FollowsFaults

variable {ε α β : Type} {faults more : List ε} {Result : α → Prop} {Later : β → Prop}
  {x : Except ε α}

theorem mono {Weaker : α → Prop} (h : FollowsFaults faults Result x)
    (hweaker : ∀ a, Result a → Weaker a) : FollowsFaults faults Weaker x := by
  rcases x with e | a
  · exact h
  · exact ⟨h.1, hweaker a h.2⟩

/-- Two steps one after the other find the faults of the first step first. -/
theorem bind (h : FollowsFaults faults Result x) {f : α → Except ε β}
    (hf : ∀ a, Result a → FollowsFaults more Later (f a)) :
    FollowsFaults (faults ++ more) Later (x >>= f) := by
  rcases x with e | a
  · change (faults ++ more).head? = some e
    rw [List.head?_append, h]
    rfl
  · obtain ⟨rfl, ha⟩ := h
    exact hf a ha

theorem exists_ok_iff (h : FollowsFaults faults Result x) : (∃ a, x = .ok a) ↔ faults = [] := by
  rcases x with e | a
  · have hne : faults ≠ [] := by
      rintro rfl
      cases h
    exact ⟨nofun, fun hnil => absurd hnil hne⟩
  · exact ⟨fun _ => h.1, fun _ => ⟨a, rfl⟩⟩

theorem eq_error_iff (h : FollowsFaults faults Result x) (e : ε) :
    x = .error e ↔ faults.head? = some e := by
  rcases x with e' | a
  · change faults.head? = some e' at h
    rw [h, Except.error.injEq, Option.some.injEq]
  · rw [h.1]
    exact ⟨nofun, nofun⟩

theorem result (h : FollowsFaults faults Result x) {a : α} (hx : x = .ok a) : Result a := by
  subst hx
  exact h.2

end FollowsFaults

/-! ### The faults of a block -/

/-- What is wrong with a value on a block of the kind. -/
def Kind.valueFaults (kind : Kind) : Param × Float → List BlockError
  | (p, x) => (if kind.accepts p then [] else [.paramNotApplicable kind p]) ++
    (if x.isFinite then [] else [.nonFiniteParam p x])

/-- What is wrong with there being one more child under a block of the kind. -/
def Kind.childFaults (kind : Kind) : List BlockError :=
  if kind.isContainer then [] else [.leafWithChildren kind]

namespace Block

mutual

/-- All that is wrong with a block and the blocks below it, in the order in which it is found. -/
def faults : Block → List BlockError
  | ⟨kind, settings, children⟩ =>
    settings.toList.flatMap kind.valueFaults ++ faultsBelow kind children

/-- All that is wrong with the children of a block of the kind: child by child what is wrong with
the child, then with its place. -/
def faultsBelow (kind : Kind) : List Block → List BlockError
  | [] => []
  | child :: rest => child.faults ++ (kind.childFaults ++ faultsBelow kind rest)

end

/-- The block by itself is sound: its values are finite and for its kind, and it has children only
if it is a repeat. -/
structure Sound (b : Block) : Prop where
  values : ∀ p x, b.settings.get? p = some x → b.kind.accepts p = true ∧ x.isFinite = true
  children : b.children ≠ [] → b.kind = .loop

mutual

/-- The second block has the shape of the first and carries values of the same parameters, each of
them clamped. -/
def ClampsTo : Block → Block → Prop
  | ⟨kind, settings, children⟩, ⟨kind', settings', children'⟩ =>
    kind' = kind ∧
    (∀ p, Option.Rel (fun x y => p.clamp? x = some y) (settings.get? p) (settings'.get? p)) ∧
    AllClampTo children children'

/-- The blocks of the lists clamp to one another, one by one. -/
def AllClampTo : List Block → List Block → Prop
  | [], [] => True
  | b :: rest, c :: rest' => b.ClampsTo c ∧ AllClampTo rest rest'
  | _, _ => False

end

theorem valueFaults_eq_nil_iff {kind : Kind} {p : Param} {x : Float} :
    kind.valueFaults (p, x) = [] ↔ kind.accepts p = true ∧ x.isFinite = true := by
  rw [Kind.valueFaults, List.append_eq_nil_iff]
  by_cases ha : kind.accepts p = true <;> by_cases hx : x.isFinite = true <;> simp [ha, hx]

theorem childFaults_eq_nil_iff {kind : Kind} : kind.childFaults = [] ↔ kind = .loop := by
  rw [Kind.childFaults]
  split_ifs with hc
  · exact ⟨fun _ => Kind.eq_loop_of_isContainer hc, fun _ => rfl⟩
  · refine ⟨nofun, ?_⟩
    rintro rfl
    exact absurd rfl hc

theorem settingsFaults_eq_nil_iff {kind : Kind} {settings : Settings} :
    settings.toList.flatMap kind.valueFaults = [] ↔
      ∀ p x, settings.get? p = some x → kind.accepts p = true ∧ x.isFinite = true := by
  rw [List.flatMap_eq_nil_iff]
  constructor
  · intro h p x hx
    exact valueFaults_eq_nil_iff.mp (h (p, x) (Settings.mem_toList_iff.mpr hx))
  · rintro h ⟨p, x⟩ hmem
    exact valueFaults_eq_nil_iff.mpr (h p x (Settings.mem_toList_iff.mp hmem))

mutual

/-- **Nothing is wrong with a block** if it and all blocks below it are sound. -/
theorem faults_eq_nil_iff : ∀ b : Block, b.faults = [] ↔ ∀ c ∈ b.row, c.Sound
  | ⟨kind, settings, children⟩ => by
    rw [faults, List.append_eq_nil_iff, settingsFaults_eq_nil_iff, faultsBelow_eq_nil_iff, row,
      List.forall_mem_cons]
    constructor
    · rintro ⟨hvalues, hloop, hbelow⟩
      exact ⟨⟨hvalues, hloop⟩, hbelow⟩
    · rintro ⟨⟨hvalues, hloop⟩, hbelow⟩
      exact ⟨hvalues, hloop, hbelow⟩

theorem faultsBelow_eq_nil_iff (kind : Kind) : ∀ children : List Block,
    faultsBelow kind children = [] ↔
      (children ≠ [] → kind = .loop) ∧ ∀ c ∈ rows children, c.Sound
  | [] => by simp [faultsBelow, rows]
  | child :: rest => by
    rw [faultsBelow, List.append_eq_nil_iff, List.append_eq_nil_iff, faults_eq_nil_iff child,
      childFaults_eq_nil_iff, faultsBelow_eq_nil_iff kind rest, rows, List.forall_mem_append]
    constructor
    · rintro ⟨hchild, hkind, -, hrest⟩
      exact ⟨fun _ => hkind, hchild, hrest⟩
    · rintro ⟨hkind, hchild, hrest⟩
      have hkind := hkind (List.cons_ne_nil _ _)
      exact ⟨hchild, hkind, fun _ => hkind, hrest⟩

end

theorem mem_valueFaults {kind : Kind} {p : Param} {x : Float} {e : BlockError}
    (h : e ∈ kind.valueFaults (p, x)) : e = .paramNotApplicable kind p ∨ e = .nonFiniteParam p x := by
  rw [Kind.valueFaults, List.mem_append] at h
  rcases h with h | h <;> split_ifs at h
  · cases h
  · exact Or.inl (List.mem_singleton.mp h)
  · cases h
  · exact Or.inr (List.mem_singleton.mp h)

mutual

/-- What is wrong with a block is a value that its kind has no parameter for, a value that is no finite
number, or a child. -/
theorem mem_faults_cases {e : BlockError} : ∀ b : Block, e ∈ b.faults →
    (∃ kind p, e = .paramNotApplicable kind p) ∨ (∃ p x, e = .nonFiniteParam p x) ∨
      ∃ kind, e = .leafWithChildren kind
  | ⟨kind, settings, children⟩, h => by
    rw [faults, List.mem_append, List.mem_flatMap] at h
    rcases h with ⟨⟨p, x⟩, -, h⟩ | h
    · rcases mem_valueFaults h with rfl | rfl
      · exact Or.inl ⟨kind, p, rfl⟩
      · exact Or.inr (Or.inl ⟨p, x, rfl⟩)
    · exact mem_faultsBelow_cases kind children h

theorem mem_faultsBelow_cases {e : BlockError} (kind : Kind) : ∀ children : List Block,
    e ∈ faultsBelow kind children →
    (∃ kind p, e = .paramNotApplicable kind p) ∨ (∃ p x, e = .nonFiniteParam p x) ∨
      ∃ kind, e = .leafWithChildren kind
  | [], h => by cases h
  | child :: rest, h => by
    rw [faultsBelow, List.mem_append, List.mem_append] at h
    rcases h with h | h | h
    · exact mem_faults_cases child h
    · rw [Kind.childFaults] at h
      split_ifs at h
      · cases h
      · exact Or.inr (Or.inr ⟨kind, List.mem_singleton.mp h⟩)
    · exact mem_faultsBelow_cases kind rest h

end

/-! ### The check -/

theorem set_follows (kind : Kind) (settings : Settings) (children : List Block) (p : Param)
    (x : Float) : FollowsFaults (kind.valueFaults (p, x))
      (fun c => ∃ y, p.clamp? x = some y ∧ c = ⟨kind, settings.insert p y, children⟩)
      (Block.set ⟨kind, settings, children⟩ p x) := by
  rw [Block.set, Settings.set, Kind.valueFaults]
  by_cases ha : kind.accepts p = true
  · by_cases hx : x.isFinite = true
    · obtain ⟨y, hy⟩ : ∃ y, p.clamp? x = some y := ⟨_, if_pos hx⟩
      simp only [if_pos ha, if_pos hx, hy]
      exact ⟨rfl, y, rfl, rfl⟩
    · have hnone : p.clamp? x = none := if_neg hx
      simp only [if_pos ha, if_neg hx, hnone]
      rfl
  · simp only [if_neg ha]
    rfl

/-- Every value is set as it comes. The parameters differ, so none is set twice. -/
theorem foldlM_set_follows (kind : Kind) (children : List Block) {values : List (Param × Float)}
    (hkeys : (values.map Prod.fst).Nodup) (settings : Settings) :
    FollowsFaults (values.flatMap kind.valueFaults)
      (fun c => ∃ settings', c = ⟨kind, settings', children⟩ ∧
        (∀ p x, (p, x) ∈ values → ∃ y, p.clamp? x = some y ∧ settings'.get? p = some y) ∧
        ∀ p, p ∉ values.map Prod.fst → settings'.get? p = settings.get? p)
      (values.foldlM (fun (b : Block) (p, x) => b.set p x) ⟨kind, settings, children⟩) := by
  induction values generalizing settings with
  | nil => exact ⟨rfl, settings, rfl, nofun, fun _ _ => rfl⟩
  | cons value values ih =>
    obtain ⟨p, x⟩ := value
    rw [List.map_cons, List.nodup_cons] at hkeys
    rw [List.foldlM_cons, List.flatMap_cons]
    refine (set_follows kind settings children p x).bind ?_
    rintro c ⟨y, hy, rfl⟩
    refine (ih hkeys.2 _).mono ?_
    rintro c ⟨settings', rfl, hset, hkept⟩
    refine ⟨settings', rfl, fun q z hmem => ?_, fun q hq => ?_⟩
    · rcases List.mem_cons.mp hmem with hhead | htail
      · obtain ⟨rfl, rfl⟩ := Prod.mk.inj hhead
        exact ⟨y, hy, by rw [hkept q hkeys.1, Settings.get?_insert_self]⟩
      · exact hset q z htail
    · rw [List.map_cons, List.mem_cons, not_or] at hq
      rw [hkept q hq.2, Settings.get?_insert_of_ne _ hq.1]

theorem nodup_settings (settings : Settings) : (settings.toList.map Prod.fst).Nodup := by
  have hkeys : settings.toList.map Prod.fst =
      Param.all.filter fun p => (settings.get? p).isSome := by
    rw [Settings.toList, List.map_filterMap, ← List.filterMap_eq_filter]
    refine List.filterMap_congr fun p _ => ?_
    rcases h : settings.get? p with _ | x <;> simp [h, Option.guard]
  rw [hkeys]
  exact List.Nodup.filter _ (by decide)

/-- **The values of a block** are set in listing order, each of them clamped. -/
theorem setAll_follows (kind : Kind) (settings : Settings) :
    FollowsFaults (settings.toList.flatMap kind.valueFaults)
      (fun c => ∃ settings', c = ⟨kind, settings', []⟩ ∧
        ∀ p, Option.Rel (fun x y => p.clamp? x = some y) (settings.get? p) (settings'.get? p))
      (settings.toList.foldlM (fun (b : Block) (p, x) => b.set p x) (ofKind kind)) := by
  refine (foldlM_set_follows kind [] (nodup_settings settings) .empty).mono ?_
  rintro c ⟨settings', rfl, hset, hkept⟩
  refine ⟨settings', rfl, fun p => ?_⟩
  rcases hx : settings.get? p with _ | x
  · have hunset : p ∉ settings.toList.map Prod.fst := by
      rintro hmem
      obtain ⟨⟨q, x⟩, hq, rfl⟩ := List.mem_map.mp hmem
      rw [Settings.mem_toList_iff.mp hq] at hx
      cases hx
    rw [hkept p hunset, Settings.get?_empty]
    exact .none
  · obtain ⟨y, hy, hget⟩ := hset p x (Settings.mem_toList_iff.mpr hx)
    rw [hget]
    exact .some hy

theorem push_follows (kind : Kind) (settings : Settings) (children : List Block) (child : Block) :
    FollowsFaults kind.childFaults (· = ⟨kind, settings, children ++ [child]⟩)
      (Block.push ⟨kind, settings, children⟩ child) := by
  rw [Block.push, Kind.childFaults, isContainer]
  split_ifs
  · exact ⟨rfl, rfl⟩
  · rfl

mutual

/-- **The check gives the first fault of a block**, or the block with its values clamped. -/
theorem checked_follows : ∀ b : Block, FollowsFaults b.faults b.ClampsTo b.checked
  | ⟨kind, settings, children⟩ => by
    rw [faults, checked]
    refine (setAll_follows kind settings).bind ?_
    rintro c ⟨settings', rfl, hvalues⟩
    refine (pushChecked_follows children kind settings' []).mono ?_
    rintro c ⟨children', rfl, hchildren⟩
    rw [ClampsTo]
    exact ⟨rfl, hvalues, hchildren⟩

theorem pushChecked_follows : ∀ (children : List Block) (kind : Kind) (settings : Settings)
    (before : List Block), FollowsFaults (faultsBelow kind children)
      (fun c => ∃ children', c = ⟨kind, settings, before ++ children'⟩ ∧
        AllClampTo children children')
      (pushChecked ⟨kind, settings, before⟩ children)
  | [], kind, settings, before => by
    rw [faultsBelow, pushChecked]
    exact ⟨rfl, [], by rw [List.append_nil], trivial⟩
  | child :: rest, kind, settings, before => by
    rw [faultsBelow, pushChecked]
    refine (checked_follows child).bind fun child' hchild => ?_
    refine (push_follows kind settings before child').bind ?_
    rintro c rfl
    refine (pushChecked_follows rest kind settings (before ++ [child'])).mono ?_
    rintro c ⟨rest', rfl, hrest⟩
    exact ⟨child' :: rest', by rw [← List.append_cons], hchild, hrest⟩

end

/-! ### Blocks as they are written down -/

mutual

/-- The block as it is written down: the values that are set go to their places one by one, and the
children follow. -/
def written : Block → Block
  | ⟨kind, settings, children⟩ =>
    ⟨kind, Settings.empty.insertAll settings.toList, writtenAll children⟩

/-- The blocks of a list as they are written down. -/
def writtenAll : List Block → List Block
  | [] => []
  | b :: rest => b.written :: writtenAll rest

end

mutual

theorem written_eq : ∀ b : Block, b.written = b
  | ⟨kind, settings, children⟩ => by
    rw [written, Settings.insertAll_toList, writtenAll_eq children]

theorem writtenAll_eq : ∀ bs : List Block, writtenAll bs = bs
  | [] => by rw [writtenAll]
  | b :: rest => by rw [writtenAll, written_eq b, writtenAll_eq rest]

end

/-- **The check accepts the sound trees and tells the first fault of the others.** It succeeds if
every block of the tree carries only finite values of parameters that its kind takes and has children
only if it is a repeat. What comes out then has the same shape and values of the same parameters,
each of them clamped, and is valid. Otherwise the error is the first one in the list of faults. A
valid block that is written down passes the check as it was. -/
theorem checked_tells_first_fault (b : Block) :
    ((∃ c, b.checked = .ok c) ↔ ∀ c ∈ b.row, c.Sound) ∧
    (∀ c, b.checked = .ok c → b.ClampsTo c ∧ c.Valid) ∧
    (∀ e, b.checked = .error e ↔ b.faults.head? = some e) ∧
    (b.Valid → b.written.checked = .ok b) := by
  have hfollows := checked_follows b
  refine ⟨?_, fun c hc => ⟨hfollows.result hc, checked_valid hc⟩, hfollows.eq_error_iff, ?_⟩
  · rw [hfollows.exists_ok_iff, faults_eq_nil_iff]
  · intro hvalid
    rw [written_eq, hvalid.checked_eq]

/-- A repeat of a gesture that has a child of its own. The child is wrong in two ways, which are told
before the place of the child. Without the child the count of the repeat is rounded, and the block
passes as it is once it is written down. -/
theorem nested_faults_told :
    Block.checked ⟨.loop, { times := some 2.4 },
      [⟨.wave, .empty, [⟨.pause, { speed := some (0 / 0) }, []⟩]⟩]⟩ =
        .error (.paramNotApplicable .pause .speed) ∧
      (∃ c, Block.checked ⟨.loop, { times := some 2.4 }, [.ofKind .wave]⟩ = .ok c ∧ c.Valid ∧
        c.settings.get? .times = some 2.0 ∧ c.written.checked = .ok c) := by
  have hfault := (checked_tells_first_fault ⟨.loop, { times := some 2.4 },
    [⟨.wave, .empty, [⟨.pause, { speed := some (0 / 0) }, []⟩]⟩]⟩).2.2.1
  refine ⟨(hfault _).mpr (by decide), ?_⟩
  obtain ⟨hok, hresult, -, -⟩ :=
    checked_tells_first_fault ⟨.loop, { times := some 2.4 }, [.ofKind .wave]⟩
  have hsound : ∀ c ∈ row ⟨.loop, { times := some 2.4 }, [.ofKind .wave]⟩, c.Sound :=
    (faults_eq_nil_iff _).mp (by decide)
  obtain ⟨c, hc⟩ := hok.mpr hsound
  obtain ⟨hclamps, hvalid⟩ := hresult c hc
  obtain ⟨kind, settings, children⟩ := c
  have htimes : Option.Rel (fun x y => Param.times.clamp? x = some y) (some 2.4)
      (settings.get? .times) := hclamps.2.1 .times
  have htwo : Param.times.clamp? 2.4 = some 2.0 := by decide +kernel
  refine ⟨_, hc, hvalid, ?_, (checked_tells_first_fault _).2.2.2 hvalid⟩
  change settings.get? .times = some 2.0
  generalize settings.get? .times = stored at htimes
  cases htimes with
  | some hy => exact hy.symm.trans htwo

end Block

end Choreo
