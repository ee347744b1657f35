import Choreo.Proofs.Block.Domain
import Choreo.Proofs.Except

/-! # Valid blocks

A valid block carries only values that its kind takes, and has children only if it is a repeat; the
same holds for the blocks below it. Setting a parameter keeps a block valid. -/

namespace Choreo

/-- The settings are ones that a block of the kind can have. -/
def Settings.Fits (s : Settings) (kind : Kind) : Prop :=
  ∀ p x, s.get? p = some x → kind.accepts p ∧ p.Admits x

namespace Settings

theorem mem_toList_iff {s : Settings} {p : Param} {x : Float} :
    (p, x) ∈ s.toList ↔ s.get? p = some x := by
  rw [toList, List.mem_filterMap]
  constructor
  · rintro ⟨q, -, hq⟩
    obtain ⟨y, hy, hpair⟩ := Option.map_eq_some_iff.mp hq
    obtain ⟨rfl, rfl⟩ := Prod.mk.inj hpair
    exact hy
  · intro h
    exact ⟨p, p.mem_all, by rw [h]; rfl⟩

theorem Fits.value {s : Settings} {kind : Kind} (h : s.Fits kind) (p : Param) :
    p.Admits (s.value p) := by
  unfold Settings.value
  rcases hx : s.get? p with _ | x
  · exact p.admits_defaultValue
  · exact (h p x hx).2

theorem set_eq_ok {s t : Settings} {kind : Kind} {p : Param} {x : Float}
    (h : s.set kind p x = .ok t) :
    kind.accepts p = true ∧ ∃ y, p.clamp? x = some y ∧ t = s.insert p y := by
  unfold Settings.set at h
  by_cases ha : kind.accepts p = true
  · rw [if_pos ha] at h
    rcases hc : p.clamp? x with _ | y
    · rw [hc] at h
      cases h
    · rw [hc] at h
      cases h
      exact ⟨ha, y, rfl, rfl⟩
  · rw [if_neg ha] at h
    cases h

/-- **A parameter that can be set is set to a value of its domain.** -/
theorem Fits.set {s t : Settings} {kind : Kind} (h : s.Fits kind) {p : Param} {x : Float}
    (ht : s.set kind p x = .ok t) : t.Fits kind := by
  obtain ⟨ha, y, hc, rfl⟩ := set_eq_ok ht
  intro q z hz
  by_cases hq : q = p
  · subst hq
    rw [get?_insert_self] at hz
    cases hz
    exact ⟨ha, Param.clamp?_admits hc⟩
  · rw [get?_insert_of_ne _ hq] at hz
    exact h q z hz

end Settings

theorem Kind.eq_loop_of_isContainer {kind : Kind} (h : kind.isContainer = true) : kind = .loop :=
  of_decide_eq_true h

namespace Block

theorem valid_iff {b : Block} : b.Valid ↔
    b.settings.Fits b.kind ∧ (b.isContainer = false → b.children = []) ∧ AllValid b.children := by
  cases b
  rw [Valid]
  rfl

theorem allValid_iff {bs : List Block} : AllValid bs ↔ ∀ b ∈ bs, b.Valid := by
  induction bs with
  | nil => simp [AllValid]
  | cons b rest ih => simp [AllValid, ih]

theorem valid_ofKind (kind : Kind) : (ofKind kind).Valid :=
  valid_iff.mpr ⟨fun p x h => by simp [ofKind] at h, fun _ => rfl, trivial⟩

theorem Valid.set {b c : Block} (h : b.Valid) {p : Param} {x : Float} (hc : b.set p x = .ok c) :
    c.Valid := by
  unfold Block.set at hc
  rcases hs : b.settings.set b.kind p x with e | s
  · rw [hs] at hc
    cases hc
  · rw [hs] at hc
    cases hc
    obtain ⟨h1, h2, h3⟩ := valid_iff.mp h
    exact valid_iff.mpr ⟨h1.set hs, h2, h3⟩

/-! ### Blocks in a row -/

mutual

/-- The block and all blocks below it, in document order. -/
def row : Block → List Block
  | ⟨kind, settings, children⟩ => ⟨kind, settings, children⟩ :: rows children

/-- The blocks of a list and all blocks below them, in document order. -/
def rows : List Block → List Block
  | [] => []
  | b :: rest => b.row ++ rows rest

end

mutual

theorem valid_of_mem_row : ∀ b : Block, b.Valid → ∀ c ∈ b.row, c.Valid
  | ⟨kind, settings, children⟩, h, c, hc => by
    rw [row, List.mem_cons] at hc
    rcases hc with rfl | hc
    · exact h
    · exact valid_of_mem_rows children (valid_iff.mp h).2.2 c hc

theorem valid_of_mem_rows : ∀ bs : List Block, AllValid bs → ∀ c ∈ rows bs, c.Valid
  | [], _, c, hc => by rw [rows] at hc; cases hc
  | b :: rest, h, c, hc => by
    rw [AllValid] at h
    rw [rows, List.mem_append] at hc
    rcases hc with hc | hc
    · exact valid_of_mem_row b h.1 c hc
    · exact valid_of_mem_rows rest h.2 c hc

end

end Block

end Choreo
