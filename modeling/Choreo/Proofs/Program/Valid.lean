import Choreo.Proofs.Block.Valid
import Choreo.Proofs.Program.Refinement

/-! # Edits keep blocks valid

Sibling lists that a valid forest has are valid, and so is a valid forest with a valid list in place
of one of its own. So every edit that brings in valid blocks leaves valid blocks, and every program
that edits lead to holds valid ones. -/

namespace Choreo

open Block (AllValid allValid_iff valid_iff)

namespace Forest

variable {walked : Path} {bs cs new : List Block} {ks : List Nat}

theorem siblings_cons_iff {i : Nat} {rest : List Nat} :
    siblings walked bs (i :: rest) = .ok cs ↔ ∃ b, bs[i]? = some b ∧ b.isContainer = true ∧
      siblings (walked.child i) b.children rest = .ok cs := by
  rw [siblings]
  rcases hi : bs[i]? with _ | b
  · simp
  · simp only
    split_ifs with hc
    · constructor
      · exact fun h => ⟨b, rfl, hc, h⟩
      · rintro ⟨c, hb, -, h⟩
        cases hb
        exact h
    · constructor
      · intro h; cases h
      · rintro ⟨c, hb, h, -⟩
        cases hb
        exact absurd h hc

theorem siblings_valid (h : AllValid bs) (hs : siblings walked bs ks = .ok cs) :
    AllValid cs := by
  induction ks generalizing walked bs with
  | nil =>
    cases hs
    exact h
  | cons i rest ih =>
    obtain ⟨b, hi, -, hs⟩ := siblings_cons_iff.mp hs
    have hb := allValid_iff.mp h b (List.mem_of_getElem? hi)
    exact ih (valid_iff.mp hb).2.2 hs

theorem set_valid {b : Block} (h : AllValid cs) (hb : b.Valid) (i : Nat) :
    AllValid (cs.set i b) := by
  refine allValid_iff.mpr fun c hc => ?_
  rcases List.mem_or_eq_of_mem_set hc with hc | rfl
  · exact allValid_iff.mp h c hc
  · exact hb

theorem graft_cons_of_getElem? {i : Nat} {b : Block} (h : bs[i]? = some b) (rest : List Nat)
    (new : List Block) :
    graft bs (i :: rest) new = bs.set i { b with children := graft b.children rest new } := by
  rw [graft]
  obtain ⟨hlt, rfl⟩ := List.getElem?_eq_some_iff.mp h
  refine List.ext_getElem? fun j => ?_
  rw [List.getElem?_modify, List.getElem?_set]
  by_cases hj : i = j
  · subst hj
    simp [hlt]
  · simp [hj]

theorem graft_valid (h : AllValid bs) (hs : siblings walked bs ks = .ok cs) (hnew : AllValid new) :
    AllValid (graft bs ks new) := by
  induction ks generalizing walked bs with
  | nil => exact hnew
  | cons i rest ih =>
    obtain ⟨b, hi, hc, hs⟩ := siblings_cons_iff.mp hs
    obtain ⟨h1, -, h3⟩ := valid_iff.mp (allValid_iff.mp h b (List.mem_of_getElem? hi))
    have hleaf : b.isContainer = false → graft b.children rest new = [] := by
      intro hn
      rw [hc] at hn
      cases hn
    have hb : Block.Valid { b with children := graft b.children rest new } :=
      valid_iff.mpr ⟨h1, hleaf, ih h3 hs⟩
    rw [graft_cons_of_getElem? hi]
    exact set_valid h hb i

theorem pick_valid {parent : Path} {i : Nat} {b : Block} (h : AllValid cs)
    (hb : pick parent cs i = .ok b) : b.Valid := by
  unfold pick at hb
  rcases hi : cs[i]? with _ | c
  · rw [hi] at hb
    cases hb
  · rw [hi] at hb
    cases hb
    exact allValid_iff.mp h _ (List.mem_of_getElem? hi)

theorem eraseIdx_valid (h : AllValid cs) (i : Nat) : AllValid (cs.eraseIdx i) :=
  allValid_iff.mpr fun b hb => allValid_iff.mp h b (List.mem_of_mem_eraseIdx hb)

theorem insertIdx_valid {b : Block} (h : AllValid cs) (hb : b.Valid) (i : Nat) :
    AllValid (cs.insertIdx i b) := by
  refine allValid_iff.mpr fun c hc => ?_
  rcases List.eq_or_mem_of_mem_insertIdx hc with rfl | hc
  · exact hb
  · exact allValid_iff.mp h c hc

theorem put_valid {parent : Path} {i : Nat} {b : Block} {ds : List Block} (h : AllValid cs)
    (hb : b.Valid) (hd : put parent cs i b = .ok ds) : AllValid ds := by
  unfold put at hd
  split_ifs at hd
  cases hd
  exact insertIdx_valid h hb i

/-! ### The edits -/

theorem insert_valid (h : AllValid bs) {parent : Path} {index : Nat} {b : Block} (hb : b.Valid)
    (hr : insert bs parent index b = .ok new) : AllValid new := by
  obtain ⟨cs, hs, hr⟩ := bind_eq_ok.mp hr
  obtain ⟨ds, hd, hr⟩ := bind_eq_ok.mp hr
  cases hr
  exact graft_valid h hs (put_valid (siblings_valid h hs) hb hd)

theorem remove_valid (h : AllValid bs) {parent : Path} {index : Nat}
    (hr : remove bs parent index = .ok new) : AllValid new := by
  obtain ⟨cs, hs, hr⟩ := bind_eq_ok.mp hr
  obtain ⟨_, -, hr⟩ := bind_eq_ok.mp hr
  cases hr
  exact graft_valid h hs (eraseIdx_valid (siblings_valid h hs) index)

theorem move_valid (h : AllValid bs) {source dest : Path} {index : Nat}
    (hr : move bs source dest index = .ok new) : AllValid new := by
  unfold move at hr
  rcases hp : source.split? with _ | ⟨parent, i⟩
  · rw [hp] at hr
    cases hr
  · rw [hp] at hr
    simp only at hr
    split_ifs at hr
    · cases hr
    obtain ⟨cs, hs, hr⟩ := bind_eq_ok.mp hr
    obtain ⟨b, hb, hr⟩ := bind_eq_ok.mp hr
    obtain ⟨_, -, hr⟩ := bind_eq_ok.mp hr
    obtain ⟨ds, hd, hr⟩ := bind_eq_ok.mp hr
    obtain ⟨es, he, hr⟩ := bind_eq_ok.mp hr
    cases hr
    have hcs := siblings_valid h hs
    have hleft := graft_valid h hs (eraseIdx_valid hcs i)
    exact graft_valid hleft hd (put_valid (siblings_valid hleft hd) (pick_valid hcs hb) he)

theorem reorder_valid (h : AllValid bs) {parent : Path} {source target : Nat}
    (hr : reorder bs parent source target = .ok new) : AllValid new := by
  obtain ⟨cs, hs, hr⟩ := bind_eq_ok.mp hr
  obtain ⟨b, hb, hr⟩ := bind_eq_ok.mp hr
  obtain ⟨_, -, hr⟩ := bind_eq_ok.mp hr
  cases hr
  have hcs := siblings_valid h hs
  exact graft_valid h hs (insertIdx_valid (eraseIdx_valid hcs source) (pick_valid hcs hb) target)

theorem setParam_valid (h : AllValid bs) {path : Path} {param : Param} {value : Float}
    (hr : set bs path param value = .ok new) : AllValid new := by
  unfold set at hr
  rcases hp : path.split? with _ | ⟨parent, i⟩
  · rw [hp] at hr
    cases hr
  · rw [hp] at hr
    obtain ⟨cs, hs, hr⟩ := bind_eq_ok.mp hr
    obtain ⟨b, hb, hr⟩ := bind_eq_ok.mp hr
    have hcs := siblings_valid h hs
    rcases hset : b.set param value with e | c
    · rw [hset] at hr
      cases hr
    · rw [hset] at hr
      cases hr
      exact graft_valid h hs (set_valid hcs ((pick_valid hcs hb).set hset) i)

/-- **Edits keep blocks valid.** -/
theorem apply_valid (h : AllValid bs) {e : Edit} (he : e.Valid) (hr : apply bs e = .ok new) :
    AllValid new := by
  cases e with
  | insert parent index b => exact insert_valid h he hr
  | remove parent index => exact remove_valid h hr
  | move source dest index => exact move_valid h hr
  | reorder parent source target => exact reorder_valid h hr
  | set path param value => exact setParam_valid h hr
  | replace blocks =>
    cases hr
    exact he

end Forest

/-- **Programs that edits lead to hold valid blocks.** -/
theorem Program.Reachable.allValid {p : Program} (hp : p.Reachable) : AllValid p.toBlocks := by
  induction hp with
  | @ofBlocks bs valid =>
    rw [(stores_ofBlocks bs).toBlocks, Tree.blocks_labelAll]
    exact valid
  | @apply p q e hp he edit ih =>
    obtain ⟨ts, h⟩ := hp.stores
    have hf := h.apply_follows e
    rw [← h.toBlocks] at hf
    rcases hr : Forest.apply p.toBlocks e with err | new
    · rw [hr, Follows, edit] at hf
      cases hf
    · rw [hr] at hf
      obtain ⟨us, ⟨r, hok, hstores, -⟩, hnew⟩ := hf
      rw [edit] at hok
      cases hok
      rw [hstores.toBlocks, hnew]
      exact Forest.apply_valid ih he hr

end Choreo
