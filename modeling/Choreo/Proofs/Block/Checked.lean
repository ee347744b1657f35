import Choreo.Block.Checked
import Choreo.Proofs.Block.Valid

/-! # Checking blocks

Checking a block builds it again, value by value and child by child. What comes out is valid
(`Block.checked_valid`), and a valid block comes out as it went in (`Block.Valid.checked_eq`). -/

namespace Choreo

/-! ### Values of the domain -/

theorem Param.Admits.clamp?_eq {p : Param} {x : Float} (h : p.Admits x) :
    p.clamp? x = some x := by
  have hround : (if p.isWhole then Double.roundAway x else x) = x := by
    split_ifs with hwhole
    · obtain rfl : p = .times := by cases p <;> first | rfl | cases hwhole
      have hsmall : ∀ n < 11, Double.roundAway (Double.ofNat n) = Double.ofNat n := by
        decide +kernel
      obtain ⟨n, rfl, -, hn, -⟩ := h.count
      exact hsmall n (by omega)
    · rfl
  obtain ⟨hfinite, hlow, hhigh, -⟩ := h
  have h1 : ¬ x < p.low := Double.not_lt_of_le hlow
  have h2 : ¬ p.high < x := Double.not_lt_of_le hhigh
  rw [clamp?, if_pos hfinite]
  simp only [hround]
  rw [if_neg h1, if_neg h2]

namespace Settings

theorem set_of_clamp? (s : Settings) {kind : Kind} {p : Param} {x y : Float}
    (haccepts : kind.accepts p = true) (h : p.clamp? x = some y) :
    s.set kind p x = .ok (s.insert p y) := by
  rw [set, if_pos haccepts, h]

theorem set_eq (s : Settings) {kind : Kind} {p : Param} {x : Float}
    (haccepts : kind.accepts p = true) (hx : p.Admits x) : s.set kind p x = .ok (s.insert p x) :=
  s.set_of_clamp? haccepts hx.clamp?_eq

/-- The settings with some more values. -/
def insertAll (s : Settings) (values : List (Param × Float)) : Settings :=
  values.foldl (fun s (p, x) => s.insert p x) s

theorem insertAll_toList (s : Settings) : empty.insertAll s.toList = s := by
  rcases s with ⟨_ | _, _ | _, _ | _, _ | _, _ | _⟩ <;> rfl

end Settings

namespace Block

theorem foldlM_set_eq {kind : Kind} {values : List (Param × Float)}
    (h : ∀ p x, (p, x) ∈ values → kind.accepts p ∧ p.Admits x) (s : Settings)
    (children : List Block) :
    values.foldlM (fun (b : Block) (p, x) => b.set p x) ⟨kind, s, children⟩ =
      .ok ⟨kind, s.insertAll values, children⟩ := by
  induction values generalizing s with
  | nil => rfl
  | cons value values ih =>
    obtain ⟨p, x⟩ := value
    obtain ⟨haccepts, hx⟩ := h p x List.mem_cons_self
    have hset : Block.set ⟨kind, s, children⟩ p x = .ok ⟨kind, s.insert p x, children⟩ := by
      rw [Block.set]
      simp only [s.set_eq haccepts hx]
      rfl
    rw [List.foldlM_cons]
    exact bind_eq_ok.mpr ⟨_, hset, ih (fun p x hmem => h p x (List.mem_cons_of_mem _ hmem)) _⟩

mutual

/-- **A valid block passes the check as it is.** -/
theorem Valid.checked_eq : ∀ {b : Block}, b.Valid → b.checked = .ok b
  | ⟨kind, settings, children⟩, h => by
    obtain ⟨hfits, hleaf, hchildren⟩ := valid_iff.mp h
    have hset := foldlM_set_eq (fun p x hmem => hfits p x (Settings.mem_toList_iff.mp hmem))
      .empty []
    rw [Settings.insertAll_toList] at hset
    rw [checked]
    exact bind_eq_ok.mpr ⟨_, hset, pushChecked_eq hchildren [] hleaf⟩

theorem pushChecked_eq : ∀ {children : List Block}, AllValid children → ∀ (before : List Block)
    {kind : Kind} {settings : Settings}, (kind.isContainer = false → children = []) →
    pushChecked ⟨kind, settings, before⟩ children = .ok ⟨kind, settings, before ++ children⟩
  | [], _, before, kind, settings, _ => by rw [pushChecked, List.append_nil]
  | child :: rest, h, before, kind, settings, hleaf => by
    rw [AllValid] at h
    have hcontainer : kind.isContainer = true := by
      by_contra hnot
      cases hleaf (by simpa using hnot)
    have hpush : Block.push ⟨kind, settings, before⟩ child =
        .ok ⟨kind, settings, before ++ [child]⟩ := if_pos hcontainer
    have hrest : pushChecked ⟨kind, settings, before ++ [child]⟩ rest =
        .ok ⟨kind, settings, before ++ [child] ++ rest⟩ :=
      pushChecked_eq h.2 _ fun hnot => absurd hcontainer (by rw [hnot]; exact Bool.false_ne_true)
    rw [List.append_cons, pushChecked]
    exact bind_eq_ok.mpr ⟨_, h.1.checked_eq, bind_eq_ok.mpr ⟨_, hpush, hrest⟩⟩

end

theorem Valid.foldlM_set {values : List (Param × Float)} {b c : Block} (hb : b.Valid)
    (h : values.foldlM (fun (b : Block) (p, x) => b.set p x) b = .ok c) : c.Valid := by
  induction values generalizing b with
  | nil =>
    cases h
    exact hb
  | cons value values ih =>
    rw [List.foldlM_cons] at h
    obtain ⟨d, hd, h⟩ := bind_eq_ok.mp h
    exact ih (hb.set hd) h

theorem Valid.push {b c child : Block} (hb : b.Valid) (hchild : child.Valid)
    (h : b.push child = .ok c) : c.Valid := by
  rw [Block.push] at h
  split_ifs at h with hcontainer
  cases h
  obtain ⟨hfits, -, hchildren⟩ := valid_iff.mp hb
  refine valid_iff.mpr ⟨hfits, fun hleaf => ?_, allValid_iff.mpr fun c hc => ?_⟩
  · exact absurd hcontainer (ne_true_of_eq_false hleaf)
  · rcases List.mem_append.mp hc with hc | hc
    · exact allValid_iff.mp hchildren c hc
    · obtain rfl := List.mem_singleton.mp hc
      exact hchild

mutual

/-- **What passes the check is valid.** -/
theorem checked_valid : ∀ {b c : Block}, b.checked = .ok c → c.Valid
  | ⟨kind, settings, children⟩, c, h => by
    rw [checked] at h
    obtain ⟨d, hd, h⟩ := bind_eq_ok.mp h
    exact pushChecked_valid ((valid_ofKind kind).foldlM_set hd) h

theorem pushChecked_valid : ∀ {children : List Block} {b c : Block}, b.Valid →
    pushChecked b children = .ok c → c.Valid
  | [], b, c, hb, h => by
    rw [pushChecked] at h
    cases h
    exact hb
  | child :: rest, b, c, hb, h => by
    rw [pushChecked] at h
    obtain ⟨child', hchild, h⟩ := bind_eq_ok.mp h
    obtain ⟨d, hd, h⟩ := bind_eq_ok.mp h
    exact pushChecked_valid (hb.push (checked_valid hchild) hd) h

end

end Block

end Choreo
