import Choreo.Proofs.Number.Order
import Mathlib.Data.Prod.Lex
import Mathlib.Order.Compare

/-! # The order of singles

Numbers that are taken apart compare by their places (`compare_of_numbers`), and the places are in a
line. What is no number compares with nothing. So among singles, less is transitive, and what is less
is not at least. -/

namespace Choreo.Single

open Float.Model Float.Model.UnpackedFloat

/-- A magnitude with a sign. -/
def signed : Sign → ℤ → ℤ
  | .positive, n => n
  | .negative, n => -n

/-- The place of a number among all numbers; both zeros have the same. -/
def place : UnpackedFloat → ℤ ×ₗ ℤ ×ₗ ℤ
  | .infinity s => toLex (signed s 2, toLex (0, 0))
  | .finite s m e _ => toLex (signed s 1, toLex (signed s e, signed s m))
  | .zero _ => toLex (0, toLex (0, 0))
  | .notANumber => toLex (0, toLex (0, 0))

theorem compare_toLex {α β : Type} [LinearOrder α] [LinearOrder β] (a a' : α) (b b' : β) :
    compare (toLex (a, b)) (toLex (a', b')) = (compare a a').then (compare b b') := by
  rw [Prod.Lex.compare_def]
  rfl

theorem compare_natCast (m n : ℕ) : compare (m : ℤ) (n : ℤ) = compare m n := by
  rcases Nat.lt_trichotomy m n with h | rfl | h
  · rw [Nat.compare_eq_lt.mpr h, Int.compare_eq_lt.mpr (Int.ofNat_lt.mpr h)]
  · rw [Nat.compare_eq_eq.mpr rfl, Int.compare_eq_eq.mpr rfl]
  · rw [Nat.compare_eq_gt.mpr h, Int.compare_eq_gt.mpr (Int.ofNat_lt.mpr h)]

/-- **Numbers compare as their places do.** Where the signs and the kinds of the two do not decide,
both are finite and of one sign. -/
theorem compare_of_numbers {x y : UnpackedFloat} (hx : x ≠ .notANumber) (hy : y ≠ .notANumber) :
    x.compare y = some (compare (place x) (place y)) := by
  have hfinite : ∀ (s : Sign) (m m' : ℕ) (e e' : ℤ) (hm : 0 < m) (hm' : 0 < m'),
      (finite s m e hm).compare (finite s m' e' hm') =
        some (compare (place (finite s m e hm)) (place (finite s m' e' hm'))) := by
    intro s m m' e e' hm hm'
    rw [place, place, compare_toLex, compare_toLex, Int.compare_eq_eq.mpr rfl, Ordering.eq_then]
    cases s
    · rw [UnpackedFloat.compare, Ordering.swap_then, Double.swap_compare, ← compare_natCast,
        Double.swap_compare]
      rfl
    · rw [UnpackedFloat.compare, ← compare_natCast]
      rfl
  rcases x with s | _ | s | ⟨s, m, e, hm⟩
  case notANumber => exact absurd rfl hx
  all_goals rcases y with s' | _ | s' | ⟨s', m', e', hm'⟩
  -- what is left once the signs are known is a number of another kind or sign, or `hfinite`
  all_goals first | exact absurd rfl hy | cases s <;> cases s'
  all_goals first | exact hfinite _ _ _ _ _ _ _ | simp only [place, compare_toLex]; rfl

variable {x y z : Float32}

theorem compare_of_isNaN (h : x.toModel.unpack = .notANumber ∨ y.toModel.unpack = .notANumber) :
    x.toModel.unpack.compare y.toModel.unpack = none := by
  rcases h with h | h <;> rw [h]
  · rfl
  · rcases x.toModel.unpack with s | _ | s | _
    · cases s <;> rfl
    · rfl
    · rfl
    · rfl

/-- **A single is less than another** if both are numbers and its place is less. -/
theorem lt_iff : x < y ↔ (x.toModel.unpack ≠ .notANumber ∧ y.toModel.unpack ≠ .notANumber) ∧
    place x.toModel.unpack < place y.toModel.unpack := by
  refine Iff.trans (b := x.toModel < y.toModel) decide_eq_true_iff ?_
  change (x.toModel.unpack.compare y.toModel.unpack == some .lt) = true ↔ _
  by_cases h : x.toModel.unpack = .notANumber ∨ y.toModel.unpack = .notANumber
  · rw [compare_of_isNaN h]
    exact ⟨nofun, fun h1 => absurd h (not_or.mpr h1.1)⟩
  · rw [not_or] at h
    rw [compare_of_numbers h.1 h.2, beq_iff_eq, Option.some.injEq, compare_lt_iff_lt]
    exact ⟨fun h1 => ⟨h, h1⟩, fun h1 => h1.2⟩

theorem le_iff : x ≤ y ↔ (x.toModel.unpack ≠ .notANumber ∧ y.toModel.unpack ≠ .notANumber) ∧
    place x.toModel.unpack ≤ place y.toModel.unpack := by
  refine Iff.trans (b := x.toModel ≤ y.toModel) decide_eq_true_iff ?_
  change (x.toModel.unpack.compare y.toModel.unpack).any (·.isLE) = true ↔ _
  by_cases h : x.toModel.unpack = .notANumber ∨ y.toModel.unpack = .notANumber
  · rw [compare_of_isNaN h]
    exact ⟨nofun, fun h1 => absurd h (not_or.mpr h1.1)⟩
  · rw [not_or] at h
    rw [compare_of_numbers h.1 h.2, Option.any_some, ← compare_le_iff_le, Ordering.isLE_iff_ne_gt]
    exact ⟨fun h1 => ⟨h, h1⟩, fun h1 => h1.2⟩

theorem isNaN_iff : x.isNaN = true ↔ x.toModel.unpack = .notANumber := by
  change x.toModel.unpack.isNaN = true ↔ _
  rcases x.toModel.unpack with s | _ | s | _ <;> simp [UnpackedFloat.isNaN]

theorem lt_trans (h : x < y) (h' : y < z) : x < z := by
  rw [lt_iff] at h h' ⊢
  exact ⟨⟨h.1.1, h'.1.2⟩, h.2.trans h'.2⟩

theorem not_le_of_lt (h : x < y) : ¬ y ≤ x := by
  rw [lt_iff] at h
  rw [le_iff]
  exact fun h' => absurd h.2 (not_lt_of_ge h'.2)

end Choreo.Single
