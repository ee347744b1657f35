/-!
# Lazy lists

Finite lists whose tail is computed when it is asked for. A run is laid out as such a list, so that
a run that stops early does not lay out what it never reaches. `toList` is the view: every
operation is known by what it does to the list.
-/

namespace Choreo

/-- A finite list with a delayed tail. -/
inductive LazyList (α : Type) where
  | nil
  | cons (head : α) (tail : Unit → LazyList α)

namespace LazyList

/-- The elements in order. -/
def toList : LazyList α → List α
  | nil => []
  | cons a tail => a :: (tail ()).toList

/-- The elements of a list, then those of a lazy one. -/
def prepend : List α → (Unit → LazyList α) → LazyList α
  | [], rest => rest ()
  | a :: as, rest => cons a fun _ => prepend as rest

/-- The elements of a list so many times in a row, then those of a lazy one. -/
def prependTimes (as : List α) : (times : Nat) → (Unit → LazyList α) → LazyList α
  | 0, rest => rest ()
  | times + 1, rest => prepend as fun _ => prependTimes as times rest

@[simp] theorem toList_nil : (nil : LazyList α).toList = [] := rfl

@[simp] theorem toList_cons (a : α) (tail : Unit → LazyList α) :
    (cons a tail).toList = a :: (tail ()).toList := rfl

@[simp] theorem toList_prepend (as : List α) (rest : Unit → LazyList α) :
    (prepend as rest).toList = as ++ (rest ()).toList := by
  induction as with
  | nil => rfl
  | cons a as ih => simp [prepend, ih]

@[simp] theorem toList_prependTimes (as : List α) (times : Nat) (rest : Unit → LazyList α) :
    (prependTimes as times rest).toList =
      (List.replicate times as).flatten ++ (rest ()).toList := by
  induction times with
  | zero => simp [prependTimes]
  | succ times ih => simp [prependTimes, List.replicate_succ, ih]

end LazyList

end Choreo
