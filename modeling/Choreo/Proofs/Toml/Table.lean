import Choreo.Toml.Document
import Mathlib.Data.List.Basic
import Mathlib.Tactic.SplitIfs

/-! # Headers over headers

Later headers reach into the tables that earlier ones opened. Two changes along one path are one
change by both (`alter_alter`), and a change of the table that was just added to a list is an
addition of the changed table (`push_alter`). Tables that headers in double brackets open under one
name stay one entry, the last of their table, as long as no other entry is added (`Collects`). -/

namespace Choreo.Toml.Table

variable {t : Table Value}

/-! ### Entries -/

theorem get?_eq_none_iff {name : String} :
    t.get? name = none ↔ ∀ e ∈ t.entries, e.1.name ≠ name := by
  rw [get?, Option.map_eq_none_iff, List.find?_eq_none]
  simp

@[simp] theorem origin_append (key : Key) (v : Value) : (t.append key v).origin = t.origin := rfl

@[simp] theorem origin_replace (name : String) (v : Value) :
    (t.replace name v).origin = t.origin := rfl

theorem get?_append_self {key : Key} (h : t.get? key.name = none) (v : Value) :
    (t.append key v).get? key.name = some v := by
  have hnone : (t.entries.find? fun e => e.1.name = key.name) = none := Option.map_eq_none_iff.mp h
  rw [get?, append, List.find?_append, hnone]
  simp

theorem get?_append_of_ne {key : Key} {name : String}
    (h : key.name ≠ name) (v : Value) : (t.append key v).get? name = t.get? name := by
  rw [get?, get?, append, List.find?_append]
  simp [h]

theorem replace_of_get?_eq_none {name : String} (h : t.get? name = none) (v : Value) :
    t.replace name v = t := by
  obtain ⟨origin, span, entries⟩ := t
  rw [get?_eq_none_iff] at h
  rw [replace]
  congr 1
  refine (List.map_congr_left fun e he => ?_).trans (List.map_id _)
  obtain ⟨key, w⟩ := e
  exact if_neg (h _ he)

theorem replace_append {key : Key} (h : t.get? key.name = none) (v w : Value) :
    (t.append key v).replace key.name w = t.append key w := by
  have hentries := congrArg Table.entries (replace_of_get?_eq_none h w)
  rw [append, append, replace, Table.mk.injEq]
  refine ⟨rfl, rfl, ?_⟩
  rw [List.map_append]
  refine congrArg₂ (· ++ ·) hentries ?_
  simp

theorem replace_replace (name : String) (v w : Value) :
    (t.replace name v).replace name w = t.replace name w := by
  rw [replace, replace, replace, Table.mk.injEq]
  refine ⟨rfl, rfl, ?_⟩
  rw [List.map_map]
  refine List.map_congr_left fun e _ => ?_
  obtain ⟨key, u⟩ := e
  simp only [Function.comp_apply]
  split_ifs with h <;> simp

theorem get?_replace_self {name : String} {u : Value} (h : t.get? name = some u) (v : Value) :
    (t.replace name v).get? name = some v := by
  obtain ⟨origin, span, entries⟩ := t
  rw [get?, replace]
  rw [get?] at h
  simp only at h ⊢
  induction entries with
  | nil => cases h
  | cons e entries ih =>
    obtain ⟨key, w⟩ := e
    by_cases hk : key.name = name
    · simp [hk]
    · rw [List.find?_cons_of_neg (by simpa using hk)] at h
      rw [List.map_cons, if_neg hk, List.find?_cons_of_neg (by simpa using hk)]
      exact ih h

/-! ### Changes along a path -/

theorem alter_concat (origin : Origin) (f : Table Value → Option (Table Value)) (path : List Key)
    (key : Key) (t : Table Value) :
    alter origin f (path ++ [key]) t = alter origin (alter origin f [key]) path t := by
  induction path generalizing t with
  | nil => rfl
  | cons first path ih =>
    rw [List.cons_append, alter, alter]
    simp only [ih]

theorem origin_alter {f : Table Value → Option (Table Value)}
    (hf : ∀ t t', f t = some t' → t'.origin = t.origin) {origin : Origin} {path : List Key}
    {t t' : Table Value} (h : alter origin f path t = some t') : t'.origin = t.origin := by
  rcases path with _ | ⟨key, path⟩
  · exact hf t t' h
  · rw [alter] at h
    split at h
    · simp only [Option.bind_eq_bind, Option.bind_eq_some_iff, Option.some.injEq] at h
      obtain ⟨child, -, rfl⟩ := h
      rfl
    · split_ifs at h
      simp only [Option.bind_eq_bind, Option.bind_eq_some_iff, Option.some.injEq] at h
      obtain ⟨child, -, rfl⟩ := h
      rfl
    · simp only [Option.bind_eq_bind, Option.bind_eq_some_iff, Option.some.injEq] at h
      obtain ⟨last, -, last', -, rfl⟩ := h
      rfl
    · cases h

/-- **Two changes along one path are one.** The path of the second needs to have the same names, not
the same places. -/
theorem alter_alter {f g : Table Value → Option (Table Value)}
    (hf : ∀ t t', f t = some t' → t'.origin = t.origin) {path path' : List Key}
    (hnames : path'.map (·.name) = path.map (·.name)) {t t' : Table Value}
    (h : alter .implied f path t = some t') :
    alter .implied g path' t' = alter .implied (fun t => (f t).bind g) path t := by
  induction path generalizing path' t t' with
  | nil =>
    obtain rfl : path' = [] := List.map_eq_nil_iff.mp hnames
    rw [alter] at h ⊢
    rw [alter, h]
    rfl
  | cons key path ih =>
    obtain ⟨key', path', rfl⟩ : ∃ k p, path' = k :: p := by
      rcases path' with _ | ⟨k, p⟩
      · cases hnames
      · exact ⟨k, p, rfl⟩
    obtain ⟨hname, hnames⟩ := List.cons.inj hnames
    have hname : key'.name = key.name := hname
    rw [alter, hname]
    rw [alter] at h ⊢
    split at h
    · rename_i hnone
      simp only [Option.bind_eq_bind, Option.bind_eq_some_iff, Option.some.injEq] at h
      obtain ⟨child, hchild, rfl⟩ := h
      have horigin : child.origin = .implied := origin_alter hf hchild
      rw [get?_append_self hnone]
      simp only [horigin, ih hnames hchild, replace_append hnone]
      rfl
    · rename_i child hsome
      simp only [reduceCtorEq, decide_false, Bool.false_and, Bool.or_false,
        decide_eq_true_eq] at h ⊢
      split_ifs at h with horigin
      simp only [Option.bind_eq_bind, Option.bind_eq_some_iff, Option.some.injEq] at h
      obtain ⟨child', hchild, rfl⟩ := h
      have horigin' : child'.origin = child.origin := origin_alter hf hchild
      rw [get?_replace_self hsome]
      simp only [horigin', if_neg horigin, ih hnames hchild, replace_replace]
    · rename_i items hsome
      simp only [Option.bind_eq_bind, Option.bind_eq_some_iff, Option.some.injEq] at h
      obtain ⟨last, hlast, last', hlast', rfl⟩ := h
      rw [get?_replace_self hsome]
      simp only [hlast, List.getLast?_append_of_ne_nil, List.getLast?_singleton, ne_eq,
        List.cons_ne_self, not_false_eq_true, List.dropLast_concat, Option.bind_eq_bind,
        Option.bind_some, ih hnames hlast', replace_replace]
    · cases h

/-! ### Tables under one name -/

theorem origin_push {key : Key} {item t t' : Table Value} (h : push key item t = some t') :
    t'.origin = t.origin := by
  rw [push] at h
  split at h
  · obtain rfl := Option.some.inj h
    rfl
  · obtain rfl := Option.some.inj h
    rfl
  · cases h

/-- **A change of the table that was just added** is an addition of the changed table. -/
theorem push_alter {f : Table Value → Option (Table Value)} {key key' : Key}
    {item item' : Table Value} (hname : key'.name = key.name) (h : f item = some item')
    (t : Table Value) :
    (push key item t).bind (alter .implied f [key']) = push key item' t := by
  rw [push, push]
  split
  · rename_i hnone
    rw [Option.bind_some, alter, hname, get?_append_self hnone]
    simp [alter, h, replace_append hnone]
  · rename_i items hsome
    rw [Option.bind_some, alter, hname, get?_replace_self hsome]
    simp [alter, h, replace_replace]
  · rfl

/-- The table is `base` and perhaps, under a name that `base` does not have, the list of tables. -/
structure Collects (name : String) (base : Table Value) (items : List (Table Value))
    (t : Table Value) : Prop where
  free : base.get? name = none
  shape : (items = [] ∧ t = base) ∨ ∃ key, key.name = name ∧ t = base.append key (.tables items)

theorem collects_nil {name : String} (h : t.get? name = none) : Collects name t [] t :=
  ⟨h, .inl ⟨rfl, rfl⟩⟩

/-- **One more header in double brackets adds its table to the list.** -/
theorem Collects.push {name : String} {base : Table Value} {items : List (Table Value)}
    (h : Collects name base items t) {key : Key} (hkey : key.name = name) (item : Table Value) :
    ∃ t', push key item t = some t' ∧ Collects name base (items ++ [item]) t' := by
  subst hkey
  obtain ⟨hfree, ⟨rfl, rfl⟩ | ⟨first, hfirst, rfl⟩⟩ := h
  · refine ⟨t.append key (.tables [item]), ?_, hfree, .inr ⟨key, rfl, rfl⟩⟩
    rw [Table.push, hfree]
  · have hfree' : base.get? first.name = none := by rw [hfirst, hfree]
    refine ⟨base.append first (.tables (items ++ [item])), ?_, hfree, .inr ⟨first, hfirst, rfl⟩⟩
    rw [Table.push, ← hfirst, get?_append_self hfree']
    simp only [replace_append hfree']

end Choreo.Toml.Table
