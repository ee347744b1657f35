import Choreo.Proofs.Text.Cut
import Choreo.Scenario.Suite
import Mathlib.Data.List.Nodup
import Mathlib.Data.String.Basic

/-! # Requests for categories

The requests of a suite are gone through one by one, and the categories that each asks for come among
those chosen before. What is chosen in the end are the categories that any of the requests asks for
(`chosen_selectCategories`), whatever the order of the requests and however often one is repeated.

The order does count for the warnings, since a request is taken for one that found nothing if the
number of chosen categories stays as it was: it is enough that other requests before it asked for all
that it asks for (`missed_concat`). -/

namespace Choreo

/-- The request asks for the category: without the slashes at its ends it is the name of the category
or that of one above it. -/
def Asks (request name : String) : Prop :=
  ∃ wanted, Trims (· = '/') request.toList wanted ∧
    (name.toList = wanted ∨ wanted ++ ['/'] <+: name.toList)

theorem requests_iff {request name : String} : requests request name = true ↔ Asks request name := by
  simp only [requests, Bool.or_eq_true, decide_eq_true_eq, List.isPrefixOf_iff_prefix]
  constructor
  · exact fun h => ⟨_, trims_trimBoth _ _, h⟩
  · rintro ⟨wanted, htrims, h⟩
    rwa [requestName, htrims.eq]

theorem any_requests_iff {wanted : List String} {name : String} :
    wanted.any (requests · name) = true ↔ ∃ r ∈ wanted, Asks r name := by
  simp only [List.any_eq_true, requests_iff]

/-! ### Categories in order -/

namespace SuiteCategory

/-- The categories stand in the order of their names, and no two have the same name. -/
def Ordered (cs : List SuiteCategory) : Prop := cs.Pairwise fun c d => c.name < d.name

variable {c d : SuiteCategory} {cs ds all : List SuiteCategory}

theorem Ordered.eq_of_name (h : Ordered cs) (hc : c ∈ cs) (hd : d ∈ cs) (hname : c.name = d.name) :
    c = d := by
  have hnames : (cs.map (·.name)).Nodup := List.pairwise_map.mpr (h.imp ne_of_lt)
  exact List.inj_on_of_nodup_map hnames hc hd hname

theorem Ordered.ext (hc : Ordered cs) (hd : Ordered ds) (h : ∀ c, c ∈ cs ↔ c ∈ ds) : cs = ds := by
  have hperm : cs.Perm ds := by
    rw [List.perm_ext_iff_of_nodup]
    · exact h
    · exact hc.imp fun hlt heq => hlt.ne (congrArg name heq)
    · exact hd.imp fun hlt heq => hlt.ne (congrArg name heq)
  exact hperm.eq_of_pairwise (fun a b _ _ hab hba => absurd hab hba.asymm) hc hd

theorem mem_into (h : Ordered cs) :
    d ∈ c.into cs ↔ d = c ∨ (d ∈ cs ∧ d.name ≠ c.name) := by
  induction cs with
  | nil => simp [into]
  | cons e rest ih =>
    obtain ⟨hfirst, hrest⟩ := List.pairwise_cons.mp h
    rw [into]
    split_ifs with hlt heq
    · have hne : ∀ d ∈ e :: rest, d.name ≠ c.name := by
        intro d hd
        rcases List.mem_cons.mp hd with rfl | hd
        · exact hlt.ne'
        · exact (hlt.trans (hfirst d hd)).ne'
      rw [List.mem_cons]
      exact or_congr_right ⟨fun hd => ⟨hd, hne d hd⟩, And.left⟩
    · have hne : ∀ d ∈ rest, d.name ≠ c.name := fun d hd => heq ▸ (hfirst d hd).ne'
      rw [List.mem_cons, List.mem_cons]
      refine or_congr_right ⟨fun hd => ⟨Or.inr hd, hne d hd⟩, ?_⟩
      rintro ⟨rfl | hd, hname⟩
      · exact absurd heq.symm hname
      · exact hd
    · rw [List.mem_cons, ih hrest, List.mem_cons]
      constructor
      · rintro (rfl | rfl | ⟨hd, hname⟩)
        · exact Or.inr ⟨Or.inl rfl, Ne.symm heq⟩
        · exact Or.inl rfl
        · exact Or.inr ⟨Or.inr hd, hname⟩
      · rintro (rfl | ⟨rfl | hd, hname⟩)
        · exact Or.inr (Or.inl rfl)
        · exact Or.inl rfl
        · exact Or.inr (Or.inr ⟨hd, hname⟩)

theorem Ordered.into (h : Ordered cs) : Ordered (c.into cs) := by
  induction cs with
  | nil => exact List.pairwise_singleton _ _
  | cons e rest ih =>
    obtain ⟨hfirst, hrest⟩ := List.pairwise_cons.mp h
    rw [SuiteCategory.into]
    split_ifs with hlt heq
    · refine List.pairwise_cons.mpr ⟨fun d hd => ?_, h⟩
      rcases List.mem_cons.mp hd with rfl | hd
      · exact hlt
      · exact hlt.trans (hfirst d hd)
    · exact List.pairwise_cons.mpr ⟨fun d hd => heq ▸ hfirst d hd, hrest⟩
    · refine List.pairwise_cons.mpr ⟨fun d hd => ?_, ih hrest⟩
      rcases (mem_into hrest).mp hd with rfl | ⟨hd, -⟩
      · exact lt_of_le_of_ne (not_lt.mp hlt) (Ne.symm heq)
      · exact hfirst d hd

/-- Of categories that all belong together none is lost when others come among them. -/
theorem foldl_into (hall : Ordered all) (hds : ∀ d ∈ ds, d ∈ all) (hcs : ∀ c ∈ cs, c ∈ all)
    (h : Ordered cs) :
    Ordered (ds.foldl (fun chosen c => c.into chosen) cs) ∧
      ∀ c, c ∈ ds.foldl (fun chosen c => c.into chosen) cs ↔ c ∈ ds ∨ c ∈ cs := by
  induction ds generalizing cs with
  | nil => exact ⟨h, fun c => by simp⟩
  | cons d ds ih =>
    rw [List.forall_mem_cons] at hds
    -- one of the same name is the same category
    have hmem : ∀ c, c ∈ d.into cs ↔ c = d ∨ c ∈ cs := by
      intro c
      rw [mem_into h]
      refine ⟨Or.imp_right And.left, ?_⟩
      rintro (rfl | hc)
      · exact Or.inl rfl
      · by_cases hname : c.name = d.name
        · exact Or.inl (hall.eq_of_name (hcs c hc) hds.1 hname)
        · exact Or.inr ⟨hc, hname⟩
    have hstay : ∀ c ∈ d.into cs, c ∈ all := by
      intro c hc
      rcases (hmem c).mp hc with rfl | hc
      · exact hds.1
      · exact hcs c hc
    obtain ⟨hordered, hfold⟩ := ih hds.2 hstay h.into
    refine ⟨hordered, fun c => ?_⟩
    rw [List.foldl_cons, hfold, hmem, List.mem_cons]
    tauto

end SuiteCategory

open SuiteCategory (Ordered foldl_into)

variable {all : List SuiteCategory}

/-- The categories that some requests ask for. -/
def askedFor (all : List SuiteCategory) (wanted : List String) : List SuiteCategory :=
  all.filter fun c => wanted.any (requests · c.name)

theorem mem_askedFor {wanted : List String} {c : SuiteCategory} :
    c ∈ askedFor all wanted ↔ c ∈ all ∧ ∃ r ∈ wanted, Asks r c.name := by
  rw [askedFor, List.mem_filter, any_requests_iff]

/-- The request asks for nothing that others did not ask for. -/
def Idle (all : List SuiteCategory) (before : List String) (request : String) : Prop :=
  ∀ c ∈ all, Asks request c.name → ∃ r ∈ before, Asks r c.name

/-! ### One request after the other -/

theorem chosen_add (hall : Ordered all) (before missed : List String) (request : String) :
    (Selection.add all ⟨askedFor all before, missed⟩ request).chosen =
      askedFor all (before ++ [request]) := by
  have hsub : ∀ wanted, ∀ c ∈ askedFor all wanted, c ∈ all := fun _ _ hc => (mem_askedFor.mp hc).1
  have hordered : ∀ wanted, Ordered (askedFor all wanted) := fun _ => List.Pairwise.filter _ hall
  have hnew : ∀ c ∈ all.filter (fun c => requests request c.name), c ∈ all :=
    fun _ hc => List.mem_of_mem_filter hc
  obtain ⟨hresult, hmem⟩ := foldl_into hall hnew (hsub before) (hordered before)
  refine hresult.ext (hordered _) fun c => ?_
  rw [hmem, List.mem_filter, requests_iff, mem_askedFor, mem_askedFor]
  simp only [List.mem_append, List.mem_singleton]
  constructor
  · rintro (⟨hc, hr⟩ | ⟨hc, r, hr, hrc⟩)
    · exact ⟨hc, request, Or.inr rfl, hr⟩
    · exact ⟨hc, r, Or.inl hr, hrc⟩
  · rintro ⟨hc, r, hr | rfl, hrc⟩
    · exact Or.inr ⟨hc, r, hr, hrc⟩
    · exact Or.inl ⟨hc, hrc⟩

theorem length_askedFor_concat {before : List String} {request : String} :
    (askedFor all (before ++ [request])).length = (askedFor all before).length ↔
      Idle all before request := by
  have hsub : (askedFor all before).Sublist (askedFor all (before ++ [request])) := by
    refine List.monotone_filter_right _ fun c hc => ?_
    rw [List.any_append, hc, Bool.true_or]
  constructor
  · intro hlength c hc hr
    have hmem : c ∈ askedFor all (before ++ [request]) :=
      mem_askedFor.mpr ⟨hc, request, by simp, hr⟩
    rw [← hsub.eq_of_length hlength.symm] at hmem
    exact (mem_askedFor.mp hmem).2
  · intro hidle
    refine congrArg List.length (List.filter_congr fun c hc => ?_)
    rw [Bool.eq_iff_iff, any_requests_iff, any_requests_iff]
    constructor
    · rintro ⟨r, hr, hrc⟩
      rcases List.mem_append.mp hr with hr | hr
      · exact ⟨r, hr, hrc⟩
      · obtain rfl := List.mem_singleton.mp hr
        exact hidle c hc hrc
    · rintro ⟨r, hr, hrc⟩
      exact ⟨r, List.mem_append_left _ hr, hrc⟩

theorem chosen_foldl_add (hall : Ordered all) (wanted : List String) :
    (wanted.foldl (Selection.add all) {}).chosen = askedFor all wanted := by
  induction wanted using List.reverseRecOn with
  | nil => simp [askedFor]
  | append_singleton before request ih =>
    rw [List.foldl_concat, ← chosen_add hall before (before.foldl (Selection.add all) {}).missed,
      ← ih]

open Classical in
theorem missed_foldl_concat (hall : Ordered all) (before : List String) (request : String) :
    ((before ++ [request]).foldl (Selection.add all) {}).missed =
      (before.foldl (Selection.add all) {}).missed ++
        if Idle all before request then [request] else [] := by
  have hlater := chosen_foldl_add hall (before ++ [request])
  rw [List.foldl_concat] at hlater ⊢
  generalize hs : before.foldl (Selection.add all) {} = s at hlater ⊢
  have hcount : (s.add all request).chosen.length = s.chosen.length ↔ Idle all before request := by
    rw [hlater, ← hs, chosen_foldl_add hall, length_askedFor_concat]
  have hmissed : (s.add all request).missed =
      if (s.add all request).chosen.length = s.chosen.length then s.missed ++ [request]
      else s.missed := rfl
  simp only [hmissed, hcount]
  split_ifs
  · rfl
  · rw [List.append_nil]

/-! ### The selection -/

theorem selectCategories_nil : selectCategories all [] = ⟨all, []⟩ := rfl

/-- All requests are gone through one by one; without requests there is only nothing to tell. -/
theorem missed_selectCategories (wanted : List String) :
    (selectCategories all wanted).missed = (wanted.foldl (Selection.add all) {}).missed := by
  cases wanted <;> rfl

/-- **What is chosen are the categories that a request asks for**, in their order. -/
theorem chosen_selectCategories (hall : Ordered all) {wanted : List String} (h : wanted ≠ []) :
    (selectCategories all wanted).chosen = askedFor all wanted := by
  rw [selectCategories, if_neg (by simpa using h), chosen_foldl_add hall]

theorem mem_chosen_iff (hall : Ordered all) {wanted : List String} {c : SuiteCategory} :
    c ∈ (selectCategories all wanted).chosen ↔
      c ∈ all ∧ (wanted = [] ∨ ∃ r ∈ wanted, Asks r c.name) := by
  rcases eq_or_ne wanted [] with rfl | h
  · simp [selectCategories_nil]
  · rw [chosen_selectCategories hall h, mem_askedFor, or_iff_right h]

theorem chosen_sublist (hall : Ordered all) (wanted : List String) :
    (selectCategories all wanted).chosen.Sublist all := by
  rcases eq_or_ne wanted [] with rfl | h
  · exact List.Sublist.refl _
  · rw [chosen_selectCategories hall h]
    exact List.filter_sublist

theorem chosen_congr (hall : Ordered all) {wanted wanted' : List String}
    (h : ∀ r, r ∈ wanted' ↔ r ∈ wanted) :
    (selectCategories all wanted').chosen = (selectCategories all wanted).chosen := by
  have hordered : ∀ wanted, Ordered (selectCategories all wanted).chosen :=
    fun wanted => List.Pairwise.sublist (chosen_sublist hall wanted) hall
  have hnil : wanted' = [] ↔ wanted = [] := by simp only [List.eq_nil_iff_forall_not_mem, h]
  refine (hordered _).ext (hordered _) fun c => ?_
  simp only [mem_chosen_iff hall, hnil, h]

theorem missed_selectCategories_nil : (selectCategories all []).missed = [] := rfl

open Classical in
/-- What counts for a warning is whether a request asks for anything new. -/
theorem missed_concat (hall : Ordered all) (before : List String) (request : String) :
    (selectCategories all (before ++ [request])).missed =
      (selectCategories all before).missed ++ if Idle all before request then [request] else [] := by
  rw [missed_selectCategories, missed_selectCategories, missed_foldl_concat hall]

/-- A request is warned of exactly if, at one of the places where it stands, all that it asks for was
asked for before. -/
theorem mem_missed_iff (hall : Ordered all) {wanted : List String} {r : String} :
    r ∈ (selectCategories all wanted).missed ↔
      ∃ before after, wanted = before ++ r :: after ∧ Idle all before r := by
  induction wanted using List.reverseRecOn with
  | nil => simp [missed_selectCategories_nil]
  | append_singleton earlier request ih =>
    rw [missed_concat hall, List.mem_append, ih]
    constructor
    · rintro (⟨before, after, rfl, hidle⟩ | hr)
      · exact ⟨before, after ++ [request], by simp, hidle⟩
      · split_ifs at hr with hidle
        · obtain rfl := List.mem_singleton.mp hr
          exact ⟨earlier, [], rfl, hidle⟩
        · cases hr
    · rintro ⟨before, after, hsplit, hidle⟩
      rcases List.eq_nil_or_concat after with rfl | ⟨after, last, rfl⟩
      · obtain ⟨rfl, hlast⟩ := List.append_inj' hsplit rfl
        obtain rfl := List.singleton_inj.mp hlast
        exact Or.inr (by rw [if_pos hidle]; exact List.mem_singleton_self _)
      · rw [List.concat_eq_append, ← List.cons_append, ← List.append_assoc] at hsplit
        exact Or.inl ⟨before, after, (List.append_inj' hsplit rfl).1, hidle⟩

/-- The requests share no category. -/
def Apart (all : List SuiteCategory) (q r : String) : Prop :=
  ∀ c ∈ all, ¬ (Asks q c.name ∧ Asks r c.name)

/-- Where no two requests share a category, those are warned of that find nothing. -/
theorem mem_missed_iff_of_apart (hall : Ordered all) {wanted : List String}
    (hapart : wanted.Pairwise (Apart all)) {r : String} :
    r ∈ (selectCategories all wanted).missed ↔ r ∈ wanted ∧ ∀ c ∈ all, ¬ Asks r c.name := by
  rw [mem_missed_iff hall]
  constructor
  · rintro ⟨before, after, rfl, hidle⟩
    refine ⟨by simp, fun c hc hr => ?_⟩
    obtain ⟨q, hq, hqc⟩ := hidle c hc hr
    exact (List.pairwise_append.mp hapart).2.2 q hq r List.mem_cons_self c hc ⟨hqc, hr⟩
  · rintro ⟨hr, hnone⟩
    obtain ⟨before, after, hsplit⟩ := List.append_of_mem hr
    exact ⟨before, after, hsplit, fun c hc hasks => absurd hasks (hnone c hc)⟩

theorem runSuite_warns {root : FileTree} {path : String} (hnonempty : discover root path ≠ [])
    (style : SuiteStyle) (wanted : List String) : ∃ rest, (runSuite style root path wanted).2 =
      (selectCategories (discover root path) wanted).missed.map (notFoundLine (discover root path)) ++
        rest := by
  have hempty : (discover root path).isEmpty = false := by simpa using hnonempty
  have hfile : ∀ text, root.find path ≠ .ok (.file text) :=
    fun text h => hnonempty (by rw [discover, h])
  have hplan : ∃ more groups, planSuite root path wanted =
      ⟨(selectCategories (discover root path) wanted).missed.map
        (notFoundLine (discover root path)) ++ more, groups⟩ := by
    rw [planSuite]
    split
    · next h => exact absurd h (hfile _)
    · simp only [hempty, Bool.false_eq_true, if_false]
      split_ifs
      · exact ⟨_, _, rfl⟩
      · exact ⟨[], _, by rw [List.append_nil]⟩
  obtain ⟨more, groups, hplan⟩ := hplan
  rw [runSuite, hplan]
  simp only [List.append_assoc]
  split_ifs
  · exact ⟨more, rfl⟩
  · exact ⟨_, rfl⟩

/-- **What is run follows the requests.** Without requests these are all categories, otherwise those
that a request asks for, each as it was found and in the same order, whatever the order of the
requests and however often they are repeated. A suite tells first which requests it takes for ones
that found nothing. Every request that asks for no category is among them; so is one whose categories
were all asked for before, and none else. -/
theorem selection_follows_requests (hall : Ordered all) (wanted : List String) :
    (∀ c, c ∈ (selectCategories all wanted).chosen ↔
      c ∈ all ∧ (wanted = [] ∨ ∃ r ∈ wanted, Asks r c.name)) ∧
    (selectCategories all wanted).chosen.Sublist all ∧
    (∀ wanted', (∀ r, r ∈ wanted' ↔ r ∈ wanted) →
      (selectCategories all wanted').chosen = (selectCategories all wanted).chosen) ∧
    (∀ r, r ∈ (selectCategories all wanted).missed ↔
      ∃ before after, wanted = before ++ r :: after ∧ Idle all before r) ∧
    (∀ r ∈ wanted, (∀ c ∈ all, ¬ Asks r c.name) → r ∈ (selectCategories all wanted).missed) ∧
    (wanted.Pairwise (Apart all) → ∀ r, r ∈ (selectCategories all wanted).missed ↔
      r ∈ wanted ∧ ∀ c ∈ all, ¬ Asks r c.name) ∧
    (all ≠ [] → ∀ style root path, discover root path = all → ∃ rest,
      (runSuite style root path wanted).2 =
        (selectCategories all wanted).missed.map (notFoundLine all) ++ rest) := by
  refine ⟨fun c => mem_chosen_iff hall, chosen_sublist hall wanted,
    fun wanted' h => chosen_congr hall h, fun r => mem_missed_iff hall, fun r hr hnone => ?_,
    fun hapart r => mem_missed_iff_of_apart hall hapart, ?_⟩
  · obtain ⟨before, after, hsplit⟩ := List.append_of_mem hr
    exact (mem_missed_iff hall).mpr
      ⟨before, after, hsplit, fun c hc hasks => absurd hasks (hnone c hc)⟩
  · rintro hnonempty style root path rfl
    exact runSuite_warns hnonempty style wanted

/-- A folder is asked for and then one below it: both are chosen, and the second request is taken for
one that found nothing. A folder whose name only starts the same way is left out. -/
theorem subfolder_after_folder_missed :
    let all : List SuiteCategory := [⟨"arm", []⟩, ⟨"arm/both", []⟩, ⟨"army", []⟩]
    Ordered all ∧
      (∀ c, c ∈ (selectCategories all ["arm/", "arm/both"]).chosen ↔ c.name ≠ "army" ∧ c ∈ all) ∧
      "arm/both" ∈ (selectCategories all ["arm/", "arm/both"]).missed := by
  intro all
  have hall : Ordered all := by unfold Ordered all; decide
  obtain ⟨hchosen, -, -, hmissed, -⟩ := selection_follows_requests hall ["arm/", "arm/both"]
  have hasked : ∀ c ∈ all, (∃ r ∈ ["arm/", "arm/both"], Asks r c.name) ↔ c.name ≠ "army" := by
    simp only [← any_requests_iff, all]
    decide
  have hidle : Idle all ["arm/"] "arm/both" := by
    simp only [Idle, ← requests_iff]
    decide
  refine ⟨hall, fun c => ?_, (hmissed _).mpr ⟨["arm/"], [], rfl, hidle⟩⟩
  rw [hchosen, or_iff_right (List.cons_ne_nil _ _), and_comm]
  exact and_congr_left (hasked c)

/-- A directory with a folder of one scenario. -/
def oneFolder : FileTree :=
  .directory [("suite", .directory [("arm", .directory [("wave.test.toml", .file (some ""))])])]

/-- The folder is there and asked for twice, and the second request is told to have found nothing. -/
theorem repeated_request_warned :
    (∃ c ∈ discover oneFolder "suite", Asks "arm" c.name) ∧
      ∀ style, ∃ rest, (runSuite style oneFolder "suite" ["arm", "arm"]).2 =
        .message "warning: category 'arm' not found (available: arm)" :: rest := by
  have hnames : (discover oneFolder "suite").map (·.name) = ["arm"] := by decide +kernel
  have hmissed : (selectCategories (discover oneFolder "suite") ["arm", "arm"]).missed = ["arm"] := by
    decide +kernel
  have hlabels : (discover oneFolder "suite").map (fun c => categoryLabel c.name) = ["arm"] := by
    decide +kernel
  have hnonempty : discover oneFolder "suite" ≠ [] := by
    intro hempty
    rw [hempty] at hnames
    cases hnames
  have harm : "arm" ∈ (discover oneFolder "suite").map (·.name) := by
    rw [hnames]
    exact List.mem_singleton_self _
  obtain ⟨c, hc, hname⟩ := List.mem_map.mp harm
  refine ⟨⟨c, hc, requests_iff.mp (by rw [hname]; decide)⟩, fun style => ?_⟩
  obtain ⟨rest, hrest⟩ := runSuite_warns hnonempty style ["arm", "arm"]
  refine ⟨rest, ?_⟩
  rw [hrest, hmissed, List.map_singleton, notFoundLine, hlabels]
  rfl

end Choreo
