import Choreo.Proofs.Run.Checkpoints

/-! # A run that is left alone

A run that nobody else acts on takes its steps one after the other (`play_alone`), so what holds of
its performance is what one step after the other keeps (`Performance.takeAll`). Two such facts are
about the traps of its channel: the run is cancelled from a count of commands on (`CancelsFrom`), and
what it sends in vain is what it sends beyond a count (`LosesFrom`).

A run that is cancelled from a count of commands on executes the shortest beginning of its leaves
that sends so many (`cut_alone`): before each leaf it executes there is a checkpoint that it passes,
with the commands of the leaves before it sent (`checkpoint_before_leaf`). -/

namespace Choreo

namespace Performance

/-- The performance after a step that a run takes alone. -/
def take (p : Performance) : Step → Performance
  | .checkpoint | .fail _ => p
  | .note n => p.tell (.noted n)
  | .interlock => p.countInterlock
  | .publish c => p.send c
  | .wait d => p.waited d
  | .done => p.countLeaf

/-- The performance after some steps that a run takes alone. -/
def takeAll (p : Performance) (steps : List Step) : Performance := steps.foldl take p

@[simp] theorem takeAll_nil (p : Performance) : p.takeAll [] = p := rfl

@[simp] theorem takeAll_cons (p : Performance) (step : Step) (steps : List Step) :
    p.takeAll (step :: steps) = (p.take step).takeAll steps := rfl

theorem takeAll_induction {K : Performance → Prop} (hK : ∀ p step, K p → K (p.take step))
    {p : Performance} (hp : K p) (steps : List Step) : K (p.takeAll steps) := by
  induction steps generalizing p with
  | nil => exact hp
  | cons step steps ih => exact ih (hK p step hp)

/-- A step that sends nothing leaves the channel as it is, and with it what depends on its traps. -/
theorem take_cases (p : Performance) (step : Step) : (∃ c, step = .publish c) ∨
    (p.take step).id = p.id ∧ (p.take step).cancelled = p.cancelled ∧
      (p.take step).channel = p.channel ∧
      (p.take step).tally.whileDisconnected = p.tally.whileDisconnected := by
  cases step with
  | publish c => exact Or.inl ⟨c, rfl⟩
  | wait d =>
    refine Or.inr ⟨p.id_waited d, p.cancelled_waited d, p.channel_waited d, ?_⟩
    rw [take, tally_waited]
  | _ => exact Or.inr ⟨rfl, rfl, rfl, rfl⟩

theorem effect_take (p : Performance) (step : Step) : Effect [step] p (p.take step) := by
  cases step with
  | publish c => exact effect_send p c
  | wait d => exact effect_waited p d
  | _ => exact ⟨rfl, (List.append_nil _).symm, rfl, rfl, rfl, fun h => h⟩

theorem effect_takeAll (p : Performance) (steps : List Step) : Effect steps p (p.takeAll steps) := by
  induction steps generalizing p with
  | nil => exact .nil p
  | cons step steps ih => exact (effect_take p step).append (ih (p.take step))

end Performance

/-! ### Taking steps alone -/

/-- A run of `steps` takes `taken`, passing checkpoints only while it is not cancelled, and ends
before `rest`. -/
structure Alone (steps : List Step) (p : Performance) (taken rest : List Step)
    (result : Except DurationFault Outcome) : Prop where
  split : steps = taken ++ rest
  ends : Ends (rest, p.takeAll taken) result
  go : ∀ before after, taken = before ++ .checkpoint :: after → (p.takeAll before).cancelled = false

theorem Alone.cons {step : Step} {steps taken rest : List Step} {p : Performance}
    {result : Except DurationFault Outcome} (h : Alone steps (p.take step) taken rest result)
    (hstep : step = .checkpoint → p.cancelled = false) :
    Alone (step :: steps) p (step :: taken) rest result := by
  refine ⟨congrArg _ h.split, h.ends, fun before after htaken => ?_⟩
  rcases before with _ | ⟨first, before⟩
  · exact hstep (List.cons.inj htaken).1
  · obtain ⟨hfirst, hrest⟩ := List.cons.inj htaken
    subst hfirst
    exact h.go before after hrest

theorem Alone.stop {steps : List Step} {p : Performance} {result : Except DurationFault Outcome}
    (h : Ends (steps, p) result) : Alone steps p [] steps result :=
  ⟨rfl, h, fun before after htaken => by simp at htaken⟩

/-- What playing comes to at a step: it ends there, or it goes on from what the step does, unless
this is a wait that ends after the horizon. -/
theorem play_cons (step : Step) (rest : Unit → LazyList Step) (p : Performance) :
    (∃ result, Ends ((LazyList.cons step rest).toList, p) result ∧
      ∀ horizon, play horizon (.cons step rest) p = (p, .ofResult result)) ∨
    (step = .checkpoint → p.cancelled = false) ∧
      play none (.cons step rest) p = play none (rest ()) (p.take step) ∧
      ∀ horizon, play horizon (.cons step rest) p = play horizon (rest ()) (p.take step) ∨
        ∃ wake, play horizon (.cons step rest) p = (p, .waiting wake rest) ∧
          p.take step = { p with now := wake } := by
  cases step with
  | checkpoint =>
    rcases hc : p.cancelled with _ | _
    · have hgo : ∀ horizon, play horizon (.cons .checkpoint rest) p = play horizon (rest ()) p := by
        intro horizon
        rw [play, hc]
        rfl
      exact Or.inr ⟨fun _ => rfl, hgo none, fun horizon => Or.inl (hgo horizon)⟩
    · refine Or.inl ⟨_, .cancelled hc, fun horizon => ?_⟩
      rw [play, hc]
      rfl
  | wait d =>
    refine Or.inr ⟨fun h => (by cases h), ?_, fun horizon => ?_⟩
    · rw [play, Option.all_none, if_pos rfl, Performance.take, Performance.waited]
    · rw [play, Performance.take, Performance.waited]
      split_ifs
      · exact Or.inl rfl
      · exact Or.inr ⟨_, rfl, rfl⟩
  | fail fault => exact Or.inl ⟨_, .failed, fun _ => rfl⟩
  | note n => exact Or.inr ⟨fun h => (by cases h), rfl, fun _ => Or.inl rfl⟩
  | interlock => exact Or.inr ⟨fun h => (by cases h), rfl, fun _ => Or.inl rfl⟩
  | publish c => exact Or.inr ⟨fun h => (by cases h), rfl, fun _ => Or.inl rfl⟩
  | done => exact Or.inr ⟨fun h => (by cases h), rfl, fun _ => Or.inl rfl⟩

/-- **A run that is left alone takes its steps one after the other.** -/
theorem play_alone (steps : LazyList Step) (p : Performance) : ∃ taken rest result,
    Alone steps.toList p taken rest result ∧
      play none steps p = (p.takeAll taken, .ofResult result) := by
  induction steps generalizing p with
  | nil => exact ⟨[], [], _, .stop .completed, rfl⟩
  | cons step rest ih =>
    rcases play_cons step rest p with ⟨result, hends, hplay⟩ | ⟨hgo, hplay, -⟩
    · exact ⟨[], _, result, .stop hends, hplay none⟩
    · obtain ⟨taken, left, result, halone, hrest⟩ := ih () (p.take step)
      exact ⟨step :: taken, left, result, halone.cons hgo, hplay.trans hrest⟩

/-! ### The traps of a channel -/

theorem Channel.length_commands (c : Channel) : c.commands.length = c.count := by
  rw [Channel.commands, List.length_map, Array.length_toList, Channel.count]

@[simp] theorem Channel.count_publish (c : Channel) (time : Nat) (command : Command) :
    (c.publish time command).count = c.count + 1 := Array.size_push _

/-- The channel cancels the run from `max n 1` commands on. -/
structure CancelsFrom (n : Nat) (p : Performance) : Prop where
  trap : p.channel.cancelAfter = some (n, p.id)
  cancelled : p.cancelled = true ↔ max n 1 ≤ p.channel.count

theorem CancelsFrom.take {n : Nat} (p : Performance) (step : Step) (h : CancelsFrom n p) :
    CancelsFrom n (p.take step) := by
  rcases p.take_cases step with ⟨c, rfl⟩ | ⟨hid, hcancelled, hchannel, -⟩
  · have hcancels : (p.channel.publish p.now c).cancels p.id =
        decide (n ≤ p.channel.count + 1) := by
      have htrap : (p.channel.publish p.now c).cancelAfter = some (n, p.id) := h.trap
      rw [Channel.cancels, htrap, Channel.count_publish]
      simp
    refine ⟨?_, ?_⟩
    · rw [Performance.take, channel_send, id_send]
      exact h.trap
    · rw [Performance.take, cancelled_send, channel_send, Channel.count_publish, hcancels,
        Bool.or_eq_true, h.cancelled, decide_eq_true_iff]
      omega
  · refine ⟨?_, ?_⟩
    · rw [hchannel, hid]
      exact h.trap
    · rw [hcancelled, hchannel]
      exact h.cancelled

/-- From how many commands on a channel that has recorded none is without a connection, if it loses
it. -/
def Channel.limit? (c : Channel) : Option Nat :=
  if c.connected then c.disconnectAfter.map (max · 1) else some 0

/-- The channel is without a connection from `limit?` commands on, and the run has sent in vain what
it sent from then on. -/
structure LosesFrom (limit? : Option Nat) (p : Performance) : Prop where
  trap : limit? = some 0 ∨ p.channel.disconnectAfter.map (max · 1) = limit?
  connected : p.channel.connected = limit?.all (p.channel.count < ·)
  inVain : p.tally.whileDisconnected = limit?.elim 0 (p.channel.count - ·)

theorem LosesFrom.take {limit? : Option Nat} (p : Performance) (step : Step)
    (h : LosesFrom limit? p) : LosesFrom limit? (p.take step) := by
  rcases p.take_cases step with ⟨c, rfl⟩ | ⟨-, -, hchannel, hvain⟩
  · have hconnected : (p.channel.publish p.now c).connected =
        (limit?.all (p.channel.count < ·) && !p.channel.disconnectAfter.any
          (· ≤ p.channel.count + 1)) := by
      rw [← h.connected, ← Channel.count_publish p.channel p.now c]
      rfl
    refine ⟨?_, ?_, ?_⟩
    · rw [Performance.take, channel_send]
      exact h.trap
    · rw [Performance.take, channel_send, hconnected, Channel.count_publish]
      rcases limit? with _ | m
      · have hnone := Option.map_eq_none_iff.mp (h.trap.resolve_left nofun)
        rw [hnone]
        rfl
      · rw [Option.all_some, Option.all_some, Bool.eq_iff_iff, Bool.and_eq_true, decide_eq_true_iff,
          decide_eq_true_iff]
        rcases h.trap with hzero | hlimit
        · cases hzero
          omega
        · obtain ⟨n, hn, rfl⟩ := Option.map_eq_some_iff.mp hlimit
          simp only [hn, Option.any_some, Bool.not_eq_true', decide_eq_false_iff_not]
          omega
    · rw [Performance.take, channel_send, tally_send, h.connected, h.inVain, Channel.count_publish]
      rcases limit? with _ | m
      · rfl
      · rw [Option.all_some, Option.elim_some, Option.elim_some]
        by_cases hm : p.channel.count < m
        · simp only [hm, decide_true, Bool.not_true, Bool.toNat_false]
          omega
        · simp only [hm, decide_false, Bool.not_false, Bool.toNat_true]
          omega
  · refine ⟨?_, ?_, ?_⟩
    · rw [hchannel]
      exact h.trap
    · rw [hchannel]
      exact h.connected
    · rw [hvain, hchannel]
      exact h.inVain

/-! ### The shortest beginning -/

/-- Before a leaf that a run executes it passes a checkpoint, where it has sent the commands of the
leaves before. -/
theorem checkpoint_before_leaf {t : Timing} {prev : Option Kind} {last : Nat} {beats : List Beat}
    (ho : InOrder last beats) {taken rest : List Step} (h : t.stepsOf prev beats = taken ++ rest)
    (hrest : AtStop rest) {ls rs : List Leaf} (hleaves : leavesOf beats = ls ++ rs)
    (hdone : ls.length < doneBy taken) :
    (ls = [] ∧ last = 0) ∨ ∃ before after, taken = before ++ .checkpoint :: after ∧
      sentBy before = ls.flatMap t.leafCommands := by
  induction beats generalizing prev last taken ls with
  | nil =>
    obtain ⟨rfl, rfl⟩ := List.append_eq_nil_iff.mp h.symm
    exact absurd hdone (Nat.not_lt_zero _)
  | cons beat beats ih =>
    rw [Timing.stepsOf] at h
    have hquiet : beat.isQuiet = true → (ls = [] ∧ last = 0) ∨
        ∃ before after, taken = before ++ .checkpoint :: after ∧
          sentBy before = ls.flatMap t.leafCommands := by
      intro hq
      obtain ⟨hact, hsent, -, -, hsame⟩ := effects_quiet t prev hq
      obtain ⟨taken', rfl, h'⟩ := split_of_not_mem h (checkpoint_not_mem_of_isAct hact) hrest
      rw [hsame] at hleaves
      rw [doneBy_append, doneBy_of_isAct hact, Nat.zero_add] at hdone
      rcases ih ho.2 h' hleaves hdone with ⟨-, hrank⟩ | ⟨before, after, rfl, hbefore⟩
      · cases beat <;> cases hrank
        cases hq
      · exact Or.inr ⟨t.beatSteps prev beat ++ before, after, (List.append_assoc _ _ _).symm, by
          rw [sentBy_append, hsent, hbefore, List.nil_append]⟩
    cases beat with
    | checkpoint =>
      rw [beatSteps_checkpoint] at h
      rcases taken with _ | ⟨step, taken⟩
      · exact absurd hdone (Nat.not_lt_zero _)
      · obtain ⟨hstep, htail⟩ := List.cons.inj h
        subst hstep
        rcases ih ho.2 htail hleaves hdone with ⟨rfl, -⟩ | ⟨before, after, rfl, hbefore⟩
        · exact Or.inr ⟨[], taken, rfl, rfl⟩
        · exact Or.inr ⟨.checkpoint :: before, after, rfl, hbefore⟩
    | leaf kind s =>
      obtain ⟨hsent, hone, -, hpoint⟩ := effects_leaf t prev kind s
      obtain ⟨taken', rfl, h'⟩ := split_of_not_mem h hpoint hrest
      rcases ls with _ | ⟨l, ls⟩
      · have hlast : last < 1 := ho.lt_rank (by simp)
        exact Or.inl ⟨rfl, Nat.lt_one_iff.mp hlast⟩
      · rw [leavesOf_leaf, List.cons_append] at hleaves
        obtain ⟨rfl, hmore⟩ := List.cons.inj hleaves
        rw [doneBy_append, hone, List.length_cons] at hdone
        rcases ih ho.2 h' hmore (by omega) with ⟨-, hrank⟩ | ⟨before, after, rfl, hbefore⟩
        · cases hrank
        · exact Or.inr ⟨t.beatSteps prev (.leaf kind s) ++ before, after,
            (List.append_assoc _ _ _).symm, by rw [sentBy_append, hsent, hbefore]; rfl⟩
    | iteration n total => exact hquiet rfl
    | settle => exact hquiet rfl
    | rest => exact hquiet rfl

/-- The leaves `ls` are the shortest beginning of `all` that sends at least `n` commands, or `all` if
there are not so many. -/
structure Timing.IsCut (t : Timing) (n : Nat) (all ls : List Leaf) : Prop where
  beginning : ls <+: all
  enough : n ≤ (ls.flatMap t.leafCommands).length ∨ ls = all
  shortest : ∀ less, less <+: ls → less ≠ ls → (less.flatMap t.leafCommands).length < n

variable {t : Timing} {blocks : List Block} {p : Performance}

/-- The run has not begun: nothing is counted, and the channel has recorded nothing. -/
structure Performance.Fresh (p : Performance) : Prop where
  tally : p.tally = {}
  published : p.channel.published = #[]

theorem Performance.Fresh.count (h : p.Fresh) : p.channel.count = 0 := by
  rw [Channel.count, h.published]
  rfl

theorem Performance.Fresh.commands (h : p.Fresh) : p.channel.commands = [] := by
  rw [Channel.commands, h.published]
  rfl

theorem Performance.Fresh.count_takeAll (h : p.Fresh) (steps : List Step) :
    (p.takeAll steps).channel.count = (sentBy steps).length := by
  rw [← Channel.length_commands, (Performance.effect_takeAll p steps).sent, h.commands,
    List.nil_append]

/-- **A trap that cancels a run** cuts it as soon as enough commands are sent. -/
theorem cut_alone (hvalid : Block.AllValid blocks) (hturn : t.TurnsFit (Block.leavesAll blocks))
    (h : p.Fresh) (hgo : p.cancelled = false) {n : Nat}
    (htrap : p.channel.cancelAfter = some (n, p.id)) :
    ∃ ls, t.IsCut (max n 1) (Block.leavesAll blocks) ls ∧
      Performed t ls p (perform t blocks p).1 := by
  obtain ⟨taken, rest, result, halone, hplay⟩ := play_alone (t.score blocks) p
  obtain ⟨result', hresult, hrun⟩ := run_perform t blocks p
  obtain ⟨ls, rs, outcome, rfl, hleaves, hperformed, hend⟩ := hrun.executes hvalid hturn
  rw [perform, hplay] at hperformed hend hresult ⊢
  have hcancels : ∀ steps, (p.takeAll steps).cancelled = true ↔
      max n 1 ≤ (sentBy steps).length := by
    intro steps
    have hfrom : CancelsFrom n p := ⟨htrap, by rw [hgo, h.count]; simp⟩
    rw [← h.count_takeAll steps]
    exact (Performance.takeAll_induction CancelsFrom.take hfrom steps).cancelled
  have heffect := Performance.effect_takeAll p taken
  have hsent : sentBy taken = ls.flatMap t.leafCommands :=
    List.append_cancel_left (heffect.sent.symm.trans hperformed.sent)
  have hdone : doneBy taken = ls.length :=
    Nat.add_left_cancel (heffect.leaves.symm.trans hperformed.leaves)
  have hstop : AtStop rest := by
    cases halone.ends with
    | completed => exact Or.inl rfl
    | cancelled _ => exact Or.inr ⟨_, rfl⟩
    | failed => cases hresult
  refine ⟨ls, ⟨⟨rs, hleaves.symm⟩, ?_, fun less hless hne => ?_⟩, hperformed⟩
  · rcases hend with ⟨-, rfl⟩ | ⟨-, hcancelled⟩
    · exact Or.inr (by rw [hleaves, List.append_nil])
    · rw [← hsent]
      exact Or.inl ((hcancels taken).mp hcancelled)
  · obtain ⟨more, rfl⟩ := hless
    have hmore : 0 < more.length := List.length_pos_iff.mpr fun hnil => hne (by rw [hnil]; simp)
    have hlt : less.length < doneBy taken := by
      rw [hdone, List.length_append]
      omega
    have hsplit := halone.split
    rw [Timing.toList_score] at hsplit
    rw [← leavesOf_beatsOf, List.append_assoc] at hleaves
    rcases checkpoint_before_leaf (inOrder_beatsOf blocks) hsplit hstop hleaves hlt with
      ⟨-, hlast⟩ | ⟨before, after, htaken, hbefore⟩
    · cases hlast
    · have hgo := halone.go before after htaken
      rw [← hbefore]
      by_contra hle
      rw [(hcancels before).mpr (Nat.le_of_not_lt hle)] at hgo
      cases hgo

/-- **What is sent in vain** is what a channel records once it has lost its connection. -/
theorem inVain_alone (t : Timing) (blocks : List Block) (h : p.Fresh) :
    (perform t blocks p).1.tally.whileDisconnected =
      p.channel.limit?.elim 0 ((perform t blocks p).1.channel.count - ·) := by
  obtain ⟨taken, rest, result, -, hplay⟩ := play_alone (t.score blocks) p
  have hfrom : LosesFrom p.channel.limit? p := by
    unfold Channel.limit?
    rcases hc : p.channel.connected with _ | _
    · exact ⟨Or.inl rfl, hc, by rw [h.tally, h.count]; rfl⟩
    · refine ⟨Or.inr rfl, ?_, ?_⟩
      · rw [hc, h.count]
        rcases p.channel.disconnectAfter with _ | n
        · rfl
        · simp
      · rw [h.tally, h.count]
        rcases p.channel.disconnectAfter with _ | n
        · rfl
        · simp
  rw [perform, hplay]
  exact (Performance.takeAll_induction LosesFrom.take hfrom taken).inVain

end Choreo
