import Choreo.Proofs.Run.Course

/-! # What steps do

Every step has one effect, whoever else acts on the run: it sends a command, counts an interlock or
a leaf, or does none of these. So what a run has done at some moment is read off the steps that it
has taken (`Course.effect`), and these are the steps it had before, without those that are left. A
cancelled run takes no more checkpoints. -/

namespace Choreo

/-- The commands that some steps send. -/
def sentBy (steps : List Step) : List Command :=
  steps.filterMap fun
    | .publish c => some c
    | _ => none

def Step.isDone : Step → Bool
  | .done => true
  | _ => false

def Step.isInterlock : Step → Bool
  | .interlock => true
  | _ => false

/-- The number of leaves that end among some steps. -/
def doneBy (steps : List Step) : Nat := steps.countP Step.isDone

/-- The number of interlocks among some steps. -/
def interlocksBy (steps : List Step) : Nat := steps.countP Step.isInterlock

@[simp] theorem sentBy_append (as bs : List Step) : sentBy (as ++ bs) = sentBy as ++ sentBy bs := by
  rw [sentBy, List.filterMap_append]
  rfl

@[simp] theorem sentBy_nil : sentBy [] = [] := rfl

@[simp] theorem sentBy_publish (c : Command) (steps : List Step) :
    sentBy (.publish c :: steps) = c :: sentBy steps := by
  rw [sentBy, List.filterMap_cons]
  rfl

@[simp] theorem sentBy_note (n : StepNote) (steps : List Step) :
    sentBy (.note n :: steps) = sentBy steps := by
  rw [sentBy, List.filterMap_cons]
  rfl

@[simp] theorem sentBy_waitMillis (n : Nat) (steps : List Step) :
    sentBy (.waitMillis n :: steps) = sentBy steps := by
  rw [sentBy, List.filterMap_cons]
  rfl

@[simp] theorem sentBy_waitFor (d : Except DurationFault Duration) (steps : List Step) :
    sentBy (.waitFor d :: steps) = sentBy steps := by
  cases d <;> rfl

@[simp] theorem sentBy_fail (fault : DurationFault) (steps : List Step) :
    sentBy (.fail fault :: steps) = sentBy steps := by
  rw [sentBy, List.filterMap_cons]
  rfl

@[simp] theorem sentBy_interlock (steps : List Step) :
    sentBy (.interlock :: steps) = sentBy steps := by
  rw [sentBy, List.filterMap_cons]
  rfl

@[simp] theorem sentBy_done (steps : List Step) : sentBy (.done :: steps) = sentBy steps := by
  rw [sentBy, List.filterMap_cons]
  rfl

@[simp] theorem doneBy_append (as bs : List Step) : doneBy (as ++ bs) = doneBy as + doneBy bs := by
  rw [doneBy, List.countP_append]
  rfl

@[simp] theorem interlocksBy_append (as bs : List Step) :
    interlocksBy (as ++ bs) = interlocksBy as + interlocksBy bs := by
  rw [interlocksBy, List.countP_append]
  rfl

/-- The commands that a channel has recorded. -/
def Channel.commands (c : Channel) : List Command := c.published.toList.map (·.command)

/-- The performance `q` comes from `p` by the steps of `steps`. -/
structure Effect (steps : List Step) (p q : Performance) : Prop where
  id : q.id = p.id
  sent : q.channel.commands = p.channel.commands ++ sentBy steps
  commands : q.tally.commands = p.tally.commands + (sentBy steps).length
  leaves : q.tally.leaves = p.tally.leaves + doneBy steps
  interlocks : q.tally.interlocks = p.tally.interlocks + interlocksBy steps
  cancelled : p.cancelled = true → q.cancelled = true

theorem Effect.nil (p : Performance) : Effect [] p p :=
  ⟨rfl, (List.append_nil _).symm, rfl, rfl, rfl, fun h => h⟩

theorem Effect.append {as bs : List Step} {p q r : Performance} (h : Effect as p q)
    (h' : Effect bs q r) : Effect (as ++ bs) p r := by
  refine ⟨h'.id.trans h.id, ?_, ?_, ?_, ?_, h'.cancelled ∘ h.cancelled⟩
  · rw [h'.sent, h.sent, sentBy_append, List.append_assoc]
  · rw [h'.commands, h.commands, sentBy_append, List.length_append, Nat.add_assoc]
  · rw [h'.leaves, h.leaves, doneBy_append, Nat.add_assoc]
  · rw [h'.interlocks, h.interlocks, interlocksBy_append, Nat.add_assoc]

theorem Effect.of_undisturbed {steps : List Step} {p q r : Performance} (h : Effect steps p q)
    (h' : Undisturbed q r) : Effect steps p r := by
  refine ⟨h'.id.trans h.id, ?_, ?_, ?_, ?_, h'.cancelled ∘ h.cancelled⟩
  · rw [Channel.commands, h'.published]
    exact h.sent
  · rw [h'.tally]
    exact h.commands
  · rw [h'.tally]
    exact h.leaves
  · rw [h'.tally]
    exact h.interlocks

theorem id_send (p : Performance) (c : Command) : (p.send c).id = p.id := by
  rw [Performance.send]
  cases p.channel.connected <;> rfl

theorem channel_send (p : Performance) (c : Command) :
    (p.send c).channel = p.channel.publish p.now c := by
  rw [Performance.send]
  cases p.channel.connected <;> rfl

theorem tally_send (p : Performance) (c : Command) :
    (p.send c).tally = { p.tally with
      commands := p.tally.commands + 1
      whileDisconnected := p.tally.whileDisconnected + (!p.channel.connected).toNat } := by
  rw [Performance.send]
  cases p.channel.connected <;> rfl

theorem cancelled_send (p : Performance) (c : Command) :
    (p.send c).cancelled = (p.cancelled || (p.channel.publish p.now c).cancels p.id) := by
  rw [Performance.send]
  cases p.channel.connected <;> rfl

theorem effect_send (p : Performance) (c : Command) : Effect [.publish c] p (p.send c) := by
  refine ⟨id_send p c, ?_, ?_, ?_, ?_, fun h => ?_⟩
  · rw [channel_send, Channel.commands, Channel.publish, Array.toList_push, List.map_append]
    rfl
  · rw [tally_send]
    rfl
  · rw [tally_send]
    rfl
  · rw [tally_send]
    rfl
  · rw [cancelled_send, h]
    rfl

theorem effect_waited (p : Performance) (d : Duration) : Effect [.wait d] p (p.waited d) := by
  refine ⟨Performance.id_waited p d, ?_, ?_, ?_, ?_, fun h => ?_⟩
  · rw [Performance.channel_waited]
    exact (List.append_nil _).symm
  · rw [Performance.tally_waited]
    rfl
  · rw [Performance.tally_waited]
    rfl
  · rw [Performance.tally_waited]
    rfl
  · rwa [Performance.cancelled_waited]

/-- **A move takes one step**, which has its effect; a cancelled run does not pass a checkpoint. -/
theorem Move.effect {m m' : Moment} (h : Move m m') :
    ∃ step, m.1 = step :: m'.1 ∧ Effect [step] m.2 m'.2 ∧
      (m.2.cancelled = true → step ≠ .checkpoint) := by
  cases h with
  | checkpoint go =>
    refine ⟨.checkpoint, rfl, ⟨rfl, (List.append_nil _).symm, rfl, rfl, rfl, fun h => h⟩, fun h => ?_⟩
    exact absurd h (Bool.eq_false_iff.mp go)
  | note => exact ⟨_, rfl, ⟨rfl, (List.append_nil _).symm, rfl, rfl, rfl, fun h => h⟩, nofun⟩
  | interlock => exact ⟨_, rfl, ⟨rfl, (List.append_nil _).symm, rfl, rfl, rfl, fun h => h⟩, nofun⟩
  | publish others => exact ⟨_, rfl, (effect_send _ _).of_undisturbed others, nofun⟩
  | wait others => exact ⟨_, rfl, (effect_waited _ _).of_undisturbed others, nofun⟩
  | done => exact ⟨_, rfl, ⟨rfl, (List.append_nil _).symm, rfl, rfl, rfl, fun h => h⟩, nofun⟩

/-- **What a run has done so far** is what the steps do that it has taken. -/
theorem Course.effect {m m' : Moment} (h : Course m m') :
    ∃ taken, m.1 = taken ++ m'.1 ∧ Effect taken m.2 m'.2 ∧
      (m.2.cancelled = true → .checkpoint ∉ taken) := by
  induction h using Relation.ReflTransGen.head_induction_on with
  | refl => exact ⟨[], rfl, .nil _, nofun⟩
  | @head m m' hm _ ih =>
    obtain ⟨step, hstep, he, hc⟩ := hm.effect
    obtain ⟨taken, htaken, he', hc'⟩ := ih
    refine ⟨step :: taken, by rw [hstep, htaken]; rfl, he.append he', fun h => ?_⟩
    rw [List.mem_cons, not_or]
    exact ⟨fun h1 => hc h h1.symm, hc' (he.cancelled h)⟩

theorem Run.course {m : Moment} {q : Performance} {result : Except DurationFault Outcome}
    (h : Run m q result) : ∃ rest, Course m (rest, q) ∧ Ends (rest, q) result := by
  induction h with
  | stop ends => exact ⟨_, .refl, ends⟩
  | move head _ ih =>
    obtain ⟨rest, hcourse, hends⟩ := ih
    exact ⟨rest, hcourse.head head, hends⟩

end Choreo
