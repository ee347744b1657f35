import Choreo.Proofs.Run.Turns

/-! # The clock of a run

Only waits take time: a run stands, at every moment, as many milliseconds after its start as the
waits among the steps that it has taken last (`Course.timed`), and its channel has recorded the
commands of these steps with the times at which the waits before them were over.

The waits of a beat are those of its own; that a sum of a time and some milliseconds is rounded up
like the time alone (`millisUp_add_ofMillis`) makes the lengths of turns exact. -/

namespace Choreo

/-! ### Whole milliseconds -/

namespace Duration

theorem ceilDiv_add_mul (n k : Nat) {unit : Nat} (h : 0 < unit) :
    ceilDiv (n + k * unit) unit = ceilDiv n unit + k := by
  unfold ceilDiv
  have hshift : n + k * unit + unit - 1 = n + unit - 1 + k * unit := by omega
  rw [hshift, Nat.add_mul_div_right _ _ h]

theorem nanosPerMilli_pos : 0 < nanosPerMilli := Nat.pow_pos (by decide)

theorem nanos_ofMillis (n : Nat) : (ofMillis n).nanos = n * nanosPerMilli := rfl

theorem millisUp_add_ofMillis {d e : Duration} {n : Nat} (h : d.add (.ofMillis n) = .ok e) :
    e.millisUp = d.millisUp + n := by
  have he : e.nanos = d.nanos + n * nanosPerMilli := by
    unfold Duration.add at h
    split_ifs at h
    obtain rfl := Except.ok.inj h
    rw [nanos_ofMillis]
  rw [millisUp, millisUp, he, ceilDiv_add_mul _ _ nanosPerMilli_pos]

@[simp] theorem millisUp_ofMillis (n : Nat) : (ofMillis n).millisUp = n := by
  have hzero : ceilDiv 0 nanosPerMilli = 0 :=
    Nat.div_eq_of_lt (by rw [Nat.zero_add]; exact Nat.sub_lt nanosPerMilli_pos Nat.one_pos)
  have h := ceilDiv_add_mul 0 n nanosPerMilli_pos
  rw [hzero, Nat.zero_add, Nat.zero_add] at h
  rw [millisUp, nanos_ofMillis, h]

end Duration

/-! ### The time that steps take -/

/-- How many milliseconds a step takes. -/
def Step.millis : Step → Nat
  | .wait d => d.millisUp
  | _ => 0

/-- What a step that is taken at a time records. -/
def Step.recordAt (now : Nat) : Step → List Published
  | .publish c => [⟨now, c⟩]
  | _ => []

/-- How many milliseconds some steps take. -/
def millisOf (steps : List Step) : Nat := (steps.map Step.millis).sum

/-- What some steps record that are taken from a time on. -/
def recordFrom : (now : Nat) → List Step → List Published
  | _, [] => []
  | now, step :: rest => step.recordAt now ++ recordFrom (now + step.millis) rest

theorem recordFrom_cons (now : Nat) (step : Step) (rest : List Step) :
    recordFrom now (step :: rest) = step.recordAt now ++ recordFrom (now + step.millis) rest := rfl

@[simp] theorem millisOf_nil : millisOf [] = 0 := rfl

@[simp] theorem millisOf_cons (step : Step) (steps : List Step) :
    millisOf (step :: steps) = step.millis + millisOf steps := by
  rw [millisOf, List.map_cons, List.sum_cons]
  rfl

@[simp] theorem millisOf_append (as bs : List Step) :
    millisOf (as ++ bs) = millisOf as + millisOf bs := by
  rw [millisOf, List.map_append, List.sum_append]
  rfl

@[simp] theorem millis_wait (d : Duration) : (Step.wait d).millis = d.millisUp := rfl

@[simp] theorem millis_waitMillis (n : Nat) : (Step.waitMillis n).millis = n := by
  rw [Step.waitMillis, millis_wait, Duration.millisUp_ofMillis]

theorem recordFrom_append (now : Nat) (as bs : List Step) :
    recordFrom now (as ++ bs) = recordFrom now as ++ recordFrom (now + millisOf as) bs := by
  induction as generalizing now with
  | nil => rfl
  | cons step as ih =>
    rw [List.cons_append, recordFrom_cons, recordFrom_cons, ih, millisOf_cons, List.append_assoc,
      Nat.add_assoc]

theorem recordFrom_of_sentBy_eq_nil {steps : List Step} (h : sentBy steps = []) (now : Nat) :
    recordFrom now steps = [] := by
  induction steps generalizing now with
  | nil => rfl
  | cons step steps ih =>
    have hsent : sentBy (step :: steps) = sentBy [step] ++ sentBy steps :=
      sentBy_append [step] steps
    rw [hsent, List.append_eq_nil_iff] at h
    rw [recordFrom_cons, ih h.2, List.append_nil]
    cases step with
    | publish c => exact absurd h.1 (by simp)
    | _ => rfl

theorem command_recordFrom (now : Nat) (steps : List Step) :
    (recordFrom now steps).map (·.command) = sentBy steps := by
  induction steps generalizing now with
  | nil => rfl
  | cons step steps ih =>
    have hsent : sentBy (step :: steps) = sentBy [step] ++ sentBy steps :=
      sentBy_append [step] steps
    rw [recordFrom_cons, List.map_append, ih, hsent]
    cases step <;> rfl

theorem time_mem_recordFrom {now : Nat} {steps : List Step} {e : Published}
    (h : e ∈ recordFrom now steps) : now ≤ e.time ∧ e.time ≤ now + millisOf steps := by
  induction steps generalizing now with
  | nil => cases h
  | cons step steps ih =>
    rw [recordFrom_cons, List.mem_append] at h
    rw [millisOf_cons]
    rcases h with h | h
    · have htime : e.time = now := by
        cases step with
        | publish c => rw [List.mem_singleton.mp h]
        | _ => cases h
      omega
    · obtain ⟨hfrom, hto⟩ := ih h
      omega

/-! ### Runs on the clock -/

/-- The steps take a run from `p` to `q` on the clock and in the record of the channel. -/
structure Timed (steps : List Step) (p q : Performance) : Prop where
  now : q.now = p.now + millisOf steps
  record : q.channel.published.toList =
    p.channel.published.toList ++ recordFrom p.now steps

theorem Timed.nil (p : Performance) : Timed [] p p := ⟨rfl, (List.append_nil _).symm⟩

theorem Timed.append {as bs : List Step} {p q r : Performance} (h : Timed as p q)
    (h' : Timed bs q r) : Timed (as ++ bs) p r := by
  refine ⟨?_, ?_⟩
  · rw [h'.now, h.now, millisOf_append, Nat.add_assoc]
  · rw [h'.record, h.record, h.now, recordFrom_append, List.append_assoc]

/-- Others change neither the clock nor what is recorded. -/
theorem Timed.of_undisturbed {steps : List Step} {p q r : Performance} (h : Timed steps p q)
    (h' : Undisturbed q r) : Timed steps p r := by
  refine ⟨h'.now.trans h.now, ?_⟩
  rw [h'.published]
  exact h.record

theorem timed_send (p : Performance) (c : Command) : Timed [.publish c] p (p.send c) := by
  refine ⟨?_, ?_⟩
  · rw [Performance.send]
    cases p.channel.connected <;> rfl
  · rw [channel_send, Channel.publish, Array.toList_push]
    rfl

theorem timed_waited (p : Performance) (d : Duration) : Timed [.wait d] p (p.waited d) := by
  refine ⟨?_, ?_⟩
  · rw [millisOf_cons, millis_wait, millisOf_nil, Nat.add_zero]
    rfl
  · rw [Performance.channel_waited]
    exact (List.append_nil _).symm

/-- **A move takes one step**, and the time of this step. -/
theorem Move.timed {m m' : Moment} (h : Move m m') :
    ∃ step, m.1 = step :: m'.1 ∧ Timed [step] m.2 m'.2 := by
  cases h with
  | checkpoint _ => exact ⟨_, rfl, rfl, (List.append_nil _).symm⟩
  | note => exact ⟨_, rfl, rfl, (List.append_nil _).symm⟩
  | interlock => exact ⟨_, rfl, rfl, (List.append_nil _).symm⟩
  | publish others => exact ⟨_, rfl, (timed_send _ _).of_undisturbed others⟩
  | wait others => exact ⟨_, rfl, (timed_waited _ _).of_undisturbed others⟩
  | done => exact ⟨_, rfl, rfl, (List.append_nil _).symm⟩

/-- **The clock of a run** shows the time of the steps that it has taken. -/
theorem Course.timed {m m' : Moment} (h : Course m m') {taken : List Step}
    (htaken : m.1 = taken ++ m'.1) : Timed taken m.2 m'.2 := by
  induction h using Relation.ReflTransGen.head_induction_on generalizing taken with
  | refl =>
    obtain rfl : taken = [] := List.self_eq_append_left.mp htaken
    exact .nil _
  | head hm hcourse ih =>
    obtain ⟨step, hstep, htimed⟩ := hm.timed
    obtain ⟨rest, hrest, -, -⟩ := Course.effect hcourse
    rw [hstep, hrest, ← List.cons_append] at htaken
    obtain rfl := List.append_cancel_right htaken
    exact htimed.append (ih hrest)

end Choreo
