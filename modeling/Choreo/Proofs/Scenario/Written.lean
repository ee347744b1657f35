import Choreo.Proofs.Toml.Reading
import Choreo.Scenario.Basic

/-! # Scenarios in files

What each key of a scenario sets, and to what, is said here without the readers (`Scenario.Sets`, and
`Timing.Sets` for the timing in it). A text has the scenario of its key `scenario`, or the one that
expects nothing if it has no such key (`Scenario.Written`); the scenario that is read from a text is
the one that it has (`ofText_eq_ok_iff`). -/

namespace Choreo

open Toml

/-! ### The timing -/

namespace Timing

/-- The keys of a timing in the order of its fields. -/
def keys : List String :=
  ["arm_actuation_ms", "arm_settle_ms", "repeat_pause_ms", "safety_interlock_ms", "tick_ms",
    "angular_speed", "drivetrain_correction"]

/-- What the value of a key makes of a timing. -/
inductive Sets (t : Timing) : String → Value → Timing → Prop where
  | armActuation {v : Value} {n : ℕ} (h : v.Is (.integer n)) :
    t.Sets "arm_actuation_ms" v { t with armActuation := n }
  | armSettle {v : Value} {n : ℕ} (h : v.Is (.integer n)) :
    t.Sets "arm_settle_ms" v { t with armSettle := n }
  | repeatPause {v : Value} {n : ℕ} (h : v.Is (.integer n)) :
    t.Sets "repeat_pause_ms" v { t with repeatPause := n }
  | safetyInterlock {v : Value} {n : ℕ} (h : v.Is (.integer n)) :
    t.Sets "safety_interlock_ms" v { t with safetyInterlock := n }
  | tick {v : Value} {n : ℕ} (h : v.Is (.integer n)) : t.Sets "tick_ms" v { t with tick := n }
  | angularSpeed {v : Value} {x : Float} (h : v.IsNumber x) :
    t.Sets "angular_speed" v { t with angularSpeed := x }
  | drivetrainCorrection {v : Value} {x : Float} (h : v.IsNumber x) :
    t.Sets "drivetrain_correction" v { t with drivetrainCorrection := x }

/-- The value is a record of the timing; what it does not set keeps its default. -/
def IsWritten (t : Timing) (v : Value) : Prop := ∃ es, v.Gives keys es ∧ Fills Sets {} es t

end Timing

theorem TimingFile.means_form : TimingFile.form.Means Timing.Sets := by
  refine ⟨by decide, fun _ => rfl, fun span t name v t' => ?_⟩
  simp only [form, fields, RecordField.of, List.mem_cons, List.not_mem_nil, or_false,
    exists_eq_or_imp, exists_eq_left, map_eq_ok, readNat_eq_ok_iff, readFloatValue_eq_ok_iff]
  constructor
  · rintro (h | h | h | h | h | h | h) <;> simpa using h
  · rintro (⟨rfl, n, h, rfl⟩ | ⟨rfl, n, h, rfl⟩ | ⟨rfl, n, h, rfl⟩ | ⟨rfl, n, h, rfl⟩ |
      ⟨rfl, n, h, rfl⟩ | ⟨rfl, x, h, rfl⟩ | ⟨rfl, x, h, rfl⟩)
    · exact .armActuation h
    · exact .armSettle h
    · exact .repeatPause h
    · exact .safetyInterlock h
    · exact .tick h
    · exact .angularSpeed h
    · exact .drivetrainCorrection h

theorem TimingFile.read_eq_ok_iff {keySpan : Span} {v : Value} {t : Timing} :
    TimingFile.read keySpan v = .ok t ↔ t.IsWritten v :=
  TimingFile.means_form.read_eq_ok_iff

/-! ### The scenario -/

namespace Scenario

/-- The keys of a scenario in the order of its fields. -/
def keys : List String :=
  ["description", "disconnected", "cancel_after", "timing", "expect_commands", "expect_count",
    "expect_outcome", "expect_interlocks", "expect_elapsed_ms", "elapsed_tolerance_ms",
    "expect_error", "expect_parse_error"]

/-- What the value of a key makes of a scenario. -/
inductive Sets (s : Scenario) : String → Value → Scenario → Prop where
  | description {v : Value} {x : String} (h : v.Is (.text x)) :
    s.Sets "description" v { s with description := some x }
  | disconnected {v : Value} {b : Bool} (h : v.Is (.boolean b)) :
    s.Sets "disconnected" v { s with disconnected := b }
  | cancelAfter {v : Value} {n : ℕ} (h : v.Is (.integer n)) :
    s.Sets "cancel_after" v { s with cancelAfter := some n }
  | timing {v : Value} {t : Timing} (h : t.IsWritten v) : s.Sets "timing" v { s with timing := t }
  | commands {v : Value} {xs : List String} (h : v.IsTexts xs) :
    s.Sets "expect_commands" v { s with expectCommands := some xs }
  | count {v : Value} {n : ℕ} (h : v.Is (.integer n)) :
    s.Sets "expect_count" v { s with expectCount := some n }
  | outcome {v : Value} {x : String} (h : v.Is (.text x)) :
    s.Sets "expect_outcome" v { s with expectOutcome := some x }
  | interlocks {v : Value} {n : ℕ} (h : v.Is (.integer n)) :
    s.Sets "expect_interlocks" v { s with expectInterlocks := some n }
  | elapsed {v : Value} {n : ℕ} (h : v.Is (.integer n)) :
    s.Sets "expect_elapsed_ms" v { s with expectElapsed := some n }
  | tolerance {v : Value} {n : ℕ} (h : v.Is (.integer n)) :
    s.Sets "elapsed_tolerance_ms" v { s with elapsedTolerance := some n }
  | error {v : Value} {x : String} (h : v.Is (.text x)) :
    s.Sets "expect_error" v { s with expectError := some x }
  | parseError {v : Value} {b : Bool} (h : v.Is (.boolean b)) :
    s.Sets "expect_parse_error" v { s with expectParseError := b }

/-- The text is a document with the scenario. Where the document says nothing, the program is run
over a connected channel with the default timing, and nothing is expected of the run. -/
inductive Written (text : String) : Scenario → Prop where
  | absent {document : Table Value} (hread : Toml.read? text = some document)
      (hvalue : document.get? "scenario" = none) : Written text {}
  | given {document : Table Value} {v : Value} {es : List (String × Value)} {s : Scenario}
      (hread : Toml.read? text = some document) (hvalue : document.get? "scenario" = some v)
      (hgives : v.Gives keys es) (hfills : Fills Sets {} es s) : Written text s

end Scenario

theorem ScenarioFile.means_form : ScenarioFile.form.Means Scenario.Sets := by
  refine ⟨by decide, fun _ => rfl, fun span s name v s' => ?_⟩
  simp only [form, fields, RecordField.of, List.mem_cons, List.not_mem_nil, or_false,
    exists_eq_or_imp, exists_eq_left, map_eq_ok, readNat_eq_ok_iff, readText_eq_ok_iff,
    readBoolean_eq_ok_iff, readTexts_eq_ok_iff, TimingFile.read_eq_ok_iff]
  constructor
  · rintro (h | h | h | h | h | h | h | h | h | h | h | h) <;> simpa using h
  · rintro (⟨rfl, x, h, rfl⟩ | ⟨rfl, b, h, rfl⟩ | ⟨rfl, n, h, rfl⟩ | ⟨rfl, t, h, rfl⟩ |
      ⟨rfl, xs, h, rfl⟩ | ⟨rfl, n, h, rfl⟩ | ⟨rfl, x, h, rfl⟩ | ⟨rfl, n, h, rfl⟩ |
      ⟨rfl, n, h, rfl⟩ | ⟨rfl, n, h, rfl⟩ | ⟨rfl, x, h, rfl⟩ | ⟨rfl, b, h, rfl⟩)
    · exact .description h
    · exact .disconnected h
    · exact .cancelAfter h
    · exact .timing h
    · exact .commands h
    · exact .count h
    · exact .outcome h
    · exact .interlocks h
    · exact .elapsed h
    · exact .tolerance h
    · exact .error h
    · exact .parseError h

namespace Scenario

/-- **The scenario that is read from a text is the one that it has.** -/
theorem ofText_eq_ok_iff {text : String} {s : Scenario} : ofText text = .ok s ↔ Written text s := by
  have hof : ofText text = .ok s ↔ ∃ document, Toml.read? text = some document ∧
      ∃ found, readUnder document "scenario" (ScenarioFile.form.read {}) = .ok found ∧
        found.getD {} = s := by
    rw [ofText]
    rcases Toml.read? text with _ | document
    · simp
    · simp [bind_eq_ok, mapError_eq_ok, pure, Except.pure]
  have hform : ∀ span v s, ScenarioFile.form.read {} span v = .ok s ↔
      ∃ es, v.Gives keys es ∧ Fills Sets {} es s := fun _ _ _ =>
    ScenarioFile.means_form.read_eq_ok_iff
  simp only [hof, readUnder_eq_ok_iff hform]
  constructor
  · rintro ⟨document, hread, found, ⟨hvalue, rfl⟩ | ⟨v, s, hvalue, ⟨es, hgives, hfills⟩, rfl⟩, rfl⟩
    · exact .absent hread hvalue
    · exact .given hread hvalue hgives hfills
  · rintro (⟨hread, hvalue⟩ | ⟨hread, hvalue, hgives, hfills⟩)
    · exact ⟨_, hread, none, .inl ⟨hvalue, rfl⟩, rfl⟩
    · exact ⟨_, hread, some s, .inr ⟨_, _, hvalue, ⟨_, hgives, hfills⟩, rfl⟩, rfl⟩

end Scenario

end Choreo
