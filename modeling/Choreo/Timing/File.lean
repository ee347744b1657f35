import Choreo.Timing
import Choreo.Toml.Document
import Choreo.Toml.Typed

/-!
# Timing files

A timing file is a TOML document with a record `timing`; fields that are not written keep their
defaults, and what else the document holds is of no concern here. A timing that was read is checked.
-/

namespace Choreo

namespace TimingFile

open Toml

/-- The fields of a timing. -/
def fields : List (RecordField Timing) :=
  [.of "arm_actuation_ms" (readNat .natural) fun t n => { t with armActuation := n },
    .of "arm_settle_ms" (readNat .natural) fun t n => { t with armSettle := n },
    .of "repeat_pause_ms" (readNat .natural) fun t n => { t with repeatPause := n },
    .of "safety_interlock_ms" (readNat .natural) fun t n => { t with safetyInterlock := n },
    .of "tick_ms" (readNat .natural) fun t n => { t with tick := n },
    .of "angular_speed" readFloatValue fun t x => { t with angularSpeed := x },
    .of "drivetrain_correction" readFloatValue fun t x => { t with drivetrainCorrection := x }]

/-- How a timing is written. -/
def form : RecordForm Timing Timing := ⟨"Timing", fields, .ok⟩

/-- Reads a timing, unchecked. -/
def read : Reader Timing := form.read {}

end TimingFile

/-- Why a text is no timing file. -/
inductive TimingLoadError where
  /-- The text is no TOML document. -/
  | malformed
  /-- A value is not what its place asks for. -/
  | misshapen (fault : Toml.Fault)
  /-- The timing cannot be used. -/
  | invalid (fault : TimingFault)

def TimingFault.report (f : TimingFault) : String := s!"invalid timing config: {f.message}"

/-- The timing in a file. -/
def Timing.ofText (text : String) : Except TimingLoadError Timing :=
  match Toml.read? text with
  | none => .error .malformed
  | some document => do
    let timing ← (Toml.readUnder document "timing" TimingFile.read).mapError .misshapen
    let timing := timing.getD {}
    timing.validate.mapError .invalid
    return timing

end Choreo
