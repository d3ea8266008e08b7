import ByteMachine.Clock.Report
import ByteMachine.Fault
import ByteMachine.Listing
import ByteMachine.Log.Severity

/-!
# Log records

A record says what happened, as data; its severity and its text follow from
that.

**Results.**
* `mem_note`: a noted record is kept exactly when its severity is admitted.
* `note_eq_keep`: what is kept at a verbosity is what is left of the full log
  once the records it does not admit are struck out.
-/

namespace ByteMachine

/-- An event that is written to the log. -/
inductive Record
  /-- An instruction is about to be executed. -/
  | traced (line : Line)
  | faulted (e : DecodeFault)
  | halted (pc : UInt8)
  | started (pc : UInt8)
  | stopped (pc : UInt8)
  | finished (r : Clock.Report)
  | printed (x : UInt8)
  deriving DecidableEq

namespace Record

def severity : Record → Severity
  | traced _ => .trace
  | faulted _ => .error
  | halted _ | started _ | stopped _ | finished _ => .debug
  | printed _ => .info

def message : Record → String
  | traced line => Hex.byte line.address ++ ": " ++ line.text
  | faulted e => e.message
  | halted pc => "halted at PC " ++ Hex.byte pc
  | started pc => "clock started at PC " ++ Hex.byte pc
  | stopped pc => "clock stopped at PC " ++ Hex.byte pc
  | finished r => "clock run finished: " ++ r.text
  | printed x => Nat.repr x.toNat

/-- A record as it is shown: the name of its severity and its text. -/
def text (r : Record) : String :=
  r.severity.name ++ " " ++ r.message

end Record

namespace Verbosity

section

variable (v : Verbosity)

/-- The log of a single event: the record if it is kept, else nothing. -/
def note (r : Record) : List Record :=
  if v.admits r.severity then [r] else []

/-- The records of a full log that are kept. -/
def keep (log : List Record) : List Record :=
  log.filter fun r => v.admits r.severity

theorem mem_note {r s : Record} :
    s ∈ v.note r ↔ s = r ∧ v.admits r.severity = true := by
  by_cases h : v.admits r.severity = true
  · simp [note, h]
  · simp [note, h]

@[simp]
theorem note_off (r : Record) : off.note r = [] := rfl

@[simp]
theorem note_upTo_trace (r : Record) : (upTo .trace).note r = [r] := by
  simp [note, admits_upTo_trace]

theorem note_eq_keep (r : Record) : v.note r = v.keep [r] := by
  by_cases h : v.admits r.severity = true
  · simp [note, keep, h]
  · simp [note, keep, h]

/-- A record that is struck out is not there, whether it was kept or not. -/
theorem filter_note_of_false {p : Record → Bool} {r : Record} (h : p r = false) :
    (v.note r).filter p = [] := by
  rw [List.filter_eq_nil_iff]
  intro s hs
  rw [(v.mem_note.1 hs).1, h]
  simp

@[simp]
theorem keep_nil : v.keep [] = [] := rfl

@[simp]
theorem keep_append (a b : List Record) :
    v.keep (a ++ b) = v.keep a ++ v.keep b := by
  simp [keep]

@[simp]
theorem keep_note_upTo_trace (r : Record) :
    v.keep ((upTo .trace).note r) = v.note r := by
  rw [note_upTo_trace, note_eq_keep]

end

end Verbosity
end ByteMachine
