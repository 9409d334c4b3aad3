import PlanarMath.Diagnostic
import PlanarMath.Fault
import PlanarMath.Json.Writer

/-!
# Traces

A trace is a text of one event a line, each a JSON value in compact form, that only ever grows.  The
identity and the time of an event come from outside; they are the event's stamp.

    append     an integer is too long     the trace is closed     otherwise
               fails                      fails                   one line more
-/

namespace PlanarMath.Trace

/-- What tells one event from another: an identity and a time. -/
structure Stamp where
  id : String
  time : String
  deriving DecidableEq, Repr

/-- An event of a kind, with a message and perhaps data. -/
def event (stamp : Stamp) (kind message : String) (data : Json) : Json :=
  .object [("event_id", .text stamp.id), ("ts", .text stamp.time), ("kind", .text kind),
    ("message", .text message), ("data", data)]

/-- The event that reports a diagnostic. -/
def ofDiagnostic (stamp : Stamp) (d : Diagnostic) : Json :=
  event stamp "diagnostic" d.complaint.message d.toJson

/-- The line of an event, with the line break that ends it. -/
def line (event : Json) : String := Json.toText Json.compact event ++ "\n"

/-- A trace to which one line for each event was added. -/
def extend (content : String) (events : List Json) : String := content ++ String.join (events.map line)

/-- A trace in the course of being written. -/
structure Writer where
  content : String
  isOpen : Bool
  deriving DecidableEq, Repr

namespace Writer

/-- Writing on after what a file holds. -/
def start (content : String) : Writer := ⟨content, true⟩

/-- The trace with one event more.  The text of the event comes first, and then the trace has to be open. -/
def append (w : Writer) (event : Json) : Except Fault Writer :=
  match Json.toText? Json.compact event with
  | none => .error .tooManyDigits
  | some text => if w.isOpen then .ok { w with content := w.content ++ text ++ "\n" } else .error .closedTrace

/-- The trace, which takes no more events. -/
def close (w : Writer) : Writer := { w with isOpen := false }

/-- The trace after several events, one after another, were to be appended, and what came of each. -/
def appendEach (w : Writer) : List Json → Writer × List (Except Fault Unit)
  | [] => (w, [])
  | e :: es => match w.append e with
    | .error f => ((w.appendEach es).1, .error f :: (w.appendEach es).2)
    | .ok w => ((w.appendEach es).1, .ok () :: (w.appendEach es).2)

end Writer

/-- A file after a trace was opened on it, given events, and closed, with what came of each event. -/
def session (content : String) (events : List Json) : Writer × List (Except Fault Unit) :=
  let (w, answers) := (Writer.start content).appendEach events
  (w.close, answers)

/-- A file after each of several such uses. -/
def sessions (content : String) : List (List Json) → List (Writer × List (Except Fault Unit))
  | [] => []
  | events :: rest => session content events :: sessions (session content events).1.content rest

/-! ## Lemmas -/

theorem extend_append (content : String) (xs ys : List Json) :
    extend content (xs ++ ys) = extend (extend content xs) ys := by
  rw [extend, extend, extend, List.map_append, String.join_append, String.append_assoc]

theorem extend_nil (content : String) : extend content [] = content := String.append_empty

/-- An event is appended as one line, unless an integer in it is too long or the trace is closed. -/
theorem Writer.append_eq (w : Writer) (event : Json) : w.append event =
    if event.isShort then
      if w.isOpen then .ok { w with content := extend w.content [event] } else .error .closedTrace
    else .error .tooManyDigits := by
  have hextend : w.content ++ Json.toText Json.compact event ++ "\n" = extend w.content [event] := by
    simp [extend, line, String.append_assoc]
  unfold append Json.toText?
  split
  · next hnone =>
    split at hnone
    · cases hnone
    · next hlong => rw [if_neg hlong]
  · next text hsome =>
    split at hsome
    · next hshort =>
      cases hsome
      rw [if_pos hshort, hextend]
    · cases hsome

end PlanarMath.Trace
