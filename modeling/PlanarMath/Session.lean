import PlanarMath.Reading
import PlanarMath.Trace

/-!
# Sessions

A session reads one thing after another and keeps a log of all complaints, which may be traced as it
grows.  What is read depends on the options alone: a session only ever adds to its log.  An operation whose
complaints cannot all be reported fails, with the log as it is then.
-/

namespace PlanarMath

/-! ## The log -/

/-- The complaints so far, and the trace when there is one. -/
structure Log where
  entries : List Diagnostic := []
  trace? : Option Trace.Writer := none
  deriving DecidableEq, Repr

namespace Log

variable (stamp : Nat → Trace.Stamp)

/-- The log after a complaint was reported to it, and what came of that.  A complaint is worded first, then entered,
and then traced, and stays entered where the trace does not take it; its event is stamped by its place in the log. -/
def report (log : Log) (d : Diagnostic) : Log × Except Fault Unit :=
  if d.complaint.isWordable then
    let entered := { log with entries := log.entries ++ [d] }
    match log.trace? with
    | none => (entered, .ok ())
    | some w => match w.append (Trace.ofDiagnostic (stamp log.entries.length) d) with
      | .error f => (entered, .error f)
      | .ok w => ({ entered with trace? := some w }, .ok ())
  else (log, .error .tooManyDigits)

/-- The log after several complaints were reported to it, up to the first that fails. -/
def reportAll (log : Log) : List Diagnostic → Log × Except Fault Unit
  | [] => (log, .ok ())
  | d :: ds => match log.report stamp d with
    | (log, .error f) => (log, .error f)
    | (log, .ok ()) => log.reportAll ds

end Log

/-! ## Results -/

/-- The expression of a layout, with what was found in it. -/
structure Result where
  expr : Expr
  diagnostics : List Diagnostic
  deriving DecidableEq, Repr

namespace Result

/-- Whether a layout was read without complaint. -/
def isOk (r : Result) : Bool := r.diagnostics.isEmpty

/-- The status of a result. -/
def status (r : Result) : String := if r.isOk then "ok" else "error"

/-- The report of a reading as a result of its own. -/
def ofReport (r : Report Placed) : Report Result := r.map fun e => ⟨e.expr, r.found⟩

end Result

/-! ## Calls -/

/-- Something that a session can be asked to read. -/
inductive Call where
  /-- A layout as a whole. -/
  | layout (r : Layout.Row)
  /-- A row from an index on, as an expression. -/
  | expression (base : Int) (r : Layout.Row)
  /-- A row from an index on, as a group. -/
  | group (base : Int) (r : Layout.Row)
  /-- A row from an index on, as tokens. -/
  | tokens (base : Int) (r : Layout.Row)

/-- What a call gives. -/
inductive Answer where
  | expression (e : Expr)
  | tokens (marks : List Mark)
  deriving DecidableEq, Repr

/-- The report of a call, which depends on the options alone. -/
def Call.report (o : Options) : Call → Report Answer
  | layout r => (readLayout o r).map fun e => .expression e.expr
  | expression base r => (Reading.expressionAt o base r).map fun e => .expression e.expr
  | group base r => (Reading.groupAt o base r).map fun e => .expression e.expr
  | tokens base r => (Reading.marksAt o base r).map .tokens

/-- Options and a log for one call after another. -/
structure Session where
  options : Options
  log : Log
  stamp : Nat → Trace.Stamp

namespace Session

/-- The session after an operation that found something, with its result; an operation ends where a complaint cannot
be reported. -/
def record {α : Type} (s : Session) (r : Report α) : Session × Except Fault α :=
  match s.log.reportAll s.stamp r.found with
  | (log, .error f) => ({ s with log }, .error f)
  | (log, .ok ()) => ({ s with log }, r.result)

/-- The session after a call, with its answer. -/
def call (s : Session) (c : Call) : Session × Except Fault Answer := s.record (c.report s.options)

/-- The session after several calls, with their answers. -/
def callAll (s : Session) : List Call → Session × List (Except Fault Answer)
  | [] => (s, [])
  | c :: cs =>
    let (s, answer) := s.call c
    let (s, answers) := s.callAll cs
    (s, answer :: answers)

end Session

end PlanarMath
