import PlanarMath.CommandLine.Arguments
import PlanarMath.CommandLine.Files
import PlanarMath.Expr.Display
import PlanarMath.Expr.Record
import PlanarMath.Expr.Sexpr
import PlanarMath.FunctionTable.File
import PlanarMath.Layout.Record
import PlanarMath.Session

/-!
# Running the command

A run reads a layout and perhaps a function table, reads the expression of the layout, and reports it.
What it needs is read before the trace is opened, so a run that fails there leaves every file as it was.
Opening the trace makes the directories above it, and these stay when the opening fails after all.  A
run that gets to its report adds to the trace one line for each complaint that it reports; where reading is
stopped by a fault, the complaints until then are in the trace.
-/

namespace PlanarMath.CommandLine

/-- Why a run has nothing to report. -/
inductive Failure where
  | file (e : FileError)
  | unreadable (e : Json.ReadError)
  | invalidLayout (issues : List Schema.Issue)
  | invalidTable (e : WordTable.FileError)
  | fault (f : Fault)
  /-- A depth was to be compared with a limit that has no value. -/
  | blankLimit
  deriving DecidableEq, Repr

/-- How many faults a record of a kind has. -/
def countMessage (record : String) (issues : List Schema.Issue) : String :=
  String.ofList (Text.decimal issues.length) ++
    (if issues.length = 1 then " validation error for " else " validation errors for ") ++ record

/-- The wording of why a text cannot be read. -/
def readMessage : Json.ReadError → String
  | .malformed => "the text is not JSON"
  | .tooManyDigits count =>
    "Exceeds the limit (" ++ String.ofList (Text.decimal Literal.digitLimit) ++
      " digits) for integer string conversion: value has " ++ String.ofList (Text.decimal count) ++
      " digits; use sys.set_int_max_str_digits() to increase the limit"

/-- The wording of a failure. -/
def Failure.message : Failure → String
  | .file e => e.message
  | .unreadable e => readMessage e
  | .invalidLayout issues => countMessage "Container" issues
  | .invalidTable (.unreadable e) => readMessage e
  | .invalidTable e => e.message
  | .fault (.invalid issues) => countMessage "Symbol" issues
  | .fault .missingRange => "a range is missing"
  | .fault (.broken condition) => condition.message
  | .fault .tooManyDigits =>
    "Exceeds the limit (" ++ String.ofList (Text.decimal Literal.digitLimit) ++
      " digits) for integer string conversion; use sys.set_int_max_str_digits() to increase the limit"
  | .fault .closedTrace => "I/O operation on closed file."
  | .blankLimit => "'>=' not supported between instances of 'int' and 'list'"

/-- How a run ends. -/
inductive Outcome where
  /-- The arguments ask for no run. -/
  | refused (r : Refusal)
  | failed (e : Failure)
  | finished (format : Format) (result : Result)

namespace Outcome

/-- The number that a run ends with. -/
def code : Outcome → Nat
  | refused .help => 0
  | refused .usage => 2
  | failed _ => 1
  | finished _ result => if result.isOk then 0 else 1

/-- The report of a result as one JSON record. -/
def record (result : Result) : Json :=
  .object [("status", .text result.status), ("node", result.expr.toJson),
    ("diagnostics", .array (result.diagnostics.map Diagnostic.toJson))]

/-- A report of one line for the expression and one for each complaint. -/
def lines (expr : String) (result : Result) : String :=
  String.join ((expr :: result.diagnostics.map Diagnostic.line).map (· ++ "\n"))

/-- What a run prints. -/
def output : Outcome → String
  | refused _ => ""
  | failed e => "ERROR: " ++ e.message ++ "\n"
  | finished .json result => Json.toText Json.spaced (record result) ++ "\n"
  | finished .sexpr result => lines result.expr.sexpr result
  | finished .text result => lines result.expr.display result

end Outcome

/-- The layout that a run is asked to read; nothing, and the empty path, stand for no layout. -/
def loadLayout (files : Files) : Source → Except Failure Layout.Row
  | .text (some s) => .ok (Layout.Row.ofString s)
  | .text none | .path "" => .error (.invalidLayout [⟨[.key "children", .index 0], .notTagged⟩])
  | .path path =>
    match files.read path with
    | .error e => .error (.file e)
    | .ok content => match Layout.Row.ofText content with
      | .ok r => .ok r
      | .error (.unreadable e) => .error (.unreadable e)
      | .error (.invalid issues) => .error (.invalidLayout issues)

/-- The function table of a run; the empty name stands for the standard one. -/
def loadTable (files : Files) : Option String → Except Failure FunctionTable
  | none | some "" => .ok .standard
  | some path =>
    match files.read path with
    | .error e => .error (.file e)
    | .ok content => (FunctionTable.ofText content).mapError .invalidTable

/-- The file that a run traces its complaints in: where it is, and what it holds already. -/
structure TraceFile where
  place : Path
  content : String
  deriving DecidableEq, Repr

/-- The files after the trace of a run was to be opened, and the trace, if it could be; the empty name
stands for no trace. -/
def openTrace (files : Files) : Option String → Files × Except FileError (Option TraceFile)
  | none | some "" => (files, .ok none)
  | some path => match files.openToAdd path with
    | (files, .error e) => (files, .error e)
    | (files, .ok (place, content)) => (files, .ok (some ⟨place, content⟩))

/-- The files after the log of a run was written to its trace. -/
def writeTrace (files : Files) (log : Log) : Option TraceFile → Files
  | none => files
  | some trace => files.insert trace.place (.file ((log.trace?.map Trace.Writer.content).getD trace.content))

/-- The limit for reading a row.  One without a value will do as long as there is no construct. -/
def limitFor (row : Layout.Row) : DepthLimit → Except Failure (Option Int)
  | .unlimited => .ok none
  | .atMost depth => .ok (some depth)
  | .blank => if row.all Layout.Element.isGlyph then .ok none else .error .blankLimit

/-- The session of a run, with a log that is traced where there is a trace. -/
def sessionOf (stamp : Nat → Trace.Stamp) (o : Options) (trace? : Option TraceFile) : Session :=
  ⟨o, { trace? := trace?.map (.start ·.content) }, stamp⟩

/-- The end of a run that has all it needs: the layout is read, and what is found on the way is traced. -/
def readAndReport (stamp : Nat → Trace.Stamp) (format : Format) (o : Options) (row : Layout.Row) (files : Files)
    (trace? : Option TraceFile) : Outcome × Files :=
  let (session, result) := (sessionOf stamp o trace?).record (Result.ofReport (readLayout o row))
  let outcome := match result with
    | .error f => .failed (.fault f)
    | .ok result => .finished format result
  (outcome, writeTrace files session.log trace?)

/-- A run, with the files after it. -/
def runWith (stamp : Nat → Trace.Stamp) (a : Arguments) (files : Files) : Outcome × Files :=
  match loadLayout files a.source with
  | .error e => (.failed e, files)
  | .ok row =>
    match loadTable files a.functions? with
    | .error e => (.failed e, files)
    | .ok functions =>
      match openTrace files a.trace? with
      | (files, .error e) => (.failed (.file e), files)
      | (files, .ok trace?) =>
        match limitFor row a.limit with
        | .error e => (.failed e, files)
        | .ok limit? => readAndReport stamp a.format { functions, limit? } row files trace?

/-- A run with arguments as they are given. -/
def run (stamp : Nat → Trace.Stamp) (args : List String) (files : Files) : Outcome × Files :=
  match Arguments.ofList args with
  | .error r => (.refused r, files)
  | .ok a => runWith stamp a files

/-- Runs one after another on the same files. -/
def runAll (stamp : Nat → Trace.Stamp) : List (List String) → Files → List Outcome × Files
  | [], files => ([], files)
  | args :: rest, files =>
    let (outcome, files) := run stamp args files
    let (outcomes, files) := runAll stamp rest files
    (outcome :: outcomes, files)

end PlanarMath.CommandLine
