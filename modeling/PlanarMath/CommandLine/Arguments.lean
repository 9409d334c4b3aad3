import PlanarMath.Number.Literal

/-!
# Command-line arguments

    [path | --text TEXT] [--format json|sexpr|text] [--functions FILE] [--max-depth N] [--trace FILE]

A long option may be cut short as long as it is the only one that starts so, and its value may follow
in the next argument or after an equals sign.  An argument that starts with a minus sign is no value,
unless it reads as a negative number, holds a space or is the sign alone; after `--` everything is a
value.  Exactly one of the path and the text is given.  Of an option given twice the last value counts.

An option with the mark `--` after its equals sign is given without a value: `--text=--` is a source
that holds nothing, `--format=--` is the usual notation, `--functions=--` and `--trace=--` take back
what was named before, and `--max-depth=--` is a limit that no depth can be compared with.
-/

namespace PlanarMath.CommandLine

/-- How the result is written. -/
inductive Format where
  | json
  | sexpr
  | text
  deriving DecidableEq, Repr

/-- The format of a name. -/
def Format.ofText? : String → Option Format
  | "json" => some .json
  | "sexpr" => some .sexpr
  | "text" => some .text
  | _ => none

/-- Where the layout comes from. -/
inductive Source where
  | path (path : String)
  /-- Text that is given as it is, or nothing in its place. -/
  | text (text? : Option String)
  deriving DecidableEq, Repr

/-- How deep constructs may be nested. -/
inductive DepthLimit where
  | unlimited
  | atMost (depth : Int)
  /-- A limit without a value, which no depth can be compared with. -/
  | blank
  deriving DecidableEq, Repr

/-- What a run is asked to do. -/
structure Arguments where
  source : Source
  format : Format
  functions? : Option String
  limit : DepthLimit
  trace? : Option String
  deriving DecidableEq, Repr

/-- Why arguments ask for no run. -/
inductive Refusal where
  /-- Help is asked for. -/
  | help
  /-- The arguments make no sense. -/
  | usage
  deriving DecidableEq, Repr

/-! ## Single arguments -/

/-- An option of the command. -/
inductive Flag where
  | help
  | text
  | format
  | functions
  | maxDepth
  | trace
  deriving DecidableEq, Repr

/-- The long options and their names. -/
def longFlags : List (List Char × Flag) :=
  [("--help".toList, .help), ("--text".toList, .text), ("--format".toList, .format),
   ("--functions".toList, .functions), ("--max-depth".toList, .maxDepth),
   ("--trace".toList, .trace)]

/-- An argument by itself. -/
inductive Argument where
  | value (s : String)
  /-- An option, with what follows its equals sign. -/
  | option (flag : Flag) (attached? : Option String)
  /-- The short option for help, with what follows it at once. -/
  | shortHelp (attached : List Char)
  /-- Something that looks like an option and is none. -/
  | unknown
  /-- The mark after which everything is a value. -/
  | separator
  deriving DecidableEq, Repr

/-- Whether a text is a minus sign, digits, and perhaps a point before the last of them. -/
def isNegativeNumber (cs : List Char) : Bool :=
  let isDigit (c : Char) := (Text.decimalDigit? c).isSome
  let cs := if cs.getLast? = some '\n' then cs.dropLast else cs
  match cs with
  | '-' :: body =>
    let rest := body.dropWhile isDigit
    match rest with
    | [] => !body.isEmpty
    | '.' :: fraction => !fraction.isEmpty && fraction.all isDigit
    | _ => false
  | _ => false

/-- An argument that starts with a minus sign and is no option. -/
def valueOrUnknown (cs : List Char) : Argument :=
  if isNegativeNumber cs || cs.contains ' ' then .value (String.ofList cs) else .unknown

/-- A long option, in full or cut short, with what follows an equals sign. -/
def longArgument (cs : List Char) : Except Refusal Argument :=
  let name := cs.takeWhile (· != '=')
  let attached? := if cs.contains '=' then some (String.ofList (cs.drop (name.length + 1))) else none
  match longFlags.lookup cs with
  | some flag => .ok (.option flag none)
  | none =>
    match longFlags.lookup name with
    | some flag => .ok (.option flag attached?)
    | none =>
      match longFlags.filter fun f => name.isPrefixOf f.1 with
      | [] => .ok (valueOrUnknown cs)
      | [f] => .ok (.option f.2 attached?)
      | _ => .error .usage

/-- An argument before any separator. -/
def classify (s : String) : Except Refusal Argument :=
  match s.toList with
  | ['-', '-'] => .ok .separator
  | '-' :: '-' :: rest => longArgument ('-' :: '-' :: rest)
  | '-' :: 'h' :: rest => .ok (.shortHelp rest)
  | '-' :: c :: rest => .ok (valueOrUnknown ('-' :: c :: rest))
  | _ => .ok (.value s)

/-- All arguments by themselves. -/
def classifyAll : List String → Except Refusal (List Argument)
  | [] => .ok []
  | s :: ss =>
    match classify s with
    | .error r => .error r
    | .ok .separator => .ok (.separator :: ss.map .value)
    | .ok a => (classifyAll ss).map (a :: ·)

/-- Whether what follows the short option for help, perhaps after an equals sign, only asks for help
again. -/
def repeatsHelp : List Char → Bool
  | ['='] => false
  | '=' :: letters | letters => letters.all (· == 'h')

/-! ## Arguments together -/

/-- What the arguments so far ask for. -/
structure Request where
  /-- The place of the path was taken, perhaps by nothing. -/
  isPlaceTaken : Bool := false
  source? : Option Source := none
  format : Format := .json
  functions? : Option String := none
  limit : DepthLimit := .unlimited
  trace? : Option String := none
  /-- There was an argument that nothing takes. -/
  hasSurplus : Bool := false
  deriving DecidableEq, Repr

/-- What an option is given by a text after its equals sign; the mark `--` gives nothing. -/
def attachedValue? (s : String) : Option String := if s = "--" then none else some s

namespace Request

/-- The request with a path, which excludes a text. -/
def withPath (r : Request) (path : String) : Except Refusal Request :=
  match r.source? with
  | some (.text _) => .error .usage
  | _ => .ok { r with isPlaceTaken := true, source? := some (.path path) }

/-- The request with a text or nothing in its place, which excludes a path. -/
def withText (r : Request) (text? : Option String) : Except Refusal Request :=
  match r.source? with
  | some (.path _) => .error .usage
  | _ => .ok { r with source? := some (.text text?) }

/-- The request with the value of an option, or with the option given without one. -/
def withOption (r : Request) : Flag → Option String → Except Refusal Request
  | .help, _ => .error .usage
  | .text, text? => r.withText text?
  | .format, none => .ok { r with format := .text }
  | .format, some s => match Format.ofText? s with
    | some f => .ok { r with format := f }
    | none => .error .usage
  | .functions, path? => .ok { r with functions? := path? }
  | .maxDepth, none => .ok { r with limit := .blank }
  | .maxDepth, some s => match Literal.integer? s with
    | some n => .ok { r with limit := .atMost n }
    | none => .error .usage
  | .trace, path? => .ok { r with trace? := path? }

/-- The request after a list of arguments. -/
def after (r : Request) : List Argument → Except Refusal Request
  | [] => .ok r
  | .option .help none :: _ => .error .help
  | .shortHelp attached :: _ => .error (if repeatsHelp attached then .help else .usage)
  | .option flag (some s) :: rest => match r.withOption flag (attachedValue? s) with
    | .ok r => r.after rest
    | .error e => .error e
  | .option flag none :: .value s :: rest => match r.withOption flag (some s) with
    | .ok r => r.after rest
    | .error e => .error e
  | .option _ none :: _ => .error .usage
  | .unknown :: rest => after { r with hasSurplus := true } rest
  | .value s :: .separator :: rest =>
    if r.isPlaceTaken then after { r with hasSurplus := true } (.separator :: rest)
    else match r.withPath s with
      | .ok r => r.after rest
      | .error e => .error e
  | .separator :: .value s :: rest =>
    if r.isPlaceTaken then after { r with hasSurplus := true } rest
    else match r.withPath s with
      | .ok r => r.after rest
      | .error e => .error e
  | .value s :: rest =>
    if r.isPlaceTaken then after { r with hasSurplus := true } rest
    else match r.withPath s with
      | .ok r => r.after rest
      | .error e => .error e
  | .separator :: rest =>
    after { r with isPlaceTaken := true, hasSurplus := r.hasSurplus || r.isPlaceTaken } rest

/-- The arguments of a request in which nothing is missing or left over. -/
def finish (r : Request) : Except Refusal Arguments :=
  match r.source? with
  | none => .error .usage
  | some source =>
    if r.hasSurplus then .error .usage
    else .ok ⟨source, r.format, r.functions?, r.limit, r.trace?⟩

end Request

/-- What a list of arguments asks for. -/
def Arguments.ofList (args : List String) : Except Refusal Arguments :=
  match classifyAll args with
  | .error e => .error e
  | .ok args =>
    match Request.after {} args with
    | .error e => .error e
    | .ok r => r.finish

end PlanarMath.CommandLine
