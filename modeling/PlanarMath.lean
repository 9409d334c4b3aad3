import PlanarMath.Text.Blank
import PlanarMath.Text.Quoted
import PlanarMath.Number.Basic
import PlanarMath.Json.Writer
import PlanarMath.Json.Reader
import PlanarMath.Range
import PlanarMath.Layout.Index
import PlanarMath.Layout.Record
import PlanarMath.Expr.Record
import PlanarMath.Expr.Sexpr
import PlanarMath.Expr.Display
import PlanarMath.FunctionTable.File
import PlanarMath.Cursor
import PlanarMath.Grammar.Reader
import PlanarMath.Reading
import PlanarMath.Session
import PlanarMath.Transcriber
import PlanarMath.Algebra.Convert
import PlanarMath.CommandLine.Run
import PlanarMath.Reading.Steps
import PlanarMath.Main
import PlanarMath.Proofs.Grammar.Phrases
import PlanarMath.Proofs.Grammar.Completeness
import PlanarMath.Proofs.Grammar.Greedy
import PlanarMath.Proofs.Reading.Elements
import PlanarMath.Proofs.Reading.Rows
import PlanarMath.Proofs.Reading.Acceptance
import PlanarMath.Proofs.Expr.Walk
import PlanarMath.Proofs.Grammar.Kept
import PlanarMath.Proofs.Grammar.Calls
import PlanarMath.Proofs.Grammar.Lookahead
import PlanarMath.Proofs.Grammar.Halts
import PlanarMath.Proofs.Reading.Complaints
import PlanarMath.Proofs.Reading.Total
import PlanarMath.Proofs.CommandLine.Verdict
import PlanarMath.Proofs.Reading.Kept
import PlanarMath.Proofs.Expr.WellFormed
import PlanarMath.Proofs.Reading.Safety
import PlanarMath.Proofs.Text.Legible
import PlanarMath.Proofs.Display.Formula
import PlanarMath.Proofs.Number.Text
import PlanarMath.Proofs.Display.Regular
import PlanarMath.Proofs.Display.Layers
import PlanarMath.Proofs.Display.Decoding
import PlanarMath.Proofs.Display.Legible
import PlanarMath.Proofs.Display.Nesting
import PlanarMath.Proofs.Display.Siblings
import PlanarMath.Proofs.Reading.Display
import PlanarMath.Proofs.Grammar.Located
import PlanarMath.Proofs.Layout.Places
import PlanarMath.Proofs.Token.Merged
import PlanarMath.Proofs.Reading.Located
import PlanarMath.Proofs.Expr.Geometry
import PlanarMath.Proofs.Reading.Geometry
import PlanarMath.Proofs.Number.Magnitude
import PlanarMath.Proofs.Reading.SourceMap
import PlanarMath.Proofs.Token.Longest
import PlanarMath.Proofs.Grammar.Leaves
import PlanarMath.Proofs.Reading.Leaves
import PlanarMath.Proofs.Expr.NormalForm
import PlanarMath.Proofs.Reading.NormalForm
import PlanarMath.Proofs.Reading.Numerals
import PlanarMath.Proofs.Reading.Account
import PlanarMath.Proofs.Reading.ExactPlaces
import PlanarMath.Proofs.Expr.Value
import PlanarMath.Proofs.Grammar.Plain
import PlanarMath.Proofs.Grammar.Agreement
import PlanarMath.Proofs.Grammar.PlainPhrases
import PlanarMath.Proofs.Reading.Meaning
import PlanarMath.Proofs.Layout.Levels
import PlanarMath.Proofs.Reading.Constructs
import PlanarMath.Proofs.Reading.Depth
import PlanarMath.Proofs.Transcriber.Count
import PlanarMath.Proofs.Reading.Hidden
import PlanarMath.Proofs.Transcriber.Levels
import PlanarMath.Proofs.Expr.Relabel
import PlanarMath.Proofs.Token.Relabel
import PlanarMath.Proofs.Grammar.Relabel
import PlanarMath.Proofs.Transcriber.Relabel
import PlanarMath.Proofs.Expr.Shift
import PlanarMath.Proofs.Token.Shift
import PlanarMath.Proofs.Transcriber.Shift
import PlanarMath.Proofs.Json.Characters
import PlanarMath.Proofs.Layout.RoundTrip
import PlanarMath.Proofs.Schema.Faults
import PlanarMath.Proofs.Layout.Faults
import PlanarMath.Proofs.Reading.Records
import PlanarMath.Proofs.Reading.Sexpr
import PlanarMath.Proofs.Reading.Slots
import PlanarMath.Proofs.Transcriber.Aliases
import PlanarMath.Proofs.Token.Respaced
import PlanarMath.Proofs.Token.GreedyNames
import PlanarMath.Proofs.Token.GreedyNumerals
import PlanarMath.Proofs.Transcriber.Spaces
import PlanarMath.Proofs.CommandLine.Files
import PlanarMath.Proofs.Session.Log
import PlanarMath.Proofs.CommandLine.Runs
import PlanarMath.Proofs.Number.Rounding
import PlanarMath.Proofs.Number.Shortest
import PlanarMath.Proofs.Number.Decimal
import PlanarMath.Proofs.Trace.Lines
import PlanarMath.Proofs.Session.Trace
import PlanarMath.Proofs.Algebra.Conversion
import PlanarMath.Proofs.Grammar.Progress
import PlanarMath.Proofs.Grammar.Levels
import PlanarMath.Proofs.Grammar.Cursor
import PlanarMath.Proofs.Reading.Tiles
import PlanarMath.Proofs.Reading.Integers
import PlanarMath.Proofs.Json.Members
import PlanarMath.Proofs.FunctionTable.Meaning
