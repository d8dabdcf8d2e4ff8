import TableLisp.Datum.Basic
import TableLisp.Datum.Equality
import TableLisp.Datum.MapStore
import TableLisp.Datum.Params
import TableLisp.Datum.Printer
import TableLisp.Environment
import TableLisp.Error
import TableLisp.Eval.Form
import TableLisp.Eval.Loop
import TableLisp.Eval.Machine
import TableLisp.Json
import TableLisp.Kind
import TableLisp.Main
import TableLisp.Number.Binary64
import TableLisp.Number.Decimal
import TableLisp.Number.Numeral
import TableLisp.Primitive.Apply
import TableLisp.Primitive.Arguments
import TableLisp.Primitive.Arithmetic
import TableLisp.Primitive.Basic
import TableLisp.Primitive.Comparison
import TableLisp.Primitive.Map
import TableLisp.Primitive.Naming
import TableLisp.Primitive.Predicate
import TableLisp.Primitive.Sequence
import TableLisp.Primitive.Text
import TableLisp.Prompt
import TableLisp.Reader.Form
import TableLisp.Reader.Table
import TableLisp.Session
import TableLisp.Settings.Basic
import TableLisp.Settings.Json
import TableLisp.Symbol
import TableLisp.Template
import TableLisp.Text.Alphabetic
import TableLisp.Text.Blank
import TableLisp.Text.Digit
import TableLisp.Text.Graphic
import TableLisp.Text.Identifier
import TableLisp.Text.Lines
import TableLisp.Text.Quoted
import TableLisp.Text.Source
import TableLisp.Proofs.Eval.Frames
import TableLisp.Proofs.Eval.Leaks
import TableLisp.Proofs.Eval.Templates
import TableLisp.Proofs.Prompt.Lines
import TableLisp.Proofs.Reader.RoundTrip
import TableLisp.Proofs.Reader.Continuations
import TableLisp.Proofs.Data.Equality
import TableLisp.Proofs.Reader.WellFormed
import TableLisp.Proofs.Reader.LineCount
import TableLisp.Text.Stream
import TableLisp.Proofs.Text.Streams
import TableLisp.Proofs.Data.Maps
import TableLisp.Proofs.Reader.Blame
import TableLisp.Proofs.Reader.KeywordNames
import TableLisp.Proofs.Data.Grounded
import TableLisp.Proofs.Number.Language
import TableLisp.Proofs.Scopes.Permanence
import TableLisp.Proofs.Eval.Expansion
import TableLisp.Proofs.Number.Arithmetic
import TableLisp.Proofs.Reader.PreferFloats
import TableLisp.Proofs.Text.StringLiterals
import TableLisp.Proofs.Scopes.Parameters
import TableLisp.Proofs.Number.Tokens
