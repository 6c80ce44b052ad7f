import SmallPascal.Bindings
import SmallPascal.CallStack
import SmallPascal.Evaluation
import SmallPascal.Evaluation.Action
import SmallPascal.Grammar
import SmallPascal.Interpreter
import SmallPascal.Json
import SmallPascal.Json.Text
import SmallPascal.Markup
import SmallPascal.Progress
import SmallPascal.Proofs.CallStack.Lookup
import SmallPascal.Proofs.Evaluation.Account
import SmallPascal.Proofs.Evaluation.Agenda
import SmallPascal.Proofs.Evaluation.Alike
import SmallPascal.Proofs.Evaluation.Arithmetic
import SmallPascal.Proofs.Evaluation.Binding
import SmallPascal.Proofs.Evaluation.Bracket
import SmallPascal.Proofs.Evaluation.Callee
import SmallPascal.Proofs.Evaluation.Depth
import SmallPascal.Proofs.Evaluation.Dump
import SmallPascal.Proofs.Evaluation.Frame
import SmallPascal.Proofs.Evaluation.Isolation
import SmallPascal.Proofs.Evaluation.Limit
import SmallPascal.Proofs.Evaluation.Lockstep
import SmallPascal.Proofs.Evaluation.Machine
import SmallPascal.Proofs.Evaluation.Naming
import SmallPascal.Proofs.Evaluation.Numeral
import SmallPascal.Proofs.Evaluation.Operand
import SmallPascal.Proofs.Evaluation.Precedence
import SmallPascal.Proofs.Evaluation.Session
import SmallPascal.Proofs.Evaluation.Simulation
import SmallPascal.Proofs.Evaluation.Soundness
import SmallPascal.Proofs.Evaluation.Strictness
import SmallPascal.Proofs.Evaluation.Stripping
import SmallPascal.Proofs.Evaluation.Table
import SmallPascal.Proofs.Evaluation.Termination
import SmallPascal.Proofs.Evaluation.Values
import SmallPascal.Proofs.Grammar.Declaration
import SmallPascal.Proofs.Grammar.Derivation
import SmallPascal.Proofs.Grammar.Descent
import SmallPascal.Proofs.Grammar.Diagnosis
import SmallPascal.Proofs.Grammar.Expression
import SmallPascal.Proofs.Grammar.Flat
import SmallPascal.Proofs.Grammar.Layout
import SmallPascal.Proofs.Grammar.Phrase
import SmallPascal.Proofs.Grammar.Plan
import SmallPascal.Proofs.Grammar.Rendering
import SmallPascal.Proofs.Grammar.RoundTrip
import SmallPascal.Proofs.Grammar.Source
import SmallPascal.Proofs.Grammar.Statement
import SmallPascal.Proofs.Grammar.Termination
import SmallPascal.Proofs.Grammar.WellFormed
import SmallPascal.Proofs.Json.Loosening
import SmallPascal.Proofs.Json.RoundTrip
import SmallPascal.Proofs.Markup.Layout
import SmallPascal.Proofs.Markup.Reading
import SmallPascal.Proofs.Token.Advance
import SmallPascal.Proofs.Token.Drain
import SmallPascal.Proofs.Token.Gap
import SmallPascal.Proofs.Token.Layout
import SmallPascal.Proofs.Token.Lookahead
import SmallPascal.Proofs.Token.Spelling
import SmallPascal.Proofs.Token.Tiling
import SmallPascal.Proofs.Tree.Markup
import SmallPascal.Text
import SmallPascal.Token
import SmallPascal.Token.Cursor
import SmallPascal.Token.Encoding
import SmallPascal.Token.Reader
import SmallPascal.Trace
import SmallPascal.Tree
import SmallPascal.Tree.Encoding
import SmallPascal.Tree.Markup
import SmallPascal.Value
import SmallPascal.Value.Encoding
