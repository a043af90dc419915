import NovaLang.CommandLine
import NovaLang.Decimal.Numeral
import NovaLang.Decimal.Shortest
import NovaLang.Decimal.Text
import NovaLang.Descent.Cursor
import NovaLang.Descent.Expression
import NovaLang.Descent.Statement
import NovaLang.Eval.Event
import NovaLang.Eval.Interrupt
import NovaLang.Eval.Machine
import NovaLang.Eval.Operator
import NovaLang.Eval.Run
import NovaLang.Files
import NovaLang.Grammar.Automaton
import NovaLang.Grammar.KindSet
import NovaLang.Grammar.Lexeme
import NovaLang.Grammar.Packed
import NovaLang.Grammar.Production
import NovaLang.Grammar.Read
import NovaLang.Grammar.Tree
import NovaLang.Json.Basic
import NovaLang.Json.Reader
import NovaLang.Json.Writer
import NovaLang.Keyed
import NovaLang.Main
import NovaLang.Name
import NovaLang.Node
import NovaLang.Node.Json
import NovaLang.Node.Print
import NovaLang.Options
import NovaLang.Proofs.Blanks
import NovaLang.Proofs.Concatenation
import NovaLang.Proofs.Decimal.Bits
import NovaLang.Proofs.Decimal.Digits
import NovaLang.Proofs.Decimal.Display
import NovaLang.Proofs.Decimal.Nearest
import NovaLang.Proofs.Decimal.Reading
import NovaLang.Proofs.Decimal.Rounding
import NovaLang.Proofs.Decimal.Shortest
import NovaLang.Proofs.Decimal.Spacing
import NovaLang.Proofs.Derivable
import NovaLang.Proofs.Descent.Admission
import NovaLang.Proofs.Descent.Bounds
import NovaLang.Proofs.Descent.Complete
import NovaLang.Proofs.Descent.Course
import NovaLang.Proofs.Descent.Exact
import NovaLang.Proofs.Descent.FirstAbort
import NovaLang.Proofs.Descent.Lenient
import NovaLang.Proofs.Descent.Locality
import NovaLang.Proofs.Descent.MissingSemicolon
import NovaLang.Proofs.Descent.Parallel
import NovaLang.Proofs.Descent.Recovery
import NovaLang.Proofs.Descent.Resumption
import NovaLang.Proofs.Descent.Sound
import NovaLang.Proofs.Descent.Steady
import NovaLang.Proofs.Descent.Traversal
import NovaLang.Proofs.Descent.Surroundings
import NovaLang.Proofs.Descent.Termination
import NovaLang.Proofs.Descent.Unended
import NovaLang.Proofs.Descent.Viable
import NovaLang.Proofs.Descent.WellFormed
import NovaLang.Proofs.Ebnf
import NovaLang.Proofs.Emission
import NovaLang.Proofs.Endings
import NovaLang.Proofs.Eval.EmptyScope
import NovaLang.Proofs.Eval.ForLoops
import NovaLang.Proofs.Eval.Frame
import NovaLang.Proofs.Eval.Invariant
import NovaLang.Proofs.Eval.Nesting
import NovaLang.Proofs.Eval.Relabelling
import NovaLang.Proofs.Eval.Simulation
import NovaLang.Proofs.Eval.Soundness
import NovaLang.Proofs.Eval.Visits
import NovaLang.Proofs.Files
import NovaLang.Proofs.FrontEnds
import NovaLang.Proofs.Grammar.Checked
import NovaLang.Proofs.Grammar.Complete
import NovaLang.Proofs.Grammar.Denotes
import NovaLang.Proofs.Grammar.Derivation
import NovaLang.Proofs.Grammar.Grows
import NovaLang.Proofs.Grammar.Lexing
import NovaLang.Proofs.Grammar.Lines
import NovaLang.Proofs.Grammar.Parts
import NovaLang.Proofs.Grammar.Sound
import NovaLang.Proofs.Grammar.Spelling
import NovaLang.Proofs.Grammar.States
import NovaLang.Proofs.Json.Controls
import NovaLang.Proofs.Json.Dump
import NovaLang.Proofs.Json.Number
import NovaLang.Proofs.Json.RoundTrip
import NovaLang.Proofs.Juxtaposed
import NovaLang.Proofs.Layout
import NovaLang.Proofs.Levels
import NovaLang.Proofs.LexicalGrammar
import NovaLang.Proofs.LineNumbers
import NovaLang.Proofs.Node.Decoding
import NovaLang.Proofs.Node.Outline
import NovaLang.Proofs.Node.Phrases
import NovaLang.Proofs.Node.Printing
import NovaLang.Proofs.Node.RoundTrip
import NovaLang.Proofs.Phrase
import NovaLang.Proofs.PrintedTexts
import NovaLang.Proofs.Prompt
import NovaLang.Proofs.Reader
import NovaLang.Proofs.Refusal
import NovaLang.Proofs.Relaxed
import NovaLang.Proofs.Scanning
import NovaLang.Proofs.ScopeHistory
import NovaLang.Proofs.Semicolons
import NovaLang.Proofs.Trees
import NovaLang.Proofs.WholeNumbers
import NovaLang.Report
import NovaLang.Scope
import NovaLang.Session
import NovaLang.Shell
import NovaLang.Text.Blank
import NovaLang.Text.Digit
import NovaLang.Text.Line
import NovaLang.Text.Quoted
import NovaLang.Text.Range
import NovaLang.Text.Visible
import NovaLang.Text.Word
import NovaLang.Token
import NovaLang.Token.Scan
import NovaLang.Value
