import ScriptLang.CommandLine
import ScriptLang.Diagnostic
import ScriptLang.Dict
import ScriptLang.Eval.Basic
import ScriptLang.Eval.Builtin
import ScriptLang.Eval.Call
import ScriptLang.Eval.Class
import ScriptLang.Eval.Error
import ScriptLang.Eval.Loop
import ScriptLang.Eval.Member
import ScriptLang.Eval.Rule
import ScriptLang.Eval.Store
import ScriptLang.Eval.Text
import ScriptLang.Folder
import ScriptLang.Grammar.Assignment
import ScriptLang.Grammar.Atom
import ScriptLang.Grammar.Block
import ScriptLang.Grammar.Chain
import ScriptLang.Grammar.Class
import ScriptLang.Grammar.Control
import ScriptLang.Grammar.Error
import ScriptLang.Grammar.Expression
import ScriptLang.Grammar.Function
import ScriptLang.Grammar.Parser
import ScriptLang.Grammar.Statement
import ScriptLang.Grammar.Stream
import ScriptLang.Main
import ScriptLang.Number.BinaryForm
import ScriptLang.Number.Reading
import ScriptLang.Number.Rounding
import ScriptLang.Number.Shortest
import ScriptLang.Number.Whole
import ScriptLang.Proofs.Assignment.Expansion
import ScriptLang.Proofs.Assignment.Level
import ScriptLang.Proofs.Assignment.Words
import ScriptLang.Proofs.Congruence.Basic
import ScriptLang.Proofs.Congruence.Call
import ScriptLang.Proofs.Congruence.Rule
import ScriptLang.Proofs.Data.Basic
import ScriptLang.Proofs.Data.Evaluated
import ScriptLang.Proofs.Data.Parsed
import ScriptLang.Proofs.Data.Printed
import ScriptLang.Proofs.Data.RoundTrip
import ScriptLang.Proofs.Data.Scanned
import ScriptLang.Proofs.Depth.Basic
import ScriptLang.Proofs.Depth.Session
import ScriptLang.Proofs.Dict.Association
import ScriptLang.Proofs.Dict.Merge
import ScriptLang.Proofs.Element.Access
import ScriptLang.Proofs.Element.Slice
import ScriptLang.Proofs.Equality.Bisimilar
import ScriptLang.Proofs.Equality.Decides
import ScriptLang.Proofs.Eval.Alike
import ScriptLang.Proofs.Eval.Arguments
import ScriptLang.Proofs.Eval.Call
import ScriptLang.Proofs.Eval.Class
import ScriptLang.Proofs.Eval.Independence
import ScriptLang.Proofs.Eval.Member
import ScriptLang.Proofs.Eval.NullSafe
import ScriptLang.Proofs.Eval.Operator
import ScriptLang.Proofs.Eval.Rule
import ScriptLang.Proofs.Eval.Run
import ScriptLang.Proofs.Form.Accepted
import ScriptLang.Proofs.Form.Atom
import ScriptLang.Proofs.Form.Basic
import ScriptLang.Proofs.Form.Block
import ScriptLang.Proofs.Form.Class
import ScriptLang.Proofs.Form.Control
import ScriptLang.Proofs.Form.Expression
import ScriptLang.Proofs.Form.Extent
import ScriptLang.Proofs.Form.Placed
import ScriptLang.Proofs.Form.Program
import ScriptLang.Proofs.Form.Rule
import ScriptLang.Proofs.Form.Statement
import ScriptLang.Proofs.Grammar.Halting
import ScriptLang.Proofs.Grammar.Reads
import ScriptLang.Proofs.Grammar.Run
import ScriptLang.Proofs.Grammar.Single
import ScriptLang.Proofs.Grammar.Turn
import ScriptLang.Proofs.InStep
import ScriptLang.Proofs.Keeps
import ScriptLang.Proofs.Lexical.Basic
import ScriptLang.Proofs.Lexical.Call
import ScriptLang.Proofs.Lexical.Class
import ScriptLang.Proofs.Lexical.Control
import ScriptLang.Proofs.Lexical.Eval
import ScriptLang.Proofs.Lexical.Home
import ScriptLang.Proofs.Lexical.Rule
import ScriptLang.Proofs.Lexical.Session
import ScriptLang.Proofs.Lexical.Traceback
import ScriptLang.Proofs.Lexical.Visibility
import ScriptLang.Proofs.Limit.Action
import ScriptLang.Proofs.Limit.Basic
import ScriptLang.Proofs.Limit.Session
import ScriptLang.Proofs.Loop.Count
import ScriptLang.Proofs.Loop.Each
import ScriptLang.Proofs.Member.Layout
import ScriptLang.Proofs.Member.Moment
import ScriptLang.Proofs.Member.Override
import ScriptLang.Proofs.Member.Seeded
import ScriptLang.Proofs.Member.Session
import ScriptLang.Proofs.Number.Exact
import ScriptLang.Proofs.Number.Text
import ScriptLang.Proofs.Number.Word
import ScriptLang.Proofs.Passage.Append
import ScriptLang.Proofs.Passage.Program
import ScriptLang.Proofs.Precedence.Parsed
import ScriptLang.Proofs.Precedence.Tree
import ScriptLang.Proofs.Scope.Constant
import ScriptLang.Proofs.Scope.Growth
import ScriptLang.Proofs.Scope.Tree
import ScriptLang.Proofs.Scope.Visible
import ScriptLang.Proofs.Session.Append
import ScriptLang.Proofs.Source.Carets
import ScriptLang.Proofs.Source.Moved
import ScriptLang.Proofs.Source.Shown
import ScriptLang.Proofs.Super.Climb
import ScriptLang.Proofs.Super.History
import ScriptLang.Proofs.Super.Told
import ScriptLang.Proofs.Tandem.Alike
import ScriptLang.Proofs.Tandem.Basic
import ScriptLang.Proofs.Tandem.Exact
import ScriptLang.Proofs.Tandem.Expression
import ScriptLang.Proofs.Tandem.Rule
import ScriptLang.Proofs.Tandem.Statement
import ScriptLang.Proofs.Token.Alike
import ScriptLang.Proofs.Token.Alone
import ScriptLang.Proofs.Token.Covered
import ScriptLang.Proofs.Token.Fault
import ScriptLang.Proofs.Token.Lossless
import ScriptLang.Proofs.Token.Munch
import ScriptLang.Proofs.Token.Numeral
import ScriptLang.Proofs.Token.Placed
import ScriptLang.Proofs.Token.Run
import ScriptLang.Proofs.Token.Spells
import ScriptLang.Proofs.Token.Splice
import ScriptLang.Proofs.Token.Step
import ScriptLang.Proofs.Tree.Alike
import ScriptLang.Proofs.Tree.Edge
import ScriptLang.Proofs.Tree.Parts
import ScriptLang.Proofs.Tree.Path
import ScriptLang.Proofs.Value.Action
import ScriptLang.Proofs.Value.Aligned
import ScriptLang.Proofs.Value.Alike
import ScriptLang.Proofs.Value.Heap
import ScriptLang.Proofs.Value.Operation
import ScriptLang.Proofs.Value.Passed
import ScriptLang.Scope
import ScriptLang.Session
import ScriptLang.Settings
import ScriptLang.Settings.Block
import ScriptLang.Settings.Cursor
import ScriptLang.Settings.Document
import ScriptLang.Settings.Scalar
import ScriptLang.Settings.Tag
import ScriptLang.Settings.Token
import ScriptLang.Source.Position
import ScriptLang.Source.Span
import ScriptLang.Source.Trace
import ScriptLang.Stop
import ScriptLang.Table
import ScriptLang.Terminal
import ScriptLang.Text.Blank
import ScriptLang.Text.Extender
import ScriptLang.Text.Hidden
import ScriptLang.Text.Letter
import ScriptLang.Text.Line
import ScriptLang.Text.Numeral
import ScriptLang.Text.Quoted
import ScriptLang.Text.Range
import ScriptLang.Token.Basic
import ScriptLang.Token.Error
import ScriptLang.Token.Keyword
import ScriptLang.Token.Scan
import ScriptLang.Token.Symbol
import ScriptLang.Tree.Node
import ScriptLang.Tree.Operator
import ScriptLang.Turn
import ScriptLang.Value.Action
import ScriptLang.Value.Basic
import ScriptLang.Value.Cause
import ScriptLang.Value.Class
import ScriptLang.Value.Element
import ScriptLang.Value.Equality
import ScriptLang.Value.Heap
import ScriptLang.Value.Operation
import ScriptLang.Value.Text
