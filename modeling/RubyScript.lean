import RubyScript.Text.Class
import RubyScript.Text.Quoted
import RubyScript.Decimal.Binary64
import RubyScript.Decimal.Reader
import RubyScript.Decimal.Shortest
import RubyScript.Level
import RubyScript.Tree.Printer
import RubyScript.Tree.Reader
import RubyScript.Tree.JsonForm
import RubyScript.Filter
import RubyScript.Scope
import RubyScript.Emit.Literal
import RubyScript.Emit.Regexp
import RubyScript.Emit.Assignment
import RubyScript.Emit.Invocation
import RubyScript.Emit.Program
import RubyScript.Pipeline
import RubyScript.Filter.Registry
import RubyScript.Main
import RubyScript.Proofs.Filter.Idempotence
import RubyScript.Proofs.Filter.Order
import RubyScript.Proofs.Tree.RoundTrip
import RubyScript.Proofs.Emit.Grouping
import RubyScript.Proofs.Scope.Operations
import RubyScript.Proofs.Scope.Declaration
import RubyScript.Proofs.Scope.Deferral
import RubyScript.Proofs.Emit.Frame
import RubyScript.Proofs.Scope.Visibility
import RubyScript.Proofs.Emit.Congruence
import RubyScript.Proofs.Emit.Respect
import RubyScript.Proofs.Tree.JsonRoundTrip
import RubyScript.Proofs.Emit.AsyncGate
import RubyScript.Proofs.Emit.ExpressionPosition
import RubyScript.Proofs.Emit.Resolution
import RubyScript.Proofs.Filter.Declared
import RubyScript.Proofs.Tree.Unplaced
import RubyScript.Proofs.Emit.Language
import RubyScript.Proofs.Emit.Placement
import RubyScript.Proofs.Emit.Fine
import RubyScript.Proofs.Emit.Follow
import RubyScript.Proofs.Emit.Writing.Literal
import RubyScript.Proofs.Emit.Writing.Regexp
import RubyScript.Proofs.Emit.Writing.Assignment
import RubyScript.Proofs.Emit.Writing.Function
import RubyScript.Proofs.Emit.Writing.Branch
import RubyScript.Proofs.Emit.Writing.Class
import RubyScript.Proofs.Emit.Writing.Program
import RubyScript.Proofs.Emit.Spelling
import RubyScript.Proofs.Emit.SingleLine
import RubyScript.Proofs.Emit.LegacyPunctuation
import RubyScript.Proofs.Filter.Placement
import RubyScript.Proofs.Filter.Materialization
import RubyScript.Proofs.Filter.FallThrough
import RubyScript.Proofs.Filter.Depth
import RubyScript.Proofs.Scope.Unwinding
import RubyScript.Proofs.Emit.Hoisting
import RubyScript.Proofs.Emit.BlockDeclaration
import RubyScript.Proofs.Emit.Accounting
import RubyScript.Proofs.Emit.LegacyDeclaration
import RubyScript.Proofs.Ecma.Phrase
import RubyScript.Proofs.Emit.BindingStrength
import RubyScript.Proofs.Emit.TemplateText
import RubyScript.Proofs.Emit.Transparency
import RubyScript.Proofs.Emit.StatementStart
import RubyScript.Proofs.Emit.ConstructorOperand
import RubyScript.Proofs.Emit.QuotedText
import RubyScript.Proofs.Emit.ObjectKeys
import RubyScript.Proofs.Emit.SlashEscape
import RubyScript.Proofs.Emit.AnchorTranslation
import RubyScript.Proofs.Emit.Destructuring
import RubyScript.Proofs.Emit.MultilineFlag
import RubyScript.Proofs.Emit.SpreadLists
import RubyScript.Proofs.Tree.Layout
import RubyScript.Proofs.Emit.MemberName
import RubyScript.Proofs.Emit.DroppedNames
import RubyScript.Proofs.Emit.ConciseBody
import RubyScript.Proofs.Tree.Culprit
import RubyScript.Proofs.Tree.JsonFault
import RubyScript.Proofs.Converter.Program
import RubyScript.Proofs.CommandLine.Detection
