import TreeQuery.AbsolutePath
import TreeQuery.Decimal.Fixed
import TreeQuery.Decimal.Shortest
import TreeQuery.Factory
import TreeQuery.Failure
import TreeQuery.Filter
import TreeQuery.Forest.Basic
import TreeQuery.Forest.Build
import TreeQuery.Forest.Element
import TreeQuery.Forest.Navigate
import TreeQuery.Forest.Scope
import TreeQuery.Forest.Shown
import TreeQuery.Forest.Tree
import TreeQuery.Namespace
import TreeQuery.Query.Basic
import TreeQuery.Query.Bindings
import TreeQuery.Query.Engine
import TreeQuery.Query.Evaluation
import TreeQuery.Query.Plan
import TreeQuery.Text.Blank
import TreeQuery.Text.DecimalDigit
import TreeQuery.Text.Name
import TreeQuery.Text.Printable
import TreeQuery.Text.Quoted
import TreeQuery.Text.Range
import TreeQuery.Text.Uri
import TreeQuery.Value
import TreeQuery.View.Basic
import TreeQuery.View.Exchange
import TreeQuery.View.Navigator
import TreeQuery.XPath.ContextUse
import TreeQuery.XPath.CoreFunction
import TreeQuery.XPath.Evaluate
import TreeQuery.XPath.Literal
import TreeQuery.XPath.Node
import TreeQuery.XPath.Number
import TreeQuery.XPath.Parser
import TreeQuery.XPath.Program
import TreeQuery.XPath.Reference
import TreeQuery.XPath.Splice
import TreeQuery.XPath.Syntax
import TreeQuery.XPath.Token
import TreeQuery.XPath.Value
import TreeQuery.Proofs.Lexing.Layout
import TreeQuery.Proofs.Lookup
import TreeQuery.Proofs.Splicing
import TreeQuery.Proofs.Rewriting.Block
import TreeQuery.Proofs.Rewriting.Anchor
import TreeQuery.Proofs.Rewriting.Seam
import TreeQuery.Proofs.Rewriting.Arrangement
import TreeQuery.Proofs.Rewriting.Edit
import TreeQuery.Proofs.Rewriting.Fitting
import TreeQuery.Proofs.Rewriting.Request
import TreeQuery.Proofs.Handles.Combination
import TreeQuery.Proofs.View.Run
import TreeQuery.Proofs.Handles.Kept
import TreeQuery.Proofs.Handles.History
import TreeQuery.Proofs.Handles.Variables
import TreeQuery.Proofs.Evaluation.Lazy
import TreeQuery.Proofs.Grammar.Written
import TreeQuery.Proofs.Grammar.Star
import TreeQuery.Proofs.Anchoring.Tree
import TreeQuery.Proofs.Anchoring.Meaning
import TreeQuery.Proofs.Grammar.Nesting
import TreeQuery.Proofs.Anchoring.Scan
import TreeQuery.Proofs.Anchoring.Anchors
import TreeQuery.Proofs.Anchoring.Glue
import TreeQuery.Proofs.Anchoring.Root
import TreeQuery.Proofs.Anchoring.Document
import TreeQuery.Proofs.Forest.Ancestors
import TreeQuery.Proofs.Forest.WellFormed
import TreeQuery.Proofs.Forest.Growth
import TreeQuery.Proofs.Forest.AttributeSet
import TreeQuery.Proofs.Forest.Built
import TreeQuery.Proofs.Forest.Reading
import TreeQuery.Proofs.Forest.Scope
import TreeQuery.Proofs.View.Shape
import TreeQuery.Proofs.View.ClarkName
import TreeQuery.Proofs.View.Steps
import TreeQuery.Proofs.View.Levels
import TreeQuery.Proofs.View.Memory
import TreeQuery.Proofs.View.Building
import TreeQuery.Proofs.View.Top
import TreeQuery.Proofs.View.Accepted
import TreeQuery.Proofs.View.Places
import TreeQuery.Proofs.View.Mirror
import TreeQuery.Proofs.View.NamespaceAxis
import TreeQuery.Proofs.Path.Meaning
import TreeQuery.Proofs.Path.Runs
import TreeQuery.Proofs.Path.Step
import TreeQuery.Proofs.Path.Selected
import TreeQuery.Proofs.Forest.Calls
import TreeQuery.Proofs.Handles.Compiling
import TreeQuery.Proofs.View.Sessions
import TreeQuery.Proofs.Evaluation.Faults
import TreeQuery.Proofs.Handles.Failures
import TreeQuery.Proofs.Lexing.Operand
import TreeQuery.Proofs.Scanning.RelativePath
import TreeQuery.Proofs.Scanning.Reference
import TreeQuery.Proofs.Scanning.ContextCall
import TreeQuery.Proofs.Grammar.Literal
import TreeQuery.Proofs.Path.Written
import TreeQuery.Proofs.Handles.Verbatim
import TreeQuery.Proofs.Path.Verbatim
import TreeQuery.Proofs.Forest.Nearest
import TreeQuery.Proofs.Forest.Prefixes
import TreeQuery.Proofs.Forest.Conflicts
import TreeQuery.Proofs.Forest.AttributeMap
import TreeQuery.Proofs.Forest.Introduced
import TreeQuery.Proofs.Lexing.Parting
import TreeQuery.Proofs.Bindings.Namespaces
import TreeQuery.Proofs.Bindings.Variables
import TreeQuery.Proofs.View.Course
import TreeQuery.Proofs.View.Unfinished
import TreeQuery.Proofs.Rewriting.Simultaneous
