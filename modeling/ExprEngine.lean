import ExprEngine.Arena
import ExprEngine.Context
import ExprEngine.Diagnostic
import ExprEngine.Diagnostic.Code
import ExprEngine.Diagnostic.Terminal
import ExprEngine.Engine
import ExprEngine.Error
import ExprEngine.FixedInt
import ExprEngine.Floating.Decimal
import ExprEngine.Floating.Format
import ExprEngine.Floating.Remainder
import ExprEngine.Floating.Shortest
import ExprEngine.Limits
import ExprEngine.Machine
import ExprEngine.Machine.Operation
import ExprEngine.Operator
import ExprEngine.Parse
import ExprEngine.Parse.Operand
import ExprEngine.Proofs.Arena
import ExprEngine.Proofs.Context
import ExprEngine.Proofs.Engine
import ExprEngine.Proofs.Grammar
import ExprEngine.Proofs.Machine.Flow
import ExprEngine.Proofs.Machine.Operation
import ExprEngine.Proofs.Machine.Step
import ExprEngine.Proofs.Outcome
import ExprEngine.Proofs.Parse.Brackets
import ExprEngine.Proofs.Parse.Complete
import ExprEngine.Proofs.Parse.Grouping
import ExprEngine.Proofs.Parse.Move
import ExprEngine.Proofs.Parse.Numbering
import ExprEngine.Proofs.Parse.Operands
import ExprEngine.Proofs.Parse.ReadBack
import ExprEngine.Proofs.Parse.Room
import ExprEngine.Proofs.Parse.Step
import ExprEngine.Proofs.Parse.Strength
import ExprEngine.Proofs.Registry
import ExprEngine.Proofs.Token.Lexemes
import ExprEngine.Proofs.Tree
import ExprEngine.Proofs.Typing.Judgement
import ExprEngine.Proofs.Typing.Rules
import ExprEngine.Registry
import ExprEngine.Script
import ExprEngine.Session
import ExprEngine.Span
import ExprEngine.Text.Ascii
import ExprEngine.Text.Escape
import ExprEngine.Text.GraphemeExtend
import ExprEngine.Text.Offset
import ExprEngine.Text.Printable
import ExprEngine.Token
import ExprEngine.Token.Literal
import ExprEngine.Token.Scanner
import ExprEngine.Token.Tokenizer
import ExprEngine.Tree
import ExprEngine.Typing
import ExprEngine.Typing.Rules
import ExprEngine.Value
import ExprEngine.ValueType
import ExprEngine.Proofs.Machine.Meaning
import ExprEngine.Proofs.Machine.Schedule
import ExprEngine.Proofs.Machine.Callees
import ExprEngine.Proofs.Refinement
import ExprEngine.Proofs.Frame
import ExprEngine.Proofs.Machine.Binding
import ExprEngine.Proofs.Binding
import ExprEngine.Proofs.FixedInt
import ExprEngine.Proofs.Machine.Integers
import ExprEngine.Proofs.Typing.Relation
import ExprEngine.Proofs.Typing.Exact
import ExprEngine.Proofs.Unfolding
import ExprEngine.Proofs.Guard
import ExprEngine.Proofs.Token.Writing
import ExprEngine.Proofs.Token.Exact
import ExprEngine.Proofs.Declaration
import ExprEngine.Proofs.Parse.Placement
import ExprEngine.Proofs.Token.Spacing
import ExprEngine.Proofs.Typing.Placement
import ExprEngine.Proofs.Machine.Likeness
import ExprEngine.Proofs.Respacing
import ExprEngine.Proofs.Token.Enclosing
import ExprEngine.Proofs.Parse.Transport
import ExprEngine.Proofs.Typing.Compound
import ExprEngine.Proofs.Machine.Compound
import ExprEngine.Proofs.Compound
import ExprEngine.Proofs.Resolution
import ExprEngine.Proofs.Limits
import ExprEngine.Proofs.Growth
import ExprEngine.Proofs.Addressing
import ExprEngine.Proofs.Demand
import ExprEngine.Proofs.Extent
import ExprEngine.Proofs.Parentheses
import ExprEngine.Proofs.Parse.Fault
import ExprEngine.Proofs.Parse.Gap
import ExprEngine.Proofs.Typing.Culprit
import ExprEngine.Proofs.Token.Quoting
import ExprEngine.Proofs.Quotation
import ExprEngine.Proofs.Token.Numerals
import ExprEngine.Proofs.Parse.Constants
import ExprEngine.Proofs.Machine.Wrapping
import ExprEngine.Proofs.Token.Stopping
import ExprEngine.Proofs.Token.Listing
import ExprEngine.Proofs.Writable
import ExprEngine.Proofs.Machine.Causes
import ExprEngine.Proofs.Text.Lines
import ExprEngine.Proofs.Wording
import ExprEngine.Proofs.Snippet
import ExprEngine.Parse.Table
import ExprEngine.Proofs.Conversion
import ExprEngine.Proofs.Emission
import ExprEngine.Proofs.Parse.Cells
import ExprEngine.Proofs.Parse.Slots
import ExprEngine.Proofs.Parse.Table
import ExprEngine.Proofs.Parse.Doom
import ExprEngine.Proofs.Parse.Shape
