import Formula.Bracket
import Formula.Bracket.Arguments
import Formula.Builtin
import Formula.Datum
import Formula.Decimal.Binary
import Formula.Decimal.Layout
import Formula.Decimal.Literal
import Formula.Decimal.Shortest
import Formula.Declaration
import Formula.EvalError
import Formula.Evaluation
import Formula.Expr
import Formula.Expr.Inventory
import Formula.Expr.Report
import Formula.Expr.Stored
import Formula.Function
import Formula.Integral
import Formula.Json.Printer
import Formula.Json.Reader
import Formula.Name
import Formula.Name.Detection
import Formula.NameSet
import Formula.Number
import Formula.Operator
import Formula.Options
import Formula.Options.Stored
import Formula.OrderedSet
import Formula.ParseError
import Formula.Parser
import Formula.Part
import Formula.Part.Reduction
import Formula.Quadrature
import Formula.Relation
import Formula.Signature
import Formula.StoredError
import Formula.Text.Blank
import Formula.Text.Digit
import Formula.Text.Hex
import Formula.Text.Quoted
import Formula.Text.Units
import Formula.Token
import Formula.Values
import Formula.Vocabulary
import Formula.Yaml.Plain
import Formula.Yaml.Printer
import Formula.Yaml.Reader
import Formula.Yaml.Scalar
import Formula.Proofs.Outcome
import Formula.Proofs.Grouped
import Formula.Proofs.OperatorGrammar
import Formula.Proofs.Reduction
import Formula.Proofs.Spans
import Formula.Proofs.Tokens
import Formula.Proofs.Declared
import Formula.Proofs.Readings
import Formula.Proofs.Everywhere
import Formula.Proofs.Mentions
import Formula.Proofs.WellFormed
import Formula.Proofs.Recognition
import Formula.Proofs.Balance
import Formula.Proofs.Exchange
import Formula.Proofs.Inside
import Formula.Proofs.Limits
import Formula.Proofs.Faults
import Formula.Proofs.Blanks
import Formula.Proofs.Readable
import Formula.Proofs.Shapes
import Formula.Proofs.Written
import Formula.Proofs.RoundTrip
import Formula.Proofs.Relations
import Formula.Proofs.Groups
import Formula.Proofs.SideBySide
import Formula.Proofs.Callable
import Formula.Proofs.DepthLimit
import Formula.Proofs.EqualNumbers
import Formula.Proofs.Alike
import Formula.Proofs.Doubles
import Formula.Proofs.Subtraction
import Formula.Proofs.Levels
import Formula.Proofs.MinusSign
import Formula.Proofs.EqualOptions
import Formula.Proofs.FieldOrder
import Formula.Proofs.Erasing
import Formula.Proofs.StoredTrees
import Formula.Proofs.TreeCodec
import Formula.Proofs.StoredOptions
import Formula.Proofs.LateBinding
import Formula.Proofs.ExactValues
import Formula.Proofs.Inventory
import Formula.Proofs.Scripts
import Formula.Proofs.UsedNames
import Formula.Proofs.FoundNames
import Formula.Proofs.MissingValues
import Formula.Proofs.Equations
import Formula.Proofs.MoreLevels
import Formula.Proofs.Chains
import Formula.Proofs.EquationChains
import Formula.Proofs.DoubleOrder
import Formula.Proofs.InequalityChains
import Formula.Proofs.Tokenization
import Formula.Proofs.Partition
import Formula.Proofs.FaultPositions
import Formula.Proofs.Implementations
import Formula.Proofs.Occurrences
import Formula.Proofs.Leftovers
import Formula.Proofs.Panels
import Formula.Proofs.RuleRelations
import Formula.Proofs.ExactQuadrature
import Formula.Proofs.Joining
import Formula.Proofs.Recognisers
