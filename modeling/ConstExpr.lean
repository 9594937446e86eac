import ConstExpr.Class.Basic
import ConstExpr.Class.Magic
import ConstExpr.Class.Subject
import ConstExpr.Data.Assoc
import ConstExpr.Evaluation.Array
import ConstExpr.Evaluation.Constant
import ConstExpr.Evaluation.Expr
import ConstExpr.Evaluation.Memory
import ConstExpr.Evaluation.Statics
import ConstExpr.Failure
import ConstExpr.Number.Binary64
import ConstExpr.Number.Decimal
import ConstExpr.Number.Text
import ConstExpr.Number.Word
import ConstExpr.Operator.Apply
import ConstExpr.Operator.Arithmetic
import ConstExpr.Operator.Basic
import ConstExpr.Operator.Bitwise
import ConstExpr.Operator.Order
import ConstExpr.Registry.Basic
import ConstExpr.Registry.Builtin
import ConstExpr.Registry.Index
import ConstExpr.Session.Query
import ConstExpr.Session.Run
import ConstExpr.Syntax.Build
import ConstExpr.Syntax.Declared
import ConstExpr.Syntax.Dump
import ConstExpr.Syntax.Event
import ConstExpr.Syntax.Label
import ConstExpr.Syntax.Name
import ConstExpr.Syntax.Node
import ConstExpr.Syntax.Span
import ConstExpr.Syntax.Traversal
import ConstExpr.Syntax.Tree
import ConstExpr.Text.Bytes
import ConstExpr.Text.Directory
import ConstExpr.Text.Letter
import ConstExpr.Text.Quoted
import ConstExpr.Text.Shapeless
import ConstExpr.Value.Basic
import ConstExpr.Value.Conversion
import ConstExpr.Value.Description
import ConstExpr.Value.Numeric
import ConstExpr.Value.Table
import ConstExpr.Warning
import ConstExpr.Proofs.Reach
import ConstExpr.Proofs.Simulation
import ConstExpr.Proofs.Termination
import ConstExpr.Proofs.Bookkeeping
import ConstExpr.Proofs.Expansion
import ConstExpr.Proofs.SelfReference
import ConstExpr.Proofs.History
import ConstExpr.Proofs.Derivation
import ConstExpr.Proofs.Adequacy
import ConstExpr.Proofs.ArrayShape
import ConstExpr.Proofs.Contract
import ConstExpr.Proofs.Discipline
import ConstExpr.Proofs.WellFormed
import ConstExpr.Proofs.Listing
import ConstExpr.Proofs.AncestorSet
import ConstExpr.Proofs.Inheritance
import ConstExpr.Proofs.NameText
import ConstExpr.Proofs.NamespaceCycle
import ConstExpr.Proofs.Containment
import ConstExpr.Proofs.Level
import ConstExpr.Proofs.StaticVariables
import ConstExpr.Proofs.Laziness
import ConstExpr.Proofs.RegistrationOrder
import ConstExpr.Proofs.DecimalFloat
import ConstExpr.Proofs.Comparison
import ConstExpr.Proofs.Equalities
import ConstExpr.Proofs.Rounding
import ConstExpr.Proofs.NearestFloat
import ConstExpr.Proofs.DecimalRounding
import ConstExpr.Proofs.IntegerArithmetic
import ConstExpr.Proofs.NumeralGrammar
import ConstExpr.Proofs.NumeralScan
import ConstExpr.Proofs.CanonicalText
import ConstExpr.Proofs.IntegerText
import ConstExpr.Proofs.LongIntegers
import ConstExpr.Proofs.NextIndex
import ConstExpr.Proofs.QualifiedNames
import ConstExpr.Proofs.ArrayUnion
import ConstExpr.Proofs.Shift
import ConstExpr.Proofs.ArraySpread
import ConstExpr.Proofs.ByteMask
import ConstExpr.Proofs.RejectedOperands
import ConstExpr.Proofs.FloatValue
import ConstExpr.Proofs.FloatWord
import ConstExpr.Proofs.SignificantDigits
import ConstExpr.Proofs.FloatFormat
import ConstExpr.Proofs.FloatText
import ConstExpr.Proofs.Visitor
import ConstExpr.Proofs.Pruning
import ConstExpr.Proofs.NameSegments
import ConstExpr.Proofs.DirectoryPath
