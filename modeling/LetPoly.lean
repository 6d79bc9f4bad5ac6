import LetPoly.Batch
import LetPoly.Bindings
import LetPoly.CheckError
import LetPoly.Combinator
import LetPoly.CommandLine
import LetPoly.Depth
import LetPoly.Eval
import LetPoly.Event
import LetPoly.Expr
import LetPoly.Expr.Describe
import LetPoly.Expr.Printer
import LetPoly.Failure
import LetPoly.Files
import LetPoly.Fresh
import LetPoly.Infer
import LetPoly.Invocation
import LetPoly.Log
import LetPoly.OrderedSet
import LetPoly.ParseReport
import LetPoly.Parser
import LetPoly.Polymorphism
import LetPoly.Primitive
import LetPoly.Session
import LetPoly.Subst
import LetPoly.Text.Blank
import LetPoly.Text.Decimal
import LetPoly.Text.Digit
import LetPoly.Text.Json
import LetPoly.Text.Layout
import LetPoly.Text.Lines
import LetPoly.Text.Order
import LetPoly.Text.Printable
import LetPoly.Text.Quoted
import LetPoly.Text.Template
import LetPoly.Token
import LetPoly.Ty
import LetPoly.Unify
import LetPoly.Value
import LetPoly.Value.Typing
import LetPoly.Main
import LetPoly.Proofs.Assignment
import LetPoly.Proofs.Unification
import LetPoly.Proofs.Composition
import LetPoly.Proofs.Unification.Rounds
import LetPoly.Proofs.Unification.Parts
import LetPoly.Proofs.Unification.Solutions
import LetPoly.Proofs.Unification.Recursion
import LetPoly.Proofs.Unification.Failures
import LetPoly.Proofs.Schemes
import LetPoly.Proofs.Expressions
import LetPoly.Proofs.AlphaEquivalence
import LetPoly.Proofs.Typing
import LetPoly.Proofs.Inference.Runs
import LetPoly.Proofs.Inference.Variables
import LetPoly.Proofs.Inference.Soundness
import LetPoly.Proofs.Inference.Completeness
import LetPoly.Proofs.Evaluation.Logic
import LetPoly.Proofs.Evaluation.Step
import LetPoly.Proofs.Evaluation.Safety
import LetPoly.Proofs.Evaluation.Termination
import LetPoly.Proofs.Evaluation.ValueSchemes
import LetPoly.Proofs.Reading.Lexemes
import LetPoly.Proofs.Reading.Grammar
import LetPoly.Proofs.Reading.Languages
import LetPoly.Proofs.Reading.Sentences
import LetPoly.Proofs.Reading.Exactness
import LetPoly.Proofs.Reading.Terminals
import LetPoly.Proofs.Reading.Forms
import LetPoly.Proofs.Reading.Parsing
import LetPoly.Proofs.Reading.RoundTrip
import LetPoly.Proofs.OrderedMaps
import LetPoly.Proofs.LetterNames
import LetPoly.Proofs.Renaming
import LetPoly.Proofs.NormalForms
import LetPoly.Proofs.Inference.Renaming
import LetPoly.Proofs.Unification.Rearrangement
import LetPoly.Proofs.Inference.NestedLets
import LetPoly.Proofs.Inference.Calls
import LetPoly.Proofs.Inference.Generality
import LetPoly.Proofs.Evaluation.Whole
import LetPoly.Proofs.Reading.Progress
import LetPoly.Proofs.Reading.Nesting
import LetPoly.Proofs.Drivers.Stages
import LetPoly.Proofs.Drivers.Batch
import LetPoly.Proofs.Reading.JoinedLines
import LetPoly.Proofs.Drivers.Session
import LetPoly.Proofs.Drivers.Agreement
import LetPoly.Proofs.Drivers.Doubling
import LetPoly.Proofs.Inference.UsedNames
import LetPoly.Proofs.Evaluation.FreeVariables
import LetPoly.Proofs.Inference.UnboundNames
import LetPoly.Proofs.Evaluation.Invariants
import LetPoly.Proofs.Evaluation.Limits
import LetPoly.Proofs.Evaluation.ClosedValues
import LetPoly.Proofs.Evaluation.Comparison
import LetPoly.Proofs.Evaluation.NestedLets
import LetPoly.Proofs.Evaluation.PartialApplication
import LetPoly.Proofs.Evaluation.CurriedOperators
import LetPoly.Proofs.PrintedTypes
import LetPoly.Proofs.Reading.Reports
