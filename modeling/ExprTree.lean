import ExprTree.Expr.Equality
import ExprTree.Main
import ExprTree.Proofs.Rules.NormalForm
import ExprTree.Proofs.Text.Plain
import ExprTree.Transformers.Leaves
import ExprTree.Transformers.Lowering
import ExprTree.Proofs.Text.Words
import ExprTree.Proofs.Eval
import ExprTree.Proofs.Rules.Sound
import ExprTree.Proofs.Typing
import ExprTree.Proofs.Rules.Typed
import ExprTree.Proofs.Rules.Shrink
import ExprTree.Proofs.Lowering
import ExprTree.Proofs.Rules.Structural
import ExprTree.Proofs.Text.Pieces
import ExprTree.Proofs.Text.Legible
import ExprTree.Proofs.Text.Spine
import ExprTree.Proofs.Text.Parser
import ExprTree.Proofs.Text.Grammar
import ExprTree.Proofs.Text.Ahead
import ExprTree.Proofs.Text.Forms
import ExprTree.Proofs.Text.Reading
import ExprTree.Proofs.Rules.Split
import ExprTree.Proofs.Everywhere
import ExprTree.Proofs.Leaves
import ExprTree.Proofs.Misplaced
import ExprTree.Proofs.Rules.Renaming
import ExprTree.Proofs.Rules.Arms
import ExprTree.Proofs.Rules.Negation
import ExprTree.Proofs.Rules.Absorption
import ExprTree.Proofs.Rules.Resolution
import ExprTree.Proofs.Rules.Units
import ExprTree.Proofs.Text.Weight
import ExprTree.Proofs.Rules.Alteration
import ExprTree.Proofs.Fixpoint
import ExprTree.Proofs.Rules.Expansion
import ExprTree.Proofs.Reduction
import ExprTree.Proofs.Messages
import ExprTree.Proofs.Rules.Announced
import ExprTree.Proofs.Text.Formula
import ExprTree.Proofs.Integers
import ExprTree.Proofs.Text.Trim
import ExprTree.Proofs.CommandLine.Binding
import ExprTree.Proofs.CommandLine.Arguments
import ExprTree.Proofs.CommandLine.Report
