import TypeReveal.Main
import TypeReveal.Proofs.Inference.Extension
import TypeReveal.Proofs.Inference.Narrowing
import TypeReveal.Proofs.Statement.RoundTrip
import TypeReveal.Tree.Block
import TypeReveal.Proofs.Ty.Order
import TypeReveal.Proofs.Ty.Union
import TypeReveal.Proofs.Ty.WellFormed
import TypeReveal.Proofs.Annotation.WellFormed
import TypeReveal.Proofs.Inference.WellFormed
import TypeReveal.Proofs.Inference.Result
import TypeReveal.Proofs.Text.Escape
import TypeReveal.Proofs.Expr.Compact
import TypeReveal.Proofs.Statement.OneLine
import TypeReveal.Proofs.Annotation.Denotes
import TypeReveal.Proofs.Ty.Spelling
import TypeReveal.Proofs.Inference.Annotated
import TypeReveal.Proofs.Statement.Nesting
import TypeReveal.Proofs.Inference.Queries
import TypeReveal.Proofs.Layout.Comments
import TypeReveal.Proofs.Expr.Faithful
import TypeReveal.Proofs.Ty.Legible
import TypeReveal.Proofs.Careful.File
import TypeReveal.Proofs.Inference.Opinions
import TypeReveal.Proofs.Resolution
import TypeReveal.Proofs.Reveal
import TypeReveal.Proofs.Statement.Unread
import TypeReveal.Proofs.Annotation.Erasure
import TypeReveal.Proofs.Annotation.Signature
import TypeReveal.Proofs.Annotation.Steps
import TypeReveal.Proofs.Annotation.UnionForms
import TypeReveal.Proofs.Ty.Alternatives
import TypeReveal.Proofs.Inference.Overloads
import TypeReveal.Proofs.Inference.Aliases
import TypeReveal.Proofs.Inference.Checked
import TypeReveal.Proofs.Text.Lines
import TypeReveal.Proofs.Statement.Indentation
import TypeReveal.Proofs.Inference.Atoms
import TypeReveal.Proofs.Quoting.Meaning
import TypeReveal.Proofs.Annotation.SignatureShape
import TypeReveal.Proofs.Statement.Commas
import TypeReveal.Proofs.Command.Run
