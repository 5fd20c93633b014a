import FormSchema.Command.Arguments
import FormSchema.Command.Files
import FormSchema.Command.Folder
import FormSchema.Command.Run
import FormSchema.Command.Wildcard
import FormSchema.Configuration.Basic
import FormSchema.Configuration.Mistake
import FormSchema.Document.Basic
import FormSchema.Document.Dependents
import FormSchema.Document.Edit
import FormSchema.Document.Evaluation
import FormSchema.Document.Link
import FormSchema.Document.Node
import FormSchema.Enumeration.Choice
import FormSchema.Enumeration.Request
import FormSchema.Expr.Builtin
import FormSchema.Expr.Coercion
import FormSchema.Expr.Eval
import FormSchema.Expr.Evaluator
import FormSchema.Expr.Mention
import FormSchema.Expr.Offsets
import FormSchema.Expr.Parser
import FormSchema.Expr.Syntax
import FormSchema.Expr.Template
import FormSchema.Expr.Token
import FormSchema.Json.Basic
import FormSchema.Json.Reader
import FormSchema.Json.Size
import FormSchema.Json.Token
import FormSchema.Json.Writer
import FormSchema.Kind.Basic
import FormSchema.Kind.Inference
import FormSchema.Kind.Set
import FormSchema.Main
import FormSchema.Misuse
import FormSchema.Number.Binary64
import FormSchema.Number.Notation
import FormSchema.Number.Read
import FormSchema.Number.Shortest
import FormSchema.Pattern.Basic
import FormSchema.Pattern.Bracket
import FormSchema.Pattern.CharSet
import FormSchema.Pattern.Escape
import FormSchema.Pattern.Reader
import FormSchema.Pointer
import FormSchema.Proofs.Document.Addressing
import FormSchema.Proofs.Document.Coherence
import FormSchema.Proofs.Document.Dependents
import FormSchema.Proofs.Document.Described
import FormSchema.Proofs.Document.Editing
import FormSchema.Proofs.Document.History
import FormSchema.Proofs.Document.Identity
import FormSchema.Proofs.Document.Initial
import FormSchema.Proofs.Document.Levels
import FormSchema.Proofs.Document.Links
import FormSchema.Proofs.Document.Path
import FormSchema.Proofs.Document.Reaction
import FormSchema.Proofs.Document.Readers
import FormSchema.Proofs.Document.Reading
import FormSchema.Proofs.Document.References
import FormSchema.Proofs.Document.Relabel
import FormSchema.Proofs.Document.Relinking
import FormSchema.Proofs.Document.Replace
import FormSchema.Proofs.Document.Variants
import FormSchema.Proofs.Enumeration.Compilations
import FormSchema.Proofs.Enumeration.Requests
import FormSchema.Proofs.Expr.Assembly
import FormSchema.Proofs.Expr.Atom
import FormSchema.Proofs.Expr.Dependence
import FormSchema.Proofs.Expr.Forward
import FormSchema.Proofs.Expr.Grammar
import FormSchema.Proofs.Expr.Height
import FormSchema.Proofs.Expr.Mention
import FormSchema.Proofs.Expr.Offsets
import FormSchema.Proofs.Expr.Position
import FormSchema.Proofs.Expr.Printing
import FormSchema.Proofs.Expr.Productions
import FormSchema.Proofs.Expr.Words
import FormSchema.Proofs.Json.Edit
import FormSchema.Proofs.Json.Equality
import FormSchema.Proofs.Json.Path
import FormSchema.Proofs.Kind.Admission
import FormSchema.Proofs.Kind.Order
import FormSchema.Proofs.Number.Computed
import FormSchema.Proofs.Number.Rounding
import FormSchema.Proofs.Number.Value
import FormSchema.Proofs.Number.Whole
import FormSchema.Proofs.Outcome
import FormSchema.Proofs.Pointer.Grammar
import FormSchema.Proofs.Pointer.Path
import FormSchema.Proofs.Pointer.Text
import FormSchema.Proofs.Schema.Addresses
import FormSchema.Proofs.Schema.Arrangement
import FormSchema.Proofs.Schema.Containment
import FormSchema.Proofs.Schema.Derived
import FormSchema.Proofs.Schema.Fixpoint
import FormSchema.Proofs.Schema.Halting
import FormSchema.Proofs.Schema.Idempotence
import FormSchema.Proofs.Schema.Inlining
import FormSchema.Proofs.Schema.Isolation
import FormSchema.Proofs.Schema.Normal
import FormSchema.Proofs.Schema.Numbering
import FormSchema.Proofs.Schema.Observation
import FormSchema.Proofs.Schema.Observers
import FormSchema.Proofs.Schema.Path
import FormSchema.Proofs.Schema.Preorder
import FormSchema.Proofs.Schema.Recompilation
import FormSchema.Proofs.Schema.Regular
import FormSchema.Proofs.Schema.Relabel
import FormSchema.Proofs.Schema.Reports
import FormSchema.Proofs.Schema.Resolved
import FormSchema.Proofs.Schema.Run
import FormSchema.Proofs.Schema.Substitution
import FormSchema.Proofs.Schema.Target
import FormSchema.Proofs.Schema.Typing
import FormSchema.Proofs.Store.Addressing
import FormSchema.Proofs.Store.Calls
import FormSchema.Proofs.Store.Changes
import FormSchema.Proofs.Store.Dependents
import FormSchema.Proofs.Store.Editing
import FormSchema.Proofs.Store.Entries
import FormSchema.Proofs.Store.Holds
import FormSchema.Proofs.Store.Linking
import FormSchema.Proofs.Store.Ownership
import FormSchema.Proofs.Store.Refinement
import FormSchema.Proofs.Store.Relinking
import FormSchema.Proofs.Store.Slots
import FormSchema.Proofs.Validation.Linking
import FormSchema.Proofs.Validation.Parts
import FormSchema.Proofs.Validation.Pointers
import FormSchema.Schema.Arena
import FormSchema.Schema.Attributes
import FormSchema.Schema.Compilation
import FormSchema.Schema.Definitions
import FormSchema.Schema.Derivation
import FormSchema.Schema.Dialect
import FormSchema.Schema.Keyword
import FormSchema.Schema.Normal
import FormSchema.Schema.Numbering
import FormSchema.Schema.Outline
import FormSchema.Schema.Problem
import FormSchema.Schema.Reference
import FormSchema.Schema.Seat
import FormSchema.Schema.Summary
import FormSchema.Schema.Tree
import FormSchema.Schema.Typing
import FormSchema.Schema.Widget
import FormSchema.Schema.Wiring
import FormSchema.Store.Basic
import FormSchema.Store.Edit
import FormSchema.Store.Evaluation
import FormSchema.Text.Bytes
import FormSchema.Text.Case
import FormSchema.Text.Category
import FormSchema.Text.CodeRanges
import FormSchema.Text.Letter
import FormSchema.Text.Property
import FormSchema.Text.Quoted
import FormSchema.Text.Script
import FormSchema.Text.Search
import FormSchema.Text.Slice
import FormSchema.Validation.Basic
import FormSchema.Validation.Format
import FormSchema.Validation.Violation
