import Covenant.Capture
import Covenant.CommandLine.Arguments
import Covenant.CommandLine.Run
import Covenant.CommandLine.Settings
import Covenant.Condition.Old
import Covenant.Condition.Parse
import Covenant.Condition.Rewrite
import Covenant.Condition.Soundness
import Covenant.Condition.Splice
import Covenant.Declaration.Basic
import Covenant.Declaration.Validation
import Covenant.Demonstration
import Covenant.Digest
import Covenant.Document.Canonical
import Covenant.Document.Declarations
import Covenant.Document.Json
import Covenant.Enforcement
import Covenant.Error
import Covenant.Grammar.Cursor
import Covenant.Grammar.Expression
import Covenant.Grammar.NumberLiteral
import Covenant.Grammar.Pattern
import Covenant.Grammar.Statement
import Covenant.Grammar.StringLiteral
import Covenant.Machine.Access
import Covenant.Machine.Arithmetic
import Covenant.Machine.Call
import Covenant.Machine.Collection
import Covenant.Machine.Contract
import Covenant.Machine.Describe
import Covenant.Machine.Evaluate
import Covenant.Machine.Execute
import Covenant.Machine.Format
import Covenant.Machine.Import
import Covenant.Machine.Line
import Covenant.Machine.Method
import Covenant.Machine.Object
import Covenant.Machine.Operators
import Covenant.Machine.Run
import Covenant.Machine.Scope
import Covenant.Machine.Session
import Covenant.Machine.Snapshot
import Covenant.Machine.Standard
import Covenant.Machine.Value
import Covenant.Machine.View
import Covenant.Names
import Covenant.Number.Binary64
import Covenant.Number.Shortest
import Covenant.Report
import Covenant.Signature.Basic
import Covenant.Signature.Binding
import Covenant.Signature.Forwarding
import Covenant.Source.Field
import Covenant.Source.Marker
import Covenant.Source.Reader
import Covenant.Text.Blank
import Covenant.Text.Case
import Covenant.Text.Identifier
import Covenant.Text.Printable
import Covenant.Text.Quoted
import Covenant.Text.Ranges
import Covenant.Token
import Covenant.Token.Lexer
import Covenant.Token.Number
import Covenant.Tree.Dump
import Covenant.Tree.Expr
import Covenant.Tree.Layers
import Covenant.Tree.Preorder
import Covenant.Tree.Segment
import Covenant.Tree.Span
import Covenant.Tree.Stmt
import Covenant.Tree.Unparse
import Covenant.Value.Constant
import Covenant.Value.Datum
import Covenant.Weaving
import Covenant.Wrapper.Body
import Covenant.Wrapper.Descriptor
import Covenant.Wrapper.Emission
import Covenant.Wrapper.Plan
import Covenant.Main
import Covenant.Proofs.Protocol.Dialogue
import Covenant.Proofs.Protocol.Task
import Covenant.Proofs.Weaving.Accepted
import Covenant.Proofs.Protocol.Order
import Covenant.Proofs.Protocol.History
import Covenant.Proofs.Tree.Marks
import Covenant.Proofs.Condition.OldCalls
import Covenant.Proofs.Condition.Lookup
import Covenant.Proofs.Weaving.Captures
import Covenant.Proofs.Condition.Insertion
import Covenant.Proofs.Condition.Hygiene
import Covenant.Proofs.Condition.Replacement
import Covenant.Proofs.Condition.Qualification
import Covenant.Proofs.Machine.Resolution
import Covenant.Proofs.Weaving.Hygiene
import Covenant.Proofs.Interleaving.Captures
import Covenant.Proofs.Protocol.Emitted
import Covenant.Proofs.Condition.Rendering
import Covenant.Proofs.Grammar.Completeness
import Covenant.Proofs.Signature.Order
import Covenant.Proofs.Machine.Wrapping
import Covenant.Proofs.Machine.Forwarding
import Covenant.Proofs.Emission.Checks
import Covenant.Proofs.Weaving.Placement
import Covenant.Proofs.Machine.Installation
import Covenant.Proofs.Weaving.Escapes
import Covenant.Proofs.Emission.Bodies
import Covenant.Proofs.Emission.Heads
import Covenant.Proofs.Emission.Imports
import Covenant.Proofs.Emission.Modules
import Covenant.Proofs.Weaving.PublicNames
import Covenant.Proofs.Emission.EntryPoints
import Covenant.Proofs.Weaving.Instances
import Covenant.Proofs.Condition.Readings
import Covenant.Proofs.Declaration.Layers
import Covenant.Proofs.Emission.Closure
import Covenant.Proofs.Machine.Agreement
import Covenant.Proofs.Weaving.FreeNames
import Covenant.Proofs.Condition.Idempotence
import Covenant.Proofs.Condition.Splicing
import Covenant.Proofs.Condition.Exactness
import Covenant.Proofs.Emission.Violations
import Covenant.Proofs.Source.Fields
import Covenant.Proofs.Document.Fingerprint
import Covenant.Proofs.Emission.Defaults
import Covenant.Proofs.Source.Accounts
import Covenant.Proofs.Machine.Publishing
import Covenant.Proofs.Emission.Attributes
import Covenant.Proofs.Grammar.Functions
