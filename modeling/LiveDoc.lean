import LiveDoc.Text.Property
import LiveDoc.Text.Trim
import LiveDoc.Text.Quoted
import LiveDoc.Decimal.Binary
import LiveDoc.Decimal.Shortest
import LiveDoc.Decimal.Layout
import LiveDoc.Decimal.Reading
import LiveDoc.Number.Basic
import LiveDoc.Config
import LiveDoc.Signal
import LiveDoc.Line.Expansion
import LiveDoc.Load.Error
import LiveDoc.Line.Patterns
import LiveDoc.Text.Utf8
import LiveDoc.Yaml.Mark
import LiveDoc.Yaml.Fault
import LiveDoc.Yaml.Cursor
import LiveDoc.Yaml.Tag
import LiveDoc.Yaml.Token
import LiveDoc.Yaml.Scalar.Gap
import LiveDoc.Yaml.Scalar.Plain
import LiveDoc.Yaml.Scalar.Quoted
import LiveDoc.Yaml.Scalar.Block
import LiveDoc.Yaml.Directive
import LiveDoc.Yaml.Tokens
import LiveDoc.Yaml.Event
import LiveDoc.Yaml.Tree
import LiveDoc.Yaml.Resolution
import LiveDoc.Yaml.Error
import LiveDoc.Yaml.Document
import LiveDoc.Config.Reading
import LiveDoc.Load.Position
import LiveDoc.Yaml.Printer
import LiveDoc.Script.Token
import LiveDoc.Script.Lexer
import LiveDoc.Script.Program
import LiveDoc.Script.Parser
import LiveDoc.Script.Source
import LiveDoc.Value.Basic
import LiveDoc.Value.Slots
import LiveDoc.Value.Heap
import LiveDoc.Value.Liveness
import LiveDoc.Value.Text
import LiveDoc.Value.Equality
import LiveDoc.Value.Tree
import LiveDoc.Script.RuntimeError
import LiveDoc.Script.Operators
import LiveDoc.Script.Scope
import LiveDoc.Script.Run
import LiveDoc.Script.Property
import LiveDoc.Script.Eval
import LiveDoc.Value.Compile
import LiveDoc.Load.Build
import LiveDoc.Load.Path
import LiveDoc.Load.Files
import LiveDoc.Load.Resolve
import LiveDoc.Host.Session
import LiveDoc.Proofs.Liveness
import LiveDoc.Proofs.Keeps
import LiveDoc.Proofs.Bodies
import LiveDoc.Proofs.Policy
import LiveDoc.Proofs.Scoping
import LiveDoc.Proofs.Obedience
import LiveDoc.Proofs.Confinement
import LiveDoc.Proofs.Requests
import LiveDoc.Proofs.Permanence
import LiveDoc.Proofs.Properties
import LiveDoc.Proofs.Jumps
import LiveDoc.Proofs.Comparison
import LiveDoc.Proofs.Endless
import LiveDoc.Proofs.Nesting
import LiveDoc.Proofs.Frames
import LiveDoc.Proofs.Grammar
import LiveDoc.Proofs.Rendering
import LiveDoc.Proofs.Assignments
import LiveDoc.Proofs.Failures
import LiveDoc.Proofs.ReadBack
import LiveDoc.Proofs.Building
import LiveDoc.Proofs.Inclusion
import LiveDoc.Proofs.Cycles
import LiveDoc.Proofs.Growth
import LiveDoc.Proofs.Nodes
import LiveDoc.Proofs.Pairing
import LiveDoc.Proofs.Origin
import LiveDoc.Proofs.Receivers
import LiveDoc.Proofs.Alike
import LiveDoc.Proofs.Parallel
import LiveDoc.Proofs.Transparency
import LiveDoc.Proofs.Depth
import LiveDoc.Proofs.Lexemes
import LiveDoc.Proofs.Layout
import LiveDoc.Proofs.Blanks
import LiveDoc.Proofs.Expansion
import LiveDoc.Proofs.Changes
import LiveDoc.Proofs.Signals
import LiveDoc.Proofs.Parameters
import LiveDoc.Proofs.InlineFunctions
import LiveDoc.Proofs.PlainLines
import LiveDoc.Proofs.MultilineFunctions
import LiveDoc.Proofs.Detection
import LiveDoc.Proofs.CustomTokens
import LiveDoc.Proofs.PlainData
import LiveDoc.Proofs.Ownership
import LiveDoc.Proofs.Counting
import LiveDoc.Proofs.Retention
import LiveDoc.Proofs.Hosting
import LiveDoc.Proofs.Tiling
import LiveDoc.Proofs.QuotedTexts
import LiveDoc.Proofs.CompoundAssignments
import LiveDoc.Proofs.Readers
import LiveDoc.Proofs.Lookahead
import LiveDoc.Proofs.ParseErrors
import LiveDoc.Proofs.Heights
import LiveDoc.Proofs.Floats
import LiveDoc.Proofs.Names
import LiveDoc.Proofs.Equalities
import LiveDoc.Proofs.Tags
import LiveDoc.Proofs.RoundTrips
import LiveDoc.Proofs.ShortestDecimals
import LiveDoc.Proofs.NumberTexts
import LiveDoc.Proofs.KeyNames
import LiveDoc.Proofs.Entries
import LiveDoc.Proofs.IntegerArithmetic
import LiveDoc.Proofs.Progress
import LiveDoc.Proofs.Positions
import LiveDoc.Proofs.Rounding
import LiveDoc.Proofs.Doubles
import LiveDoc.Proofs.Conversions
import LiveDoc.Proofs.Ordering
