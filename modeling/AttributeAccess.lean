import AttributeAccess.AccessPolicy.Basic
import AttributeAccess.AccessPolicy.Combinations
import AttributeAccess.AccessPolicy.Equivalence
import AttributeAccess.AccessPolicy.Grouped
import AttributeAccess.AccessPolicy.JsonForm
import AttributeAccess.Attribute
import AttributeAccess.Axis
import AttributeAccess.CommandLine.Arguments
import AttributeAccess.CommandLine.Directory
import AttributeAccess.CommandLine.Run
import AttributeAccess.Decimal
import AttributeAccess.Document.AxisForm
import AttributeAccess.Document.Basic
import AttributeAccess.Document.Consistency
import AttributeAccess.Document.Issue
import AttributeAccess.Document.Reading
import AttributeAccess.Exchange
import AttributeAccess.Expression.Groups
import AttributeAccess.Expression.Parser
import AttributeAccess.Expression.Spaces
import AttributeAccess.Expression.Writer
import AttributeAccess.Fault
import AttributeAccess.Hint
import AttributeAccess.Json.Basic
import AttributeAccess.Json.Reader
import AttributeAccess.Json.Writer
import AttributeAccess.LogContext
import AttributeAccess.Main
import AttributeAccess.Misuse
import AttributeAccess.NativeCall
import AttributeAccess.OrderedMap
import AttributeAccess.Payload
import AttributeAccess.Proofs.AccessPolicy.Enumeration
import AttributeAccess.Proofs.AccessPolicy.Equivalence
import AttributeAccess.Proofs.AccessPolicy.Grouped
import AttributeAccess.Proofs.AccessPolicy.Hierarchy
import AttributeAccess.Proofs.AccessPolicy.JsonForm
import AttributeAccess.Proofs.AccessPolicy.Labelling
import AttributeAccess.Proofs.AccessPolicy.NormalForm
import AttributeAccess.Proofs.AccessPolicy.Regrouping
import AttributeAccess.Proofs.Attribute
import AttributeAccess.Proofs.Document.Acceptance
import AttributeAccess.Proofs.Document.Reading
import AttributeAccess.Proofs.Document.RoundTrip
import AttributeAccess.Proofs.Document.Shape
import AttributeAccess.Proofs.Document.WellFormed
import AttributeAccess.Proofs.Except
import AttributeAccess.Proofs.Exchange
import AttributeAccess.Proofs.Exchange.Axes
import AttributeAccess.Proofs.Exchange.Session
import AttributeAccess.Proofs.Expression.Completeness
import AttributeAccess.Proofs.Expression.Faults
import AttributeAccess.Proofs.Expression.Gaps
import AttributeAccess.Proofs.Expression.Grammar
import AttributeAccess.Proofs.Expression.Groups
import AttributeAccess.Proofs.Expression.Layout
import AttributeAccess.Proofs.Expression.Literals
import AttributeAccess.Proofs.Expression.Nesting
import AttributeAccess.Proofs.Expression.Parser
import AttributeAccess.Proofs.Expression.Passes
import AttributeAccess.Proofs.Expression.Rereading
import AttributeAccess.Proofs.Expression.Shape
import AttributeAccess.Proofs.Expression.Spaces
import AttributeAccess.Proofs.Expression.Writer
import AttributeAccess.Proofs.Json.RoundTrip
import AttributeAccess.Proofs.Json.WellFormed
import AttributeAccess.Proofs.NativeCall.Buffer
import AttributeAccess.Proofs.NativeCall.LastError
import AttributeAccess.Proofs.OrderedMap
import AttributeAccess.Proofs.Registry.Addition
import AttributeAccess.Proofs.Registry.Agreement
import AttributeAccess.Proofs.Registry.Capacity
import AttributeAccess.Proofs.Registry.CurrentSlot
import AttributeAccess.Proofs.Registry.Freshness
import AttributeAccess.Proofs.Registry.History
import AttributeAccess.Proofs.Registry.Layouts
import AttributeAccess.Proofs.Registry.Ledger
import AttributeAccess.Proofs.Registry.Legacy
import AttributeAccess.Proofs.Registry.Listing
import AttributeAccess.Proofs.Registry.Migration
import AttributeAccess.Proofs.Registry.Persistence
import AttributeAccess.Proofs.Registry.Reload
import AttributeAccess.Proofs.Registry.Resolution
import AttributeAccess.Proofs.Registry.Rotation
import AttributeAccess.Proofs.Registry.Run
import AttributeAccess.Proofs.Text.Blank
import AttributeAccess.Proofs.Text.Digits
import AttributeAccess.Proofs.Text.Rows
import AttributeAccess.Proofs.Text.Search
import AttributeAccess.Proofs.Text.Thinning
import AttributeAccess.Proofs.Text.Utf8
import AttributeAccess.Proofs.Text.WellFormed
import AttributeAccess.Registry.Basic
import AttributeAccess.Registry.Event
import AttributeAccess.Registry.Persistence
import AttributeAccess.Settings
import AttributeAccess.Settings.IntegerText
import AttributeAccess.Settings.VariableFile
import AttributeAccess.Slot
import AttributeAccess.Text.Basic
import AttributeAccess.Text.Blank
import AttributeAccess.Text.CodePoint
import AttributeAccess.Text.DecimalDigit
import AttributeAccess.Text.Digits
import AttributeAccess.Text.Encoding
import AttributeAccess.Text.Printing
import AttributeAccess.Text.Quoted
import AttributeAccess.Text.Utf8
import AttributeAccess.Text.WellFormed
