import KeywordEngine.Text.Case
import KeywordEngine.Text.Blank
import KeywordEngine.Text.Decimal
import KeywordEngine.Text.Hexadecimal
import KeywordEngine.SortedMap
import KeywordEngine.Module
import KeywordEngine.Json
import KeywordEngine.Json.Token
import KeywordEngine.Json.Reader
import KeywordEngine.Value
import KeywordEngine.Metadata.TypeName
import KeywordEngine.Constraint
import KeywordEngine.Constraint.Coercion
import KeywordEngine.Keyword.Mode
import KeywordEngine.Keyword.Spec
import KeywordEngine.Keyword.Validation
import KeywordEngine.Metadata.Record
import KeywordEngine.Metadata.Marker
import KeywordEngine.Discovery
import KeywordEngine.Keyword.Document
import KeywordEngine.Keyword
import KeywordEngine.Script
import KeywordEngine.Hook
import KeywordEngine.Fragment
import KeywordEngine.Invocation.Error
import KeywordEngine.Invocation.Arguments
import KeywordEngine.Instance
import KeywordEngine.Implementation
import KeywordEngine.Log.Event
import KeywordEngine.Binding.Module
import KeywordEngine.Binding
import KeywordEngine.Invocation.Properties
import KeywordEngine.Invocation.Nesting
import KeywordEngine.Compilation
import KeywordEngine.Scope
import KeywordEngine.Execution
import KeywordEngine.Store.Error
import KeywordEngine.Store.Name
import KeywordEngine.Store.Row
import KeywordEngine.Store
import KeywordEngine.Store.Count
import KeywordEngine.Store.Edit
import KeywordEngine.Store.File
import KeywordEngine.Registry
import KeywordEngine.Log.File
import KeywordEngine.Log.Logger
import KeywordEngine.Listing
import KeywordEngine.CommandLine
import KeywordEngine.Main
import KeywordEngine.Proofs.Success
import KeywordEngine.Proofs.Lookup
import KeywordEngine.Proofs.ParameterSets
import KeywordEngine.Proofs.Coercion
import KeywordEngine.Proofs.Tree
import KeywordEngine.Proofs.Meaning
import KeywordEngine.Proofs.Folding
import KeywordEngine.Proofs.ArgumentBinding
import KeywordEngine.Proofs.Compilation
import KeywordEngine.Proofs.Emission
import KeywordEngine.Proofs.Machine
import KeywordEngine.Proofs.Simulation
import KeywordEngine.Proofs.Bracketing
import KeywordEngine.Proofs.ScopeErasure
import KeywordEngine.Proofs.Declaration
import KeywordEngine.Proofs.Discovery
import KeywordEngine.Proofs.AcceptedArguments
import KeywordEngine.Proofs.Forest
import KeywordEngine.Proofs.Nesting
import KeywordEngine.Proofs.Registry
import KeywordEngine.Proofs.Resolution
import KeywordEngine.Proofs.BindingHistory
import KeywordEngine.Proofs.Conformance
import KeywordEngine.Proofs.ScopeHistory
import KeywordEngine.Proofs.Unwinding
import KeywordEngine.Proofs.Sequencing
import KeywordEngine.Proofs.ParseProtocol
import KeywordEngine.Proofs.Failure
import KeywordEngine.Proofs.ErrorLocation
import KeywordEngine.Proofs.EnumConstraint
import KeywordEngine.Proofs.LexicalEnums
import KeywordEngine.Proofs.Addressing
import KeywordEngine.Proofs.LoadHistory
import KeywordEngine.Proofs.StoreHistory
import KeywordEngine.Proofs.StoreDeletion
import KeywordEngine.Proofs.RegistrationIsolation
import KeywordEngine.Proofs.BindingIsolation
import KeywordEngine.Proofs.ListingIndependence
import KeywordEngine.Proofs.RollingLog
import KeywordEngine.Proofs.LogHistory
import KeywordEngine.Proofs.RegistrationOrder
import KeywordEngine.Proofs.ArgumentOrder
import KeywordEngine.Proofs.HashtableBody
import KeywordEngine.Proofs.Spelling
import KeywordEngine.Proofs.CaseInsensitivity
import KeywordEngine.Proofs.TypeRank
import KeywordEngine.Proofs.EnumMembers
import KeywordEngine.Proofs.Positions
import KeywordEngine.Proofs.ParameterMarkers
