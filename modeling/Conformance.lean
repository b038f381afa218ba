import Conformance.Proofs.Acceptance
import Conformance.Proofs.Provenance
import Conformance.Proofs.Reporting
import Conformance.Proofs.Truncation
import Conformance.Spec.Build
import Conformance.OrderedMap.Matching
import Conformance.Proofs.EqualValues
import Conformance.Spec.Equality
import Conformance.Spec.WellFormed
import Conformance.Proofs.EqualSpecs
import Conformance.Proofs.Horizon
import Conformance.Proofs.Locations
import Conformance.Proofs.History
import Conformance.Proofs.Loading
import Conformance.Proofs.Unambiguity
import Conformance.Proofs.Limits
import Conformance.Proofs.LineBreaks
import Conformance.Proofs.Coverage
import Conformance.Proofs.RootName
import Conformance.Spec.Context
import Conformance.Proofs.Replacement
import Conformance.Spec.Normal
import Conformance.Proofs.Unwrapping
import Conformance.Proofs.PlainTables
import Conformance.Proofs.Undeclared
import Conformance.OrderedMap.Merging
import Conformance.Proofs.Extension
import Conformance.Proofs.ValueEquality
import Conformance.Proofs.ValueText
import Conformance.Proofs.Scanning
import Conformance.Proofs.Sequences
import Conformance.Proofs.NumberKeys
import Conformance.Proofs.EqualDocuments
import Conformance.Binary64.Nearest
import Conformance.Proofs.CanonicalKeys
import Conformance.Proofs.NumberReading
import Conformance.Proofs.KeysAsValues
import Conformance.Proofs.SettingsDocuments
