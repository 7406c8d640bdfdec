import ValueNumbering.Arena.Basic
import ValueNumbering.Arena.Build
import ValueNumbering.Arena.Fold
import ValueNumbering.Arena.Push
import ValueNumbering.Digest
import ValueNumbering.Equality.Basic
import ValueNumbering.Equality.Lemmas
import ValueNumbering.Event
import ValueNumbering.Fault
import ValueNumbering.Flags
import ValueNumbering.Hash
import ValueNumbering.Ident
import ValueNumbering.Key
import ValueNumbering.Literal
import ValueNumbering.NodeKind
import ValueNumbering.Op
import ValueNumbering.Operator
import ValueNumbering.Proofs.CanonicalNumbers
import ValueNumbering.Proofs.CanonicalTerms
import ValueNumbering.Proofs.CheckedReads
import ValueNumbering.Proofs.ConstantValues
import ValueNumbering.Proofs.DeclaredTypes
import ValueNumbering.Proofs.Defining
import ValueNumbering.Proofs.DistinctKeys
import ValueNumbering.Proofs.FailedNumbering
import ValueNumbering.Proofs.FiniteMap
import ValueNumbering.Proofs.Growth
import ValueNumbering.Proofs.HashAgreement
import ValueNumbering.Proofs.Interning
import ValueNumbering.Proofs.KeySeparation
import ValueNumbering.Proofs.KnownValues
import ValueNumbering.Proofs.Ledger
import ValueNumbering.Proofs.Meaning
import ValueNumbering.Proofs.NumberingShape
import ValueNumbering.Proofs.OperationTrees
import ValueNumbering.Proofs.ProvenPairs
import ValueNumbering.Proofs.Pushes
import ValueNumbering.Proofs.ReadingBack
import ValueNumbering.Proofs.RecordedValues
import ValueNumbering.Proofs.RefusedCalls
import ValueNumbering.Proofs.RememberedHashes
import ValueNumbering.Proofs.Remembering
import ValueNumbering.Proofs.Reports
import ValueNumbering.Proofs.Representation
import ValueNumbering.Proofs.Runs
import ValueNumbering.Proofs.SessionSteps
import ValueNumbering.Proofs.SideEffects
import ValueNumbering.Proofs.StableAnswers
import ValueNumbering.Proofs.Stores
import ValueNumbering.Proofs.TableLayout
import ValueNumbering.Proofs.TableRefinement
import ValueNumbering.Proofs.TreeEquality
import ValueNumbering.Proofs.Twins
import ValueNumbering.Proofs.UsableValues
import ValueNumbering.Session
import ValueNumbering.Settings
import ValueNumbering.Span
import ValueNumbering.Table
import ValueNumbering.TypeAliases
import ValueNumbering.Value
import ValueNumbering.View
