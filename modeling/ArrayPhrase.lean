import ArrayPhrase.Interpreter
import ArrayPhrase.Settings
import ArrayPhrase.TokenCache
import ArrayPhrase.Floating.Bits
import ArrayPhrase.Proofs.Canonical
import ArrayPhrase.Proofs.Phrasing
import ArrayPhrase.Proofs.PhraseSemantics
import ArrayPhrase.Proofs.Faults
import ArrayPhrase.Proofs.OpenEnd
import ArrayPhrase.Proofs.Composition
import ArrayPhrase.Proofs.Grading
import ArrayPhrase.Proofs.Integral
import ArrayPhrase.Proofs.TypedFaults
import ArrayPhrase.Proofs.Consumption
import ArrayPhrase.Proofs.Tokenization
import ArrayPhrase.Proofs.Spacing
import ArrayPhrase.Proofs.Naturality
import ArrayPhrase.Proofs.Merging
import ArrayPhrase.Proofs.Recency
import ArrayPhrase.Proofs.InsertOrder
import ArrayPhrase.Proofs.WholeValues
import ArrayPhrase.Proofs.Sorting
import ArrayPhrase.Proofs.Numerals
import ArrayPhrase.Proofs.Shapes
import ArrayPhrase.Proofs.Unification
import ArrayPhrase.Proofs.Filling
import ArrayPhrase.Proofs.Columns
import ArrayPhrase.Proofs.SuffixTotals
import ArrayPhrase.Proofs.Regrouping
import ArrayPhrase.Proofs.Offenders
import ArrayPhrase.Proofs.Regrading
import ArrayPhrase.Proofs.Portions
import ArrayPhrase.Proofs.Rotation
import ArrayPhrase.Proofs.Addends
import ArrayPhrase.Proofs.Refilling
import ArrayPhrase.Proofs.Literals
import ArrayPhrase.Proofs.Cancellation
import ArrayPhrase.Proofs.Agreement
import ArrayPhrase.Proofs.WholeResults
import ArrayPhrase.Proofs.Duplicates
import ArrayPhrase.Proofs.Calls
import ArrayPhrase.Proofs.Quoting
