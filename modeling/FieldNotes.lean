import FieldNotes.Session
import FieldNotes.Field.Tagged
import FieldNotes.Derive.Listing
import FieldNotes.Derive.Table
import FieldNotes.Derive.Code
import FieldNotes.Samples.Types
import FieldNotes.Samples.Handlers
import FieldNotes.Proofs.Lens
import FieldNotes.Proofs.Nested
import FieldNotes.Proofs.Refinement
import FieldNotes.Proofs.Follows
import FieldNotes.Proofs.Memo
import FieldNotes.Proofs.Usage
import FieldNotes.Proofs.Transparency
import FieldNotes.Proofs.Accounting
import FieldNotes.Proofs.Typing
import FieldNotes.Proofs.Bundled
import FieldNotes.Proofs.Ahead
import FieldNotes.Proofs.Settling
import FieldNotes.Proofs.Begetting
import FieldNotes.Proofs.Termination
import FieldNotes.Proofs.Bytes
import FieldNotes.Proofs.Grammar
import FieldNotes.Proofs.Scanner
import FieldNotes.Proofs.Tokens
import FieldNotes.Proofs.Annotations
import FieldNotes.Proofs.Trail
import FieldNotes.Proofs.PathValidity
import FieldNotes.Proofs.History
import FieldNotes.Proofs.IgnoredFailure
import FieldNotes.Proofs.FailFast
import FieldNotes.Proofs.Tables
import FieldNotes.Proofs.Joined
import FieldNotes.Proofs.Outline
import FieldNotes.Proofs.Frame
import FieldNotes.Proofs.Stops
import FieldNotes.Proofs.Alike
import FieldNotes.Proofs.StoppedField
import FieldNotes.Proofs.Suppression
import FieldNotes.Proofs.Blanks
import FieldNotes.Proofs.Whole
import FieldNotes.Proofs.Filling
import FieldNotes.Proofs.Literals
import FieldNotes.Proofs.Again
import FieldNotes.Proofs.Refilling
import FieldNotes.Proofs.WalkOrder
import FieldNotes.Proofs.Numerals
import FieldNotes.Proofs.Amounts
import FieldNotes.Proofs.Unquoting
import FieldNotes.Proofs.Closing
import FieldNotes.Proofs.Refusals
import FieldNotes.Proofs.Zeros
import FieldNotes.Proofs.Resolution
import FieldNotes.Proofs.ErrorNames
import FieldNotes.Proofs.Fallbacks
import FieldNotes.Proofs.References
import FieldNotes.Proofs.Shapes
import FieldNotes.Proofs.Plans
import FieldNotes.Proofs.Planned
import FieldNotes.Proofs.Chronicle
import FieldNotes.Proofs.FieldVisits
import FieldNotes.Proofs.Faithful
import FieldNotes.Proofs.Loans
import FieldNotes.Proofs.Listings
import FieldNotes.Proofs.Violations
import FieldNotes.Proofs.Spacing
