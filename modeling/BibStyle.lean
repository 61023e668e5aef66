import BibStyle.Cursor
import BibStyle.Expect
import BibStyle.Main
import BibStyle.Revision
import BibStyle.Proofs.Acceptance
import BibStyle.Proofs.Closing
import BibStyle.Proofs.Fillers
import BibStyle.Proofs.Keywords
import BibStyle.Proofs.Lossless
import BibStyle.Proofs.Resync
import BibStyle.Proofs.Consistency
import BibStyle.Proofs.Trimming
import BibStyle.Proofs.Table
import BibStyle.Proofs.Numbering
import BibStyle.Proofs.Layout
import BibStyle.Proofs.LetterCase
import BibStyle.Proofs.Recasing
import BibStyle.Proofs.Munch
import BibStyle.Proofs.Diagnostics
import BibStyle.Proofs.Sharing
import BibStyle.Proofs.Braces
import BibStyle.Proofs.Tokenizing
import BibStyle.Proofs.Positions
import BibStyle.Proofs.Limits
import BibStyle.Proofs.Declarations
import BibStyle.Proofs.Forms
import BibStyle.Proofs.Drawn
import BibStyle.Proofs.Values
import BibStyle.Proofs.Lookahead
import BibStyle.Proofs.Rows
import BibStyle.Proofs.Indices
import BibStyle.Proofs.Arrangement
