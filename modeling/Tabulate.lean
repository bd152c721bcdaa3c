import Tabulate.Main
import Tabulate.Proofs.Dictionary
import Tabulate.Proofs.Tables
import Tabulate.Proofs.Declarations
import Tabulate.Proofs.Effects
import Tabulate.Proofs.Layouts
import Tabulate.Proofs.Makings
import Tabulate.Proofs.Columns
import Tabulate.Proofs.Coverage
import Tabulate.Proofs.References
import Tabulate.Proofs.Links
import Tabulate.Proofs.Skipping
import Tabulate.Proofs.Tolerance
import Tabulate.Proofs.Batches
import Tabulate.Proofs.Pool
import Tabulate.Proofs.Aliases
import Tabulate.Proofs.Moved
import Tabulate.Proofs.Marks
import Tabulate.Proofs.Cuts
import Tabulate.Proofs.Readings
import Tabulate.Proofs.Qualified
import Tabulate.Proofs.Transparency
import Tabulate.Proofs.Numbering
import Tabulate.Proofs.Files
import Tabulate.Proofs.Sheets
import Tabulate.Proofs.Stores
import Tabulate.Proofs.Headers
import Tabulate.Proofs.Outputs
import Tabulate.Proofs.Runs
import Tabulate.Proofs.Inputs
import Tabulate.Proofs.Agreement
import Tabulate.Proofs.Creations
import Tabulate.Proofs.Insertions
import Tabulate.Proofs.Limits
import Tabulate.Proofs.Splitting
import Tabulate.Proofs.Erasure
import Tabulate.Proofs.LineByLine
import Tabulate.Proofs.Order
import Tabulate.Proofs.Positions
import Tabulate.Proofs.Grammar
import Tabulate.Proofs.Readable
import Tabulate.Proofs.Written
import Tabulate.Proofs.RoundTrip
import Tabulate.Proofs.Axes
import Tabulate.Proofs.Chains
import Tabulate.Proofs.Bindings
import Tabulate.Proofs.OwnTags
import Tabulate.Proofs.Encoding
import Tabulate.Proofs.Concatenation
import Tabulate.Proofs.Spelling
import Tabulate.Proofs.Accepted
import Tabulate.Proofs.Registrations
import Tabulate.Proofs.Refusals
import Tabulate.Proofs.Composition
import Tabulate.Proofs.Offsets
import Tabulate.Proofs.Stops
import Tabulate.Proofs.Joining
import Tabulate.Proofs.Likeness
import Tabulate.Proofs.Flattening
import Tabulate.Proofs.Draining
import Tabulate.Proofs.Keys
import Tabulate.Proofs.Configuration
import Tabulate.Proofs.Loading
import Tabulate.Proofs.Growth
import Tabulate.Proofs.Readers
import Tabulate.Proofs.Prologs
import Tabulate.Proofs.Doctypes
import Tabulate.Proofs.Subsets
import Tabulate.Proofs.Inlining
import Tabulate.Proofs.Identifiers
import Tabulate.Proofs.Fitting
import Tabulate.Proofs.Fillings
import Tabulate.Proofs.Widths
import Tabulate.Proofs.Retrieval
import Tabulate.Proofs.Arrangements
import Tabulate.Proofs.Statements
import Tabulate.Proofs.Scanning
import Tabulate.Proofs.Confinement
import Tabulate.Proofs.Repeats
import Tabulate.Proofs.Words
import Tabulate.Proofs.Ways
import Tabulate.Proofs.Schemes
import Tabulate.Proofs.Locations
