import NamespaceMigration.Main
import NamespaceMigration.Name.Context
import NamespaceMigration.Proofs.FirstCome
import NamespaceMigration.Proofs.Importing.Meaning
import NamespaceMigration.Proofs.Lexing.Lookahead
import NamespaceMigration.Proofs.Moving.Fallback
import NamespaceMigration.Reference.Doc
import NamespaceMigration.Reference.Scan
import NamespaceMigration.Proofs.Lexing.Heredoc
import NamespaceMigration.Proofs.Lexing.Respelling
import NamespaceMigration.Proofs.References.Respelling
import NamespaceMigration.Proofs.Rewriting.Comments
import NamespaceMigration.Proofs.Rewriting.Written
import NamespaceMigration.Proofs.Statements.Preservation
import NamespaceMigration.Proofs.Lexing.Pieces
import NamespaceMigration.Proofs.Rewriting.Qualified
import NamespaceMigration.Proofs.Rewriting.Respelled
import NamespaceMigration.Proofs.Rewriting.References
import NamespaceMigration.Proofs.Rewriting.Renaming
import NamespaceMigration.Proofs.Naming.Capitals
import NamespaceMigration.Proofs.Naming.History
import NamespaceMigration.Proofs.Naming.Segments
import NamespaceMigration.Proofs.Planning.Declared
import NamespaceMigration.Proofs.Planning.Spaces
import NamespaceMigration.Proofs.Naming.Signs
import NamespaceMigration.Proofs.Planning.Types
import NamespaceMigration.Proofs.Planning.Replanning
import NamespaceMigration.Proofs.Planning.Legality
import NamespaceMigration.Proofs.Planning.Targets
import NamespaceMigration.Proofs.Sealing.Acceptance
import NamespaceMigration.Proofs.Migration.Apart
import NamespaceMigration.Proofs.Migration.OwnFiles
import NamespaceMigration.Proofs.Planning.Accounting
import NamespaceMigration.Proofs.Planning.Stability
import NamespaceMigration.Proofs.Lexing.Joining
import NamespaceMigration.Proofs.Relocation.Blocks
import NamespaceMigration.Proofs.Relocation.Pieces
import NamespaceMigration.Proofs.Rendering.Alone
import NamespaceMigration.Proofs.Rendering.Directives
import NamespaceMigration.Proofs.Rendering.Files
import NamespaceMigration.Proofs.Rendering.Fragments
import NamespaceMigration.Proofs.Rendering.RoundTrip
import NamespaceMigration.Proofs.Moving.Merging
import NamespaceMigration.Proofs.Importing.Clashes
import NamespaceMigration.Proofs.Moving.OwnFile
import NamespaceMigration.Proofs.Moving.Extracted
import NamespaceMigration.Proofs.Planning.Spelling
import NamespaceMigration.Proofs.Planning.Lookup
import NamespaceMigration.Proofs.Migration.Conservation
import NamespaceMigration.Proofs.Rewriting.Requalifying
import NamespaceMigration.Proofs.Brackets.Matching
import NamespaceMigration.Proofs.Importing.Placement
import NamespaceMigration.Proofs.Statements.Ending
import NamespaceMigration.Proofs.References.SignatureTypes
import NamespaceMigration.Proofs.Moving.Cutting
import NamespaceMigration.Proofs.Moving.Declared
import NamespaceMigration.Proofs.Moving.Imports
import NamespaceMigration.Proofs.Statements.Directives
import NamespaceMigration.Proofs.Rewriting.Declarations
import NamespaceMigration.Proofs.Planning.Buckets
import NamespaceMigration.Proofs.Planning.Index
import NamespaceMigration.Proofs.Moving.Review
import NamespaceMigration.Proofs.Relocation.ImportTable
import NamespaceMigration.Proofs.Planning.Writable
import NamespaceMigration.Proofs.Relocation.ImportTargets
