import Dockerfile.Main
import Dockerfile.Server.Session
import Dockerfile.Proofs.File.Coverage
import Dockerfile.Proofs.File.Transparency
import Dockerfile.Proofs.File.Formatting
import Dockerfile.Proofs.File.Idempotence
import Dockerfile.Proofs.Text.RoundTrip
import Dockerfile.Proofs.Text.Buffer
import Dockerfile.Proofs.Scope.Environment
import Dockerfile.Proofs.Scope.Visibility
import Dockerfile.Proofs.Scope.Symbols
import Dockerfile.Proofs.Editor.Rename
import Dockerfile.Proofs.Editor.Mending
import Dockerfile.Proofs.Editor.Outline
import Dockerfile.Proofs.Server.Publication
import Dockerfile.Proofs.Server.Sequence
import Dockerfile.Proofs.Server.Schedule
import Dockerfile.Proofs.StringArray.Grammar
import Dockerfile.Proofs.Check.Settings
import Dockerfile.Proofs.Check.Places
import Dockerfile.Proofs.Check.Spelling
import Dockerfile.Proofs.Check.Onbuild
import Dockerfile.Proofs.Editor.Tokens
import Dockerfile.Proofs.Editor.Locality
import Dockerfile.Proofs.Checked.Analysis
import Dockerfile.Proofs.Quoting.Separation
import Dockerfile.Proofs.Quoting.Scanning
import Dockerfile.Proofs.Quoting.Declaration
import Dockerfile.Proofs.Quoting.Highlighting
import Dockerfile.Proofs.Editor.EmptyLines
import Dockerfile.Proofs.Editor.EscapeCharacter
import Dockerfile.Proofs.Editor.Labels
import Dockerfile.Proofs.Editor.DoubleQuotes
import Dockerfile.Proofs.StringArray.Faults
import Dockerfile.Proofs.Editor.OnType
import Dockerfile.Proofs.Editor.ImageTags
import Dockerfile.Proofs.Check.Durations
import Dockerfile.Proofs.Check.Volumes
import Dockerfile.Proofs.Text.LineTable
import Dockerfile.Proofs.Editor.Folding
import Dockerfile.Proofs.Scope.Nesting
import Dockerfile.Proofs.Body.Lexer
