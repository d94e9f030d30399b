import Dockerfile.Check.File
import Dockerfile.Scope.Symbol

/-!
# Analyses

All that is known about a text: its parts, its scopes and its diagnostics. Everything an editor asks
for is computed from an analysis.
-/

namespace Dockerfile

/-- A text and what is known about it. -/
structure Analysis where
  text : Text
  file : File
  scopes : ScopeTable
  diagnostics : List Diagnostic
  deriving DecidableEq, Repr

/-- Analyses a text. This never fails: whatever is wrong becomes a diagnostic. -/
def analyze (text : Text) (settings : Settings) : Analysis :=
  let file := File.parse text
  let scopes := ScopeTable.ofFile file
  ⟨text, file, scopes, Check.diagnostics text file scopes settings⟩

end Dockerfile
