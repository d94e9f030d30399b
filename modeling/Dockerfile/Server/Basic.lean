import Dockerfile.Protocol.Outgoing
import Dockerfile.Server.Store

/-!
# What the server knows

The server keeps the documents that are open, an analysis of each as long as it is up to date, the
settings of each document once it has asked for them, and the tags of each repository that Docker Hub
has once listed. The operations below are the only ones on this knowledge; each happens at once, and
everything the server does is made of them.
-/

namespace Dockerfile

structure DocumentSettings where
  checks : Settings := {}
  formatter : FormatterSettings := {}
  deriving DecidableEq, Repr, Inhabited

structure Document where
  text : Text := []
  version : Int := 0
  analysis : Option Analysis := none
  /-- Counts the changes of the text and of the settings. The counter of the server has 64 bits; no
  session comes to their end (`Conversation.within_run`). -/
  edition : Nat := 0
  deriving DecidableEq, Repr, Inhabited

/-- What an analysis is computed from, and the state of the document when that was read off. -/
structure Snapshot where
  uri : String
  text : Text
  version : Int
  edition : Nat
  checks : Settings
  deriving DecidableEq, Repr

inductive Phase where
  | starting
  | running
  /-- Asked to end: what was begun goes on, and requests are refused. -/
  | stopped
  /-- Gone: nothing is received or sent any more. -/
  | exited
  /-- Gone because a task could not be gone on with. -/
  | failed
  deriving DecidableEq, Repr, Inhabited

/-- The server is gone, and nothing that was begun goes on. -/
def Phase.isOver : Phase → Bool
  | exited | failed => true
  | starting | running | stopped => false

/-- What the server asks: the editor, and Docker Hub. -/
structure Client where
  /-- The answer to the question for the settings of one document or of all; none is an error. -/
  configuration : Option String → Option (List Json)
  /-- The tags that Docker Hub lists for a repository; none if it cannot be asked. -/
  tags : Text → Option (List Text)

/-- What the server knows. -/
structure Server where
  phase : Phase := .starting
  /-- Whether the editor can be asked for settings. -/
  canConfigure : Bool := false
  /-- How long to wait after a change before the document is validated. -/
  debounceMs : Nat := 250
  /-- How many analyses are computed at a time. A task that waits for its turn stands still, as a task
  may do for any time anyway. -/
  maxConcurrent : Nat := 2
  documents : Store Document := []
  settings : Store DocumentSettings := []
  /-- The tags by the repositories for which Docker Hub has listed them. -/
  tags : Store (List Text) := []
  deriving DecidableEq, Repr, Inhabited

namespace Client

/-- The section of settings that the editor holds, if it answers with one in good form. -/
def configuration? (client : Client) (scope : Option String) : Option Configuration :=
  (client.configuration scope).bind fun values => values.head?.bind Configuration.ofJson?

/-- The settings that the editor holds for a document; the defaults if it has no answer. -/
def documentSettings (client : Client) (uri : String) : DocumentSettings :=
  match client.configuration? (some uri) with
  | some section_ => ⟨section_.diagnostics, section_.formatter⟩
  | none => {}

end Client

namespace Document

/-- The text and the version after a change. A change that leaves the text as it was keeps the
analysis. -/
def change (document : Document) (version : Int) (changes : List Change) : Document :=
  let text := Buffer.applyChanges document.text changes
  if text = document.text ∧ document.analysis.isSome then { document with version }
  else { text, version, analysis := none, edition := document.edition + 1 }

/-- Drops the analysis, because settings changed. -/
def forget (document : Document) : Document :=
  { document with analysis := none, edition := document.edition + 1 }

/-- Keeps an analysis, unless the document changed since the snapshot. -/
def keep (document : Document) (snapshot : Snapshot) (analysis : Analysis) : Document :=
  if document.version = snapshot.version ∧ document.edition = snapshot.edition then
    { document with analysis := some analysis }
  else document

def snapshot (document : Document) (uri : String) (checks : Settings) : Snapshot :=
  ⟨uri, document.text, document.version, document.edition, checks⟩

end Document

namespace Snapshot

def analysis (snapshot : Snapshot) : Analysis :=
  analyze snapshot.text snapshot.checks

end Snapshot

namespace Server

def openDocument (server : Server) (uri : String) (version : Int) (text : Text) : Server :=
  { server with documents := server.documents.insert uri { text, version } }

/-- Changes a document. One that is not open is taken to be open with an empty text. -/
def changeDocument (server : Server) (uri : String) (version : Int) (changes : List Change) :
    Server :=
  let document := (server.documents.get? uri).getD {}
  { server with documents := server.documents.insert uri (document.change version changes) }

def closeDocument (server : Server) (uri : String) : Server :=
  { server with
    documents := server.documents.erase uri
    settings := server.settings.erase uri }

def forgetAnalysis (server : Server) (uri : String) : Server :=
  { server with documents := server.documents.modify uri Document.forget }

/-- Keeps the analysis of a snapshot, unless its document changed since. -/
def keepAnalysis (server : Server) (snapshot : Snapshot) : Server :=
  { server with
    documents := server.documents.modify snapshot.uri fun document =>
      document.keep snapshot snapshot.analysis }

def keepSettings (server : Server) (uri : String) (settings : DocumentSettings) : Server :=
  { server with settings := server.settings.insert uri settings }

def dropSettings (server : Server) : Server :=
  { server with settings := [] }

/-- Takes over what a section says about the server as a whole. No computations at a time is not
heeded. -/
def configure (server : Server) (section_ : Option Configuration) : Server :=
  match section_ with
  | none => server
  | some s =>
      { server with
        maxConcurrent := (s.performance.maxConcurrent.filter (0 < ·)).getD server.maxConcurrent
        debounceMs := s.performance.debounceMs.getD server.debounceMs }

/-- The most permits that a semaphore can give, in a word of 64 bits. -/
def maxPermits : Nat :=
  (UInt64.size - 1) >>> 3

/-- No semaphore gives as many permits as there are to be computations at a time. -/
def overtaxed (server : Server) : Bool :=
  maxPermits < server.maxConcurrent

/-- The tags of a repository, if Docker Hub has listed them. -/
def tags? (server : Server) (repository : Text) : Option (List Text) :=
  server.tags.get? (String.ofList repository)

def keepTags (server : Server) (repository : Text) (tags : List Text) : Server :=
  { server with tags := server.tags.insert (String.ofList repository) tags }

/-- The addresses and versions of the documents that are open, in the order in which they were opened.
That order stands for any other: nothing below depends on it. -/
def versions (server : Server) : List (String × Int) :=
  server.documents.map fun entry => (entry.1, entry.2.version)

@[simp] theorem length_versions (server : Server) :
    server.versions.length = server.documents.length := by
  simp [versions]

@[simp] theorem length_forgetAnalysis (server : Server) (uri : String) :
    (server.forgetAnalysis uri).documents.length = server.documents.length := by
  simp [forgetAnalysis]

@[simp] theorem length_keepAnalysis (server : Server) (snapshot : Snapshot) :
    (server.keepAnalysis snapshot).documents.length = server.documents.length := by
  simp [keepAnalysis]

@[simp] theorem documents_keepSettings (server : Server) (uri : String)
    (settings : DocumentSettings) :
    (server.keepSettings uri settings).documents = server.documents := rfl

@[simp] theorem documents_configure (server : Server) (section_ : Option Configuration) :
    (server.configure section_).documents = server.documents := by
  unfold configure
  split <;> rfl

@[simp] theorem documents_keepTags (server : Server) (repository : Text) (tags : List Text) :
    (server.keepTags repository tags).documents = server.documents := rfl

end Server

end Dockerfile
