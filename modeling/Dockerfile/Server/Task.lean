import Dockerfile.Server.Basic

/-!
# Tasks

A task is work that the server has begun and not finished. It goes on in steps, and between two of
its steps anything else may happen: other messages arrive, other tasks go on, documents change. The
constructors of `Task` are the places where a task can stand still, and `Task.step` is what it does
next. A task whose validation is delayed stands still as a `Timer` until it is due.

Main statement: every step leaves less to do (`Task.step_weight`), so every task comes to its end.
-/

namespace Dockerfile

structure Inquiry where
  /-- The number of the request. -/
  id : Nat
  uri : String
  question : Question
  formatter : FormatterSettings := {}
  deriving DecidableEq, Repr

inductive Purpose where
  /-- To format the document. -/
  | format (inquiry : Inquiry)
  /-- To analyse the document for an answer. -/
  | answer (inquiry : Inquiry)
  /-- To validate a version of the document after a delay, and then other documents. -/
  | validate (uri : String) (version : Int) (delay : Nat) (later : List (String × Int))
  deriving DecidableEq, Repr

structure Timer where
  due : Nat
  uri : String
  version : Int
  checks : Settings
  deriving DecidableEq, Repr

/-- Work that is not finished, by what comes next. -/
inductive Task where
  /-- Look up the settings of a document. -/
  | findSettings (purpose : Purpose)
  /-- Take the editor's answer about the settings of a document. -/
  | takeSettings (purpose : Purpose)
  /-- Answer from the analysis that was kept, if there is one. -/
  | consult (inquiry : Inquiry)
  /-- Read off what the analysis for an answer is computed from. -/
  | capture (inquiry : Inquiry) (checks : Settings)
  /-- Compute the analysis, keep it, and answer from it. -/
  | conclude (inquiry : Inquiry) (snapshot : Snapshot)
  /-- Take the answer of Docker Hub about the tags of a repository, and answer from an analysis. -/
  | takeTags (inquiry : Inquiry) (repository : Text) (a : Analysis)
  /-- See whether a validation that is due is still wanted. -/
  | inspect (timer : Timer)
  /-- Say that a validation begins. -/
  | announce (snapshot : Snapshot)
  /-- Compute the analysis, keep it, and publish what it reports. -/
  | report (snapshot : Snapshot)
  /-- Take the editor's answer about the settings of the server, and then validate all documents
  if so wanted. -/
  | takeConfiguration (revalidates : Bool)
  /-- Validate documents anew. -/
  | revalidate (documents : List (String × Int))
  deriving DecidableEq, Repr

/-- What a step, or the arrival of a message, leads to. -/
structure Outcome where
  server : Server
  /-- What remains to be done. -/
  tasks : List Task := []
  /-- What waits until it is due. -/
  timers : List Timer := []
  /-- What is sent, in order. -/
  sent : List Outgoing := []

namespace Inquiry

/-- What is sent to answer from an analysis: an edit is sent before the reply. -/
def replies (tags : List Text) (inquiry : Inquiry) (a : Analysis) : List Outgoing :=
  ((inquiry.question.edit? a).map Outgoing.applyEdit).toList ++
    [.reply inquiry.id
      (.ok (inquiry.question.answer tags inquiry.uri inquiry.formatter a))]

/-- How an answer goes on once there is an analysis: Docker Hub is asked for tags that are needed and
not known. -/
def respond (server : Server) (inquiry : Inquiry) (a : Analysis) : Outcome :=
  match inquiry.question.repository? a with
  | none => { server, sent := inquiry.replies [] a }
  | some repository =>
      match server.tags? repository with
      | some tags => { server, sent := inquiry.replies tags a }
      | none => { server, tasks := [.takeTags inquiry repository a] }

/-- What is sent if the document is not open. -/
def unopened (inquiry : Inquiry) : List Outgoing :=
  [.reply inquiry.id (.ok inquiry.question.unopened)]

end Inquiry

namespace Purpose

def uri : Purpose → String
  | format inquiry | answer inquiry => inquiry.uri
  | validate uri _ _ _ => uri

/-- What comes next once the settings are known. -/
def go (now : Nat) (server : Server) (settings : DocumentSettings) : Purpose → Outcome
  | format inquiry =>
      { server, tasks := [.consult { inquiry with formatter := settings.formatter }] }
  | answer inquiry => { server, tasks := [.capture inquiry settings.checks] }
  | validate uri version delay later =>
      { server
        tasks := [.revalidate later]
        timers := [⟨now + delay, uri, version, settings.checks⟩] }

end Purpose

namespace Task

def step (client : Client) (now : Nat) (server : Server) : Task → Outcome
  | findSettings purpose =>
      match server.settings.get? purpose.uri with
      | some settings => purpose.go now server settings
      | none =>
          if server.canConfigure then
            { server
              tasks := [.takeSettings purpose]
              sent := [.askConfiguration (some purpose.uri)] }
          else purpose.go now (server.keepSettings purpose.uri {}) {}
  | takeSettings purpose =>
      let settings := client.documentSettings purpose.uri
      purpose.go now (server.keepSettings purpose.uri settings) settings
  | consult inquiry =>
      match (server.documents.get? inquiry.uri).bind Document.analysis with
      | some a => inquiry.respond server a
      | none => { server, tasks := [.findSettings (.answer inquiry)] }
  | capture inquiry checks =>
      match server.documents.get? inquiry.uri with
      | some document =>
          { server, tasks := [.conclude inquiry (document.snapshot inquiry.uri checks)] }
      | none => { server, sent := inquiry.unopened }
  | conclude inquiry snapshot => inquiry.respond (server.keepAnalysis snapshot) snapshot.analysis
  | takeTags inquiry repository a =>
      match client.tags repository with
      | some tags =>
          { server := server.keepTags repository tags, sent := inquiry.replies tags a }
      | none => { server, sent := inquiry.replies [] a }
  | inspect timer =>
      match server.documents.get? timer.uri with
      | none => { server }
      | some document =>
          if document.version = timer.version then
            match document.analysis with
            | some a => { server, sent := [.publish timer.uri (some document.version) a.reports] }
            | none =>
                { server
                  tasks := [.announce (document.snapshot timer.uri timer.checks)]
                  sent := [.createProgress timer.uri] }
          else { server }
  | announce snapshot =>
      { server, tasks := [.report snapshot], sent := [.beginProgress snapshot.uri] }
  | report snapshot =>
      { server := server.keepAnalysis snapshot
        sent := [.publish snapshot.uri (some snapshot.version) snapshot.analysis.reports,
          .endProgress snapshot.uri] }
  | takeConfiguration revalidates =>
      let server := server.configure (client.configuration? none)
      { server, tasks := if revalidates then [.revalidate server.versions] else [] }
  | revalidate [] => { server }
  | revalidate ((uri, version) :: later) =>
      { server := server.forgetAnalysis uri
        tasks := [.findSettings (.validate uri version 0 later)] }

/-- A task that cannot be gone on with: it would compute more at a time than a semaphore gives permits
for. The server ends with it. -/
def fails (client : Client) (server : Server) : Task → Bool
  | takeConfiguration _ => (server.configure (client.configuration? none)).overtaxed
  | _ => false

/-- How much remains to be done once settings are known. -/
def weightAfter : Purpose → Nat
  | .format _ => 6
  | .answer _ => 3
  | .validate _ _ _ later => 3 * later.length + 1

/-- How much remains to be done if so many documents are open. -/
def weight (documents : Nat) : Task → Nat
  | findSettings purpose => weightAfter purpose + 2
  | takeSettings purpose => weightAfter purpose + 1
  | consult _ => 6
  | capture _ _ => 3
  | conclude _ _ => 2
  | takeTags _ _ _ => 1
  | inspect _ => 3
  | announce _ => 2
  | report _ => 1
  | takeConfiguration _ => 3 * documents + 2
  | revalidate documents => 3 * documents.length + 1

def totalWeight (documents : Nat) (tasks : List Task) : Nat :=
  total (weight documents) tasks

theorem totalWeight_cons (documents : Nat) (task : Task) (rest : List Task) :
    totalWeight documents (task :: rest) = weight documents task + totalWeight documents rest := by
  simp [totalWeight]

theorem totalWeight_append (documents : Nat) (a b : List Task) :
    totalWeight documents (a ++ b) = totalWeight documents a + totalWeight documents b := by
  simp [totalWeight]

@[simp] theorem server_go (now : Nat) (server : Server) (settings : DocumentSettings)
    (purpose : Purpose) : (purpose.go now server settings).server = server := by
  cases purpose <;> rfl

@[simp] theorem totalWeight_go (now documents : Nat) (server : Server)
    (settings : DocumentSettings) (purpose : Purpose) :
    totalWeight documents (purpose.go now server settings).tasks = weightAfter purpose := by
  cases purpose <;> simp [Purpose.go, totalWeight, weight, weightAfter]

@[simp] theorem server_respond (server : Server) (inquiry : Inquiry) (a : Analysis) :
    (inquiry.respond server a).server = server := by
  unfold Inquiry.respond
  split
  · rfl
  · split <;> rfl

theorem totalWeight_respond (documents : Nat) (server : Server) (inquiry : Inquiry) (a : Analysis) :
    totalWeight documents (inquiry.respond server a).tasks < 2 := by
  unfold Inquiry.respond
  split
  · simp [totalWeight]
  · split <;> simp [totalWeight, weight]

/-- A step keeps the number of documents and leaves less to do. -/
theorem step_weight (client : Client) (now : Nat) (server : Server) (task : Task) :
    (task.step client now server).server.documents.length = server.documents.length ∧
      totalWeight server.documents.length (task.step client now server).tasks <
        weight server.documents.length task := by
  cases task with
  | findSettings purpose =>
      simp only [step]
      split
      · simp [weight]
      · split
        · simp [totalWeight, weight]
        · simp [weight]
  | takeSettings purpose => simp [step, weight]
  | consult inquiry =>
      simp only [step]
      split
      · refine ⟨by simp, Nat.lt_trans (totalWeight_respond _ _ _ _) ?_⟩
        simp [weight]
      · simp [totalWeight, weight, weightAfter]
  | capture inquiry checks =>
      simp only [step]
      split <;> simp [totalWeight, weight]
  | conclude inquiry snapshot =>
      simp only [step]
      refine ⟨by simp, ?_⟩
      simpa [weight] using totalWeight_respond _ _ inquiry snapshot.analysis
  | takeTags inquiry repository a =>
      simp only [step]
      split <;> simp [totalWeight, weight]
  | inspect timer =>
      simp only [step]
      split
      · simp [totalWeight, weight]
      · split
        · split <;> simp [totalWeight, weight]
        · simp [totalWeight, weight]
  | announce snapshot => simp [step, totalWeight, weight]
  | report snapshot => simp [step, totalWeight, weight]
  | takeConfiguration revalidates =>
      cases revalidates <;> simp [step, totalWeight, weight]
  | revalidate documents =>
      cases documents with
      | nil => simp [step, totalWeight, weight]
      | cons entry later => simp [step, totalWeight, weight, weightAfter]; omega

end Task

end Dockerfile
