import Mathlib.Data.List.Perm.Basic
import Dockerfile.Server.Session

/-!
# What is in flight

What the tasks and timers of a session carry with them: settings that were read, snapshots whose
analysis is not computed yet, validations that are begun, documents that are still to be looked at.
The lemmas say what a message, and the start of a timer, do to each of these and to what the server
knows. A message brings only tasks that carry nothing yet (`Task.isFresh_carries_nothing`), and it
leaves all documents alone but the one that it is about (`Server.get?_heed_of_ne`).
-/

namespace Dockerfile

/-- A request that neither begins nor ends a session. -/
def Request.isOrdinary : Request → Bool
  | .start _ | .shutdown => false
  | _ => true

def Notification.about? : Notification → Option String
  | .opened uri _ _ | .changed uri _ _ | .closed uri => some uri
  | .initialized | .configurationChanged => none

/-- The settings of the server that the editor holds ask for more permits than a semaphore gives. -/
def Client.overtaxes (client : Client) : Bool :=
  ((client.configuration? none).bind fun s => s.performance.maxConcurrent).any
    (Server.maxPermits < ·)

/-- The settings that the editor reports for a document; the defaults if it cannot be asked. -/
def Server.reported (client : Client) (server : Server) (uri : String) : DocumentSettings :=
  if server.canConfigure then client.documentSettings uri else {}

def Purpose.later : Purpose → List (String × Int)
  | validate _ _ _ later => later
  | _ => []

/-- The documents that are going to be looked at once settings are known, in the versions in which
that is wanted. -/
def Purpose.due : Purpose → List (String × Int)
  | validate uri version _ later => (uri, version) :: later
  | _ => []

def Purpose.inquiry? : Purpose → Option Inquiry
  | format inquiry | answer inquiry => some inquiry
  | validate _ _ _ _ => none

namespace Task

/-- The settings with which a task is going to read off its document. -/
def held? : Task → Option (String × Settings)
  | capture inquiry checks => some (inquiry.uri, checks)
  | inspect timer => some (timer.uri, timer.checks)
  | _ => none

def snapshot? : Task → Option Snapshot
  | conclude _ snapshot | announce snapshot | report snapshot => some snapshot
  | _ => none

/-- The documents whose analyses a task is still going to drop, with the versions they had when it
began. -/
def awaiting : Task → List (String × Int)
  | findSettings purpose | takeSettings purpose => purpose.later
  | revalidate documents => documents
  | _ => []

def inquiry? : Task → Option Inquiry
  | findSettings purpose | takeSettings purpose => purpose.inquiry?
  | consult inquiry | capture inquiry _ | conclude inquiry _ | takeTags inquiry _ _ => some inquiry
  | _ => none

def validation? : Task → Option Snapshot
  | announce snapshot | report snapshot => some snapshot
  | _ => none

def timer? : Task → Option Timer
  | inspect timer => some timer
  | _ => none

def isLate : Task → Bool
  | inspect _ | announce _ | report _ => true
  | _ => false

/-- The documents that a task is going to look at, in the versions in which that is wanted. -/
def due : Task → List (String × Int)
  | findSettings purpose | takeSettings purpose => purpose.due
  | inspect timer => [(timer.uri, timer.version)]
  | revalidate documents => documents
  | _ => []

def isConfiguring : Task → Bool
  | takeConfiguration _ => true
  | _ => false

def isFresh : Task → Bool
  | findSettings _ | consult _ | takeConfiguration _ | revalidate _ => true
  | _ => false

end Task

/-- The settings with which documents are going to be read off, of tasks and of timers. -/
def Outcome.held (outcome : Outcome) : List (String × Settings) :=
  outcome.tasks.filterMap Task.held? ++ outcome.timers.map fun timer => (timer.uri, timer.checks)

def Outcome.due (outcome : Outcome) : List (String × Int) :=
  outcome.tasks.flatMap Task.due ++ outcome.timers.map fun timer => (timer.uri, timer.version)

def Outgoing.published? (uri : String) : Outgoing → Option (Option Int × List Report)
  | publish about version reports => if about = uri then some (version, reports) else none
  | _ => none

def Outgoing.isAnswer : Outgoing → Bool
  | reply _ _ | applyEdit _ => true
  | _ => false

namespace Session

def proceed (client : Client) (session : Session) (task : Task) (rest : List Task) : Session :=
  { session with tasks := rest }.absorb (task.step client session.now session.server)

/-- What it makes of a session that a timer starts beside which the rest of the timers run. -/
def rouse (session : Session) (timer : Timer) (rest : List Timer) : Session :=
  { session with tasks := session.tasks ++ [.inspect timer], timers := rest }

def held (session : Session) : List (String × Settings) :=
  session.tasks.filterMap Task.held? ++ session.timers.map fun timer => (timer.uri, timer.checks)

def snapshots (session : Session) (uri : String) : List Snapshot :=
  (session.tasks.filterMap Task.snapshot?).filter fun snapshot => snapshot.uri = uri

def awaiting (session : Session) : List (String × Int) :=
  session.tasks.flatMap Task.awaiting

def validations (session : Session) (uri : String) : List Snapshot :=
  (session.tasks.filterMap Task.validation?).filter fun snapshot => snapshot.uri = uri

def due (session : Session) : List (String × Int) :=
  session.tasks.flatMap Task.due ++ session.timers.map fun timer => (timer.uri, timer.version)

end Session

namespace Document

theorem change_of_kept {document : Document} {version : Int} {changes : List Change}
    (h : Buffer.applyChanges document.text changes = document.text ∧ document.analysis.isSome) :
    document.change version changes = { document with version } := by
  simp [change, h]

theorem change_of_dropped {document : Document} {version : Int} {changes : List Change}
    (h : ¬(Buffer.applyChanges document.text changes = document.text ∧ document.analysis.isSome)) :
    document.change version changes =
      { text := Buffer.applyChanges document.text changes
        version
        edition := document.edition + 1 } := by
  simp [change, h]

@[simp] theorem change_text (document : Document) (version : Int) (changes : List Change) :
    (document.change version changes).text = Buffer.applyChanges document.text changes := by
  by_cases h : Buffer.applyChanges document.text changes = document.text ∧ document.analysis.isSome
  · rw [change_of_kept h, h.1]
  · rw [change_of_dropped h]

@[simp] theorem change_version (document : Document) (version : Int) (changes : List Change) :
    (document.change version changes).version = version := by
  simp only [change]
  split <;> rfl

end Document

namespace Session

variable {session : Session} {outcome : Outcome} {uri : String}

theorem perm_eraseIdx {α : Type} {items : List α} {index : Nat} {item : α}
    (h : items[index]? = some item) : items.Perm (item :: items.eraseIdx index) := by
  obtain ⟨hlt, rfl⟩ := List.getElem?_eq_some_iff.mp h
  exact (List.getElem_cons_eraseIdx_perm hlt).symm

theorem advance_cases (client : Client) (session : Session) (index : Nat) :
    session.advance client index = (session, []) ∨
      ∃ task rest, session.tasks[index]? = some task ∧ session.tasks.Perm (task :: rest) ∧
        (task.fails client session.server = true ∧
            session.advance client index = (session.fail, []) ∨
          task.fails client session.server = false ∧
            session.advance client index = (session.proceed client task rest,
              (task.step client session.now session.server).sent)) := by
  cases htask : session.tasks[index]? with
  | none => exact .inl (by simp [advance, htask])
  | some task =>
    refine .inr ⟨task, session.tasks.eraseIdx index, rfl, perm_eraseIdx htask, ?_⟩
    cases hfails : task.fails client session.server with
    | true => exact .inl ⟨rfl, by simp [advance, htask, hfails]⟩
    | false => exact .inr ⟨rfl, by simp [advance, htask, hfails, proceed]⟩

theorem wake_cases (session : Session) (index : Nat) :
    session.wake index = session ∨
      ∃ timer rest, session.timers.Perm (timer :: rest) ∧ timer.due ≤ session.now ∧
        session.wake index = session.rouse timer rest := by
  cases htimer : session.timers[index]? with
  | none => exact .inl (by simp [wake, htimer])
  | some timer =>
    by_cases hdue : timer.due ≤ session.now
    · exact .inr ⟨timer, session.timers.eraseIdx index, perm_eraseIdx htimer, hdue,
        by simp [wake, htimer, hdue, rouse]⟩
    · exact .inl (by simp [wake, htimer, hdue])

theorem mem_snapshots {snapshot : Snapshot} :
    snapshot ∈ session.snapshots uri ↔
      ∃ task ∈ session.tasks, task.snapshot? = some snapshot ∧ snapshot.uri = uri := by
  simp only [snapshots, List.mem_filter, List.mem_filterMap, decide_eq_true_eq,
    ← exists_and_right, and_assoc]

theorem mem_held_rouse {timer : Timer} {rest : List Timer} {entry : String × Settings}
    (hperm : session.timers.Perm (timer :: rest)) :
    entry ∈ (session.rouse timer rest).held ↔ entry ∈ session.held := by
  have htimers := (hperm.map fun timer => (timer.uri, timer.checks)).mem_iff (a := entry)
  simp [held, rouse, htimers, Task.held?]

@[simp] theorem snapshots_rouse (session : Session) (timer : Timer) (rest : List Timer) :
    (session.rouse timer rest).snapshots uri = session.snapshots uri := by
  simp [snapshots, rouse, Task.snapshot?]

@[simp] theorem validations_rouse (session : Session) (timer : Timer) (rest : List Timer) :
    (session.rouse timer rest).validations uri = session.validations uri := by
  simp [validations, rouse, Task.validation?]

theorem mem_due_rouse {timer : Timer} {rest : List Timer} {entry : String × Int}
    (hperm : session.timers.Perm (timer :: rest)) :
    entry ∈ (session.rouse timer rest).due ↔ entry ∈ session.due := by
  have htimers := (hperm.map fun timer => (timer.uri, timer.version)).mem_iff (a := entry)
  simp [due, rouse, htimers, Task.due]

@[simp] theorem awaiting_rouse (session : Session) (timer : Timer) (rest : List Timer) :
    (session.rouse timer rest).awaiting = session.awaiting := by
  simp [awaiting, rouse, Task.awaiting]

theorem mem_held_absorb {entry : String × Settings} :
    entry ∈ (session.absorb outcome).held ↔ entry ∈ session.held ∨ entry ∈ outcome.held := by
  simp only [held, Outcome.held, absorb, List.filterMap_append, List.map_append, List.mem_append]
  exact or_or_or_comm

theorem mem_snapshots_absorb {snapshot : Snapshot} :
    snapshot ∈ (session.absorb outcome).snapshots uri ↔
      snapshot ∈ session.snapshots uri ∨
        snapshot ∈ outcome.tasks.filterMap Task.snapshot? ∧ snapshot.uri = uri := by
  simp [snapshots, absorb]

theorem mem_validations {snapshot : Snapshot} :
    snapshot ∈ session.validations uri ↔
      ∃ task ∈ session.tasks, task.validation? = some snapshot ∧ snapshot.uri = uri := by
  simp only [validations, List.mem_filter, List.mem_filterMap, decide_eq_true_eq,
    ← exists_and_right, and_assoc]

theorem mem_validations_absorb {snapshot : Snapshot} :
    snapshot ∈ (session.absorb outcome).validations uri ↔
      snapshot ∈ session.validations uri ∨
        snapshot ∈ outcome.tasks.filterMap Task.validation? ∧ snapshot.uri = uri := by
  simp [validations, absorb]

theorem mem_due_absorb {entry : String × Int} :
    entry ∈ (session.absorb outcome).due ↔ entry ∈ session.due ∨ entry ∈ outcome.due := by
  simp only [due, Outcome.due, absorb, List.flatMap_append, List.map_append, List.mem_append]
  exact or_or_or_comm

theorem mem_awaiting_absorb {entry : String × Int} :
    entry ∈ (session.absorb outcome).awaiting ↔
      entry ∈ session.awaiting ∨ entry ∈ outcome.tasks.flatMap Task.awaiting := by
  simp [awaiting, absorb]

end Session

namespace Server

@[simp] theorem canConfigure_configure (server : Server) (section_ : Option Configuration) :
    (server.configure section_).canConfigure = server.canConfigure := by
  unfold configure
  split <;> rfl

@[simp] theorem settings_configure (server : Server) (section_ : Option Configuration) :
    (server.configure section_).settings = server.settings := by
  unfold configure
  split <;> rfl

@[simp] theorem canConfigure_keepSettings (server : Server) (uri : String)
    (settings : DocumentSettings) :
    (server.keepSettings uri settings).canConfigure = server.canConfigure := rfl

@[simp] theorem canConfigure_keepTags (server : Server) (repository : Text) (tags : List Text) :
    (server.keepTags repository tags).canConfigure = server.canConfigure := rfl

@[simp] theorem settings_keepTags (server : Server) (repository : Text) (tags : List Text) :
    (server.keepTags repository tags).settings = server.settings := rfl

@[simp] theorem canConfigure_keepAnalysis (server : Server) (snapshot : Snapshot) :
    (server.keepAnalysis snapshot).canConfigure = server.canConfigure := rfl

@[simp] theorem canConfigure_forgetAnalysis (server : Server) (uri : String) :
    (server.forgetAnalysis uri).canConfigure = server.canConfigure := rfl

@[simp] theorem settings_keepSettings (server : Server) (uri : String)
    (settings : DocumentSettings) :
    (server.keepSettings uri settings).settings = server.settings.insert uri settings := rfl

@[simp] theorem settings_keepAnalysis (server : Server) (snapshot : Snapshot) :
    (server.keepAnalysis snapshot).settings = server.settings := rfl

@[simp] theorem settings_forgetAnalysis (server : Server) (uri : String) :
    (server.forgetAnalysis uri).settings = server.settings := rfl

@[simp] theorem tags_configure (server : Server) (section_ : Option Configuration) :
    (server.configure section_).tags = server.tags := by
  unfold configure
  split <;> rfl

@[simp] theorem phase_configure (server : Server) (section_ : Option Configuration) :
    (server.configure section_).phase = server.phase := by
  unfold configure
  split <;> rfl

@[simp] theorem phase_keepSettings (server : Server) (uri : String)
    (settings : DocumentSettings) : (server.keepSettings uri settings).phase = server.phase := rfl

@[simp] theorem phase_keepTags (server : Server) (repository : Text) (tags : List Text) :
    (server.keepTags repository tags).phase = server.phase := rfl

@[simp] theorem phase_keepAnalysis (server : Server) (snapshot : Snapshot) :
    (server.keepAnalysis snapshot).phase = server.phase := rfl

@[simp] theorem phase_forgetAnalysis (server : Server) (uri : String) :
    (server.forgetAnalysis uri).phase = server.phase := rfl

theorem get?_openDocument (server : Server) (about uri : String) (version : Int) (text : Text) :
    (server.openDocument about version text).documents.get? uri =
      if uri = about then some { text, version } else server.documents.get? uri :=
  Store.get?_insert _ _ _ _

theorem get?_changeDocument (server : Server) (about uri : String) (version : Int)
    (changes : List Change) :
    (server.changeDocument about version changes).documents.get? uri =
      if uri = about then some (((server.documents.get? about).getD {}).change version changes)
      else server.documents.get? uri :=
  Store.get?_insert _ _ _ _

theorem get?_closeDocument (server : Server) (about uri : String) :
    (server.closeDocument about).documents.get? uri =
      if uri = about then none else server.documents.get? uri :=
  Store.get?_erase _ _ _

theorem get?_keepAnalysis (server : Server) (snapshot : Snapshot) (uri : String) :
    (server.keepAnalysis snapshot).documents.get? uri =
      (server.documents.get? uri).map fun document =>
        if uri = snapshot.uri then document.keep snapshot snapshot.analysis else document := by
  simp only [keepAnalysis, Store.get?_modify]
  by_cases h : uri = snapshot.uri <;> simp [h]

theorem get?_forgetAnalysis (server : Server) (stale uri : String) :
    (server.forgetAnalysis stale).documents.get? uri =
      (server.documents.get? uri).map fun document =>
        if uri = stale then document.forget else document := by
  simp only [forgetAnalysis, Store.get?_modify]
  by_cases h : uri = stale <;> simp [h]

@[simp] theorem server_loadConfiguration (server : Server) (revalidates : Bool) :
    (server.loadConfiguration revalidates).server = server.dropSettings := by
  simp only [loadConfiguration]
  split <;> rfl

@[simp] theorem published_loadConfiguration (server : Server) (revalidates : Bool) (uri : String) :
    (server.loadConfiguration revalidates).sent.filterMap (Outgoing.published? uri) = [] := by
  simp only [loadConfiguration]
  split <;> rfl

theorem published_accept (server : Server) (id : Nat) (request : Request) (uri : String) :
    (server.accept id request).sent.filterMap (Outgoing.published? uri) = [] := by
  cases request <;> rfl

theorem isFresh_heed {server : Server} {notification : Notification} {task : Task}
    (h : task ∈ (server.heed notification).tasks) : task.isFresh = true := by
  cases notification with
  | initialized | configurationChanged =>
    simp only [heed, loadConfiguration] at h
    split at h <;> simp_all [Task.isFresh]
  | opened | changed => simp_all [heed, schedule, Task.isFresh]
  | closed => simp [heed] at h

theorem isFresh_accept {server : Server} {id : Nat} {request : Request} {task : Task}
    (h : task ∈ (server.accept id request).tasks) : task.isFresh = true := by
  cases request with
  | ask uri question =>
    simp only [accept] at h
    split at h <;> simp_all [Task.isFresh]
  | _ => simp [accept] at h

theorem server_accept {server : Server} {id : Nat} {request : Request}
    (h : request.isOrdinary = true) : (server.accept id request).server = server := by
  cases request <;> simp_all [accept, Request.isOrdinary]

/-- A message changes nothing but documents and their settings. -/
theorem heed_kept (server : Server) (notification : Notification) :
    (server.heed notification).server.phase = server.phase ∧
      (server.heed notification).server.maxConcurrent = server.maxConcurrent ∧
      (server.heed notification).server.tags = server.tags := by
  cases notification with
  | initialized | configurationChanged =>
    simp only [heed, server_loadConfiguration]
    exact ⟨rfl, rfl, rfl⟩
  | _ => exact ⟨rfl, rfl, rfl⟩

/-- A message has the settings of the server asked for only if the editor can be asked. -/
theorem any_isConfiguring_heed (server : Server) (notification : Notification) :
    (server.heed notification).tasks.any Task.isConfiguring =
      (notification.about?.isNone && server.canConfigure) := by
  cases notification with
  | initialized | configurationChanged =>
    cases hcan : server.canConfigure <;>
      simp [heed, loadConfiguration, dropSettings, hcan, Task.isConfiguring, Notification.about?]
  | _ => simp [heed, schedule, Task.isConfiguring, Notification.about?]

theorem overtaxed_configure {server : Server} (h : server.maxConcurrent ≤ maxPermits)
    (client : Client) :
    (server.configure (client.configuration? none)).overtaxed = client.overtaxes := by
  have hkept : ¬maxPermits < server.maxConcurrent := Nat.not_lt.mpr h
  unfold Client.overtaxes configure
  cases client.configuration? none with
  | none => simpa [overtaxed] using h
  | some section_ =>
    cases hmax : section_.performance.maxConcurrent with
    | none => simpa [overtaxed, hmax] using h
    | some n => cases n <;> simp [overtaxed, hmax, hkept, Option.filter]

theorem canConfigure_heed (server : Server) (notification : Notification) :
    (server.heed notification).server.canConfigure = server.canConfigure := by
  cases notification <;>
    simp [heed, schedule, dropSettings, openDocument, changeDocument, closeDocument]

theorem get?_heed_of_ne {server : Server} {notification : Notification} {uri : String}
    (h : notification.about? ≠ some uri) :
    (server.heed notification).server.documents.get? uri = server.documents.get? uri := by
  cases notification with
  | initialized | configurationChanged => simp [heed, dropSettings]
  | opened about version text =>
    have hne : uri ≠ about := fun heq => h (heq ▸ rfl)
    rw [heed, schedule, get?_openDocument, if_neg hne]
  | changed about version changes =>
    have hne : uri ≠ about := fun heq => h (heq ▸ rfl)
    rw [heed, schedule, get?_changeDocument, if_neg hne]
  | closed about =>
    have hne : uri ≠ about := fun heq => h (heq ▸ rfl)
    rw [heed, get?_closeDocument, if_neg hne]

theorem published_heed_of_ne {server : Server} {notification : Notification} {uri : String}
    (h : notification.about? ≠ some uri) :
    (server.heed notification).sent.filterMap (Outgoing.published? uri) = [] := by
  cases notification with
  | initialized | configurationChanged => exact published_loadConfiguration _ _ _
  | opened | changed => rfl
  | closed about =>
    have hne : about ≠ uri := fun heq => h (heq ▸ rfl)
    simp [heed, Outgoing.published?, hne]

theorem timers_accept (server : Server) (id : Nat) (request : Request) :
    (server.accept id request).timers = [] := by
  cases request <;> rfl

theorem timers_heed (server : Server) (notification : Notification) :
    (server.heed notification).timers = [] := by
  cases notification with
  | initialized | configurationChanged =>
    simp only [heed, loadConfiguration]
    split <;> rfl
  | _ => rfl

theorem mem_versions {server : Server} {uri : String} {document : Document}
    (h : server.documents.get? uri = some document) : (uri, document.version) ∈ server.versions := by
  unfold versions
  generalize server.documents = documents at h
  induction documents with
  | nil => simp [Store.get?] at h
  | cons entry rest ih =>
    simp only [Store.get?] at h
    split at h
    · simp_all
    · exact List.mem_cons_of_mem _ (ih h)

end Server

theorem Task.isFresh_carries_nothing {task : Task} (h : task.isFresh = true) :
    task.held? = none ∧ task.snapshot? = none ∧ task.validation? = none := by
  cases task <;> simp_all [isFresh, held?, snapshot?, validation?]

end Dockerfile
