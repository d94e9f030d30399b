import Dockerfile.Proofs.Server.Flight

/-!
# What a step does

`Task.LeadsTo` lists the ways a step can go, each with what the task finds. What a step does to
anything that is in flight, to what the server knows and to what is sent is read off the list, one
lemma for each, and whatever holds along a whole conversation is derived from these lemmas.

Main statements: the list is complete (`Task.leadsTo`); a step changes a document only as
`Task.revise` says (`Task.LeadsTo.get?`).
-/

namespace Dockerfile

namespace Inquiry

@[simp] theorem published_replies (tags : List Text) (inquiry : Inquiry) (a : Analysis)
    (uri : String) : (inquiry.replies tags a).filterMap (Outgoing.published? uri) = [] := by
  unfold replies
  cases inquiry.question.edit? a <;> rfl

@[simp] theorem published_unopened (inquiry : Inquiry) (uri : String) :
    inquiry.unopened.filterMap (Outgoing.published? uri) = [] := rfl

/-- An answer is sent, or it waits for the tags of a repository. -/
theorem respond_cases (server : Server) (inquiry : Inquiry) (a : Analysis) :
    (∃ tags, inquiry.respond server a = { server, sent := inquiry.replies tags a } ∧
        (inquiry.question.repository? a = none ∧ tags = [] ∨
          ∃ repository, inquiry.question.repository? a = some repository ∧
            server.tags? repository = some tags)) ∨
      ∃ repository, inquiry.question.repository? a = some repository ∧
        inquiry.respond server a = { server, tasks := [.takeTags inquiry repository a] } := by
  unfold respond
  split
  case h_1 hnone => exact .inl ⟨[], rfl, .inl ⟨hnone, rfl⟩⟩
  case h_2 repository hrepository =>
    split
    case h_1 tags hknown => exact .inl ⟨tags, rfl, .inr ⟨repository, hrepository, hknown⟩⟩
    case h_2 => exact .inr ⟨repository, hrepository, rfl⟩

variable (server : Server) (inquiry : Inquiry) (a : Analysis)

@[simp] theorem timers_respond : (inquiry.respond server a).timers = [] := by
  rcases respond_cases server inquiry a with ⟨tags, heq, -⟩ | ⟨repository, -, heq⟩ <;> rw [heq]

@[simp] theorem held_respond : (inquiry.respond server a).held = [] := by
  rcases respond_cases server inquiry a with ⟨tags, heq, -⟩ | ⟨repository, -, heq⟩ <;> rw [heq] <;> rfl

@[simp] theorem snapshots_respond :
    (inquiry.respond server a).tasks.filterMap Task.snapshot? = [] := by
  rcases respond_cases server inquiry a with ⟨tags, heq, -⟩ | ⟨repository, -, heq⟩ <;> rw [heq] <;> rfl

@[simp] theorem validations_respond :
    (inquiry.respond server a).tasks.filterMap Task.validation? = [] := by
  rcases respond_cases server inquiry a with ⟨tags, heq, -⟩ | ⟨repository, -, heq⟩ <;> rw [heq] <;> rfl

@[simp] theorem published_respond (uri : String) :
    (inquiry.respond server a).sent.filterMap (Outgoing.published? uri) = [] := by
  rcases respond_cases server inquiry a with ⟨tags, heq, -⟩ | ⟨repository, -, heq⟩
  · rw [heq, published_replies]
  · rw [heq]
    rfl

theorem takeTags_of_mem_respond {task : Task} (h : task ∈ (inquiry.respond server a).tasks) :
    ∃ repository, task = .takeTags inquiry repository a := by
  rcases respond_cases server inquiry a with ⟨tags, heq, -⟩ | ⟨repository, -, heq⟩
  · simp [heq] at h
  · exact ⟨repository, by simpa [heq] using h⟩

end Inquiry

theorem Purpose.eq_of_mem_held_go {now : Nat} {server : Server} {settings : DocumentSettings}
    {purpose : Purpose} {entry : String × Settings}
    (h : entry ∈ (purpose.go now server settings).held) : entry = (purpose.uri, settings.checks) := by
  cases purpose <;> simp_all [go, Outcome.held, Task.held?, Purpose.uri]

@[simp] theorem Purpose.snapshots_go (now : Nat) (server : Server) (settings : DocumentSettings)
    (purpose : Purpose) :
    (purpose.go now server settings).tasks.filterMap Task.snapshot? = [] := by
  cases purpose <;> rfl

@[simp] theorem Purpose.validations_go (now : Nat) (server : Server) (settings : DocumentSettings)
    (purpose : Purpose) :
    (purpose.go now server settings).tasks.filterMap Task.validation? = [] := by
  cases purpose <;> rfl

theorem Purpose.mem_due_go {now : Nat} {server : Server} {settings : DocumentSettings}
    {purpose : Purpose} {entry : String × Int} :
    entry ∈ (purpose.go now server settings).due ↔ entry ∈ purpose.due := by
  cases purpose <;> simp [go, due, Outcome.due, Task.due, or_comm]

@[simp] theorem Purpose.published_go (now : Nat) (server : Server) (settings : DocumentSettings)
    (purpose : Purpose) (uri : String) :
    (purpose.go now server settings).sent.filterMap (Outgoing.published? uri) = [] := by
  cases purpose <;> rfl

@[simp] theorem Purpose.awaiting_go (now : Nat) (server : Server) (settings : DocumentSettings)
    (purpose : Purpose) :
    (purpose.go now server settings).tasks.flatMap Task.awaiting = purpose.later := by
  cases purpose <;> simp [go, later, Task.awaiting]

namespace Task

variable {client : Client} {now : Nat} {server : Server} {task : Task} {outcome : Outcome}
  {uri : String}

def revise (uri : String) (document : Document) : Task → Document
  | conclude _ snapshot | report snapshot =>
      if uri = snapshot.uri then document.keep snapshot snapshot.analysis else document
  | revalidate ((stale, _) :: _) => if uri = stale then document.forget else document
  | _ => document

@[simp] theorem revise_text (uri : String) (document : Document) (task : Task) :
    (task.revise uri document).text = document.text := by
  fun_cases revise <;> grind [Document.keep, Document.forget]

@[simp] theorem revise_version (uri : String) (document : Document) (task : Task) :
    (task.revise uri document).version = document.version := by
  fun_cases revise <;> grind [Document.keep, Document.forget]

theorem mem_due_of_mem_awaiting {entry : String × Int} (h : entry ∈ task.awaiting) :
    entry ∈ task.due := by
  cases task with
  | findSettings purpose | takeSettings purpose =>
    cases purpose <;> simp_all [awaiting, due, Purpose.later, Purpose.due]
  | revalidate documents => exact h
  | _ => simp [awaiting] at h

/-- Outside the case that drops its analysis, a document stays as it is or keeps the analysis of a
snapshot. -/
theorem revise_eq {document : Document}
    (hdrop : ∀ listed later, task ≠ .revalidate ((uri, listed) :: later)) :
    task.revise uri document = document ∨
      ∃ snapshot, task.snapshot? = some snapshot ∧ snapshot.uri = uri ∧
        task.revise uri document = document.keep snapshot snapshot.analysis := by
  fun_cases task.revise uri document
  case case1 snapshot hsame => exact .inr ⟨snapshot, rfl, hsame.symm, rfl⟩
  case case3 snapshot hsame => exact .inr ⟨snapshot, rfl, hsame.symm, rfl⟩
  case case5 listed later => exact absurd rfl (hdrop listed later)
  all_goals exact .inl rfl

inductive LeadsTo (client : Client) (now : Nat) (server : Server) : Task → Outcome → Prop where
  | known (purpose : Purpose) (settings : DocumentSettings)
      (hknown : server.settings.get? purpose.uri = some settings) :
      LeadsTo client now server (findSettings purpose) (purpose.go now server settings)
  | asks (purpose : Purpose) (hunknown : server.settings.get? purpose.uri = none)
      (hcan : server.canConfigure = true) :
      LeadsTo client now server (findSettings purpose)
        { server
          tasks := [.takeSettings purpose]
          sent := [.askConfiguration (some purpose.uri)] }
  | assumes (purpose : Purpose) (hunknown : server.settings.get? purpose.uri = none)
      (hcannot : server.canConfigure = false) :
      LeadsTo client now server (findSettings purpose)
        (purpose.go now (server.keepSettings purpose.uri {}) {})
  | learns (purpose : Purpose) :
      LeadsTo client now server (takeSettings purpose)
        (purpose.go now
          (server.keepSettings purpose.uri (client.documentSettings purpose.uri))
          (client.documentSettings purpose.uri))
  | recalls (inquiry : Inquiry) (a : Analysis)
      (hkept : (server.documents.get? inquiry.uri).bind Document.analysis = some a) :
      LeadsTo client now server (consult inquiry) (inquiry.respond server a)
  | lacks (inquiry : Inquiry)
      (hnone : (server.documents.get? inquiry.uri).bind Document.analysis = none) :
      LeadsTo client now server (consult inquiry)
        { server, tasks := [.findSettings (.answer inquiry)] }
  | reads (inquiry : Inquiry) (checks : Settings) (document : Document)
      (hopen : server.documents.get? inquiry.uri = some document) :
      LeadsTo client now server (capture inquiry checks)
        { server, tasks := [.conclude inquiry (document.snapshot inquiry.uri checks)] }
  | misses (inquiry : Inquiry) (checks : Settings)
      (hclosed : server.documents.get? inquiry.uri = none) :
      LeadsTo client now server (capture inquiry checks) { server, sent := inquiry.unopened }
  | concludes (inquiry : Inquiry) (snapshot : Snapshot) :
      LeadsTo client now server (conclude inquiry snapshot)
        (inquiry.respond (server.keepAnalysis snapshot) snapshot.analysis)
  | lists (inquiry : Inquiry) (repository : Text) (a : Analysis) (tags : List Text)
      (hlisted : client.tags repository = some tags) :
      LeadsTo client now server (takeTags inquiry repository a)
        { server := server.keepTags repository tags, sent := inquiry.replies tags a }
  | unlisted (inquiry : Inquiry) (repository : Text) (a : Analysis)
      (hnone : client.tags repository = none) :
      LeadsTo client now server (takeTags inquiry repository a)
        { server, sent := inquiry.replies [] a }
  | closed (timer : Timer) (hclosed : server.documents.get? timer.uri = none) :
      LeadsTo client now server (inspect timer) { server }
  | outdated (timer : Timer) (document : Document)
      (hopen : server.documents.get? timer.uri = some document)
      (hversion : document.version ≠ timer.version) :
      LeadsTo client now server (inspect timer) { server }
  | repeats (timer : Timer) (document : Document) (a : Analysis)
      (hopen : server.documents.get? timer.uri = some document)
      (hversion : document.version = timer.version) (hkept : document.analysis = some a) :
      LeadsTo client now server (inspect timer)
        { server, sent := [.publish timer.uri (some document.version) a.reports] }
  | begins (timer : Timer) (document : Document)
      (hopen : server.documents.get? timer.uri = some document)
      (hversion : document.version = timer.version) (hnone : document.analysis = none) :
      LeadsTo client now server (inspect timer)
        { server
          tasks := [.announce (document.snapshot timer.uri timer.checks)]
          sent := [.createProgress timer.uri] }
  | announces (snapshot : Snapshot) :
      LeadsTo client now server (announce snapshot)
        { server, tasks := [.report snapshot], sent := [.beginProgress snapshot.uri] }
  | reports (snapshot : Snapshot) :
      LeadsTo client now server (report snapshot)
        { server := server.keepAnalysis snapshot
          sent := [.publish snapshot.uri (some snapshot.version) snapshot.analysis.reports,
            .endProgress snapshot.uri] }
  | configures (revalidates : Bool) :
      LeadsTo client now server (takeConfiguration revalidates)
        { server := server.configure (client.configuration? none)
          tasks := if revalidates then
            [.revalidate (server.configure (client.configuration? none)).versions] else [] }
  | ends : LeadsTo client now server (revalidate []) { server }
  | forgets (uri : String) (version : Int) (later : List (String × Int)) :
      LeadsTo client now server (revalidate ((uri, version) :: later))
        { server := server.forgetAnalysis uri
          tasks := [.findSettings (.validate uri version 0 later)] }

theorem leadsTo (client : Client) (now : Nat) (server : Server) (task : Task) :
    LeadsTo client now server task (task.step client now server) := by
  cases task with
  | findSettings purpose =>
    simp only [step]
    split
    case h_1 settings hknown => exact .known purpose settings hknown
    case h_2 hunknown =>
      split
      case isTrue hcan => exact .asks purpose hunknown hcan
      case isFalse hcannot => exact .assumes purpose hunknown (by simpa using hcannot)
  | takeSettings purpose => exact .learns purpose
  | consult inquiry =>
    simp only [step]
    split
    case h_1 a hkept => exact .recalls inquiry a hkept
    case h_2 hnone => exact .lacks inquiry hnone
  | capture inquiry checks =>
    simp only [step]
    split
    case h_1 document hopen => exact .reads inquiry checks document hopen
    case h_2 hclosed => exact .misses inquiry checks hclosed
  | conclude inquiry snapshot => exact .concludes inquiry snapshot
  | takeTags inquiry repository a =>
    simp only [step]
    split
    case h_1 tags hlisted => exact .lists inquiry repository a tags hlisted
    case h_2 hnone => exact .unlisted inquiry repository a hnone
  | inspect timer =>
    simp only [step]
    split
    case h_1 hclosed => exact .closed timer hclosed
    case h_2 document hopen =>
      by_cases hversion : document.version = timer.version
      · rw [if_pos hversion]
        cases hanalysis : document.analysis with
        | some a => exact .repeats timer document a hopen hversion hanalysis
        | none => exact .begins timer document hopen hversion hanalysis
      · rw [if_neg hversion]
        exact .outdated timer document hopen hversion
  | announce snapshot => exact .announces snapshot
  | report snapshot => exact .reports snapshot
  | takeConfiguration revalidates => exact .configures revalidates
  | revalidate documents =>
    cases documents with
    | nil => exact .ends
    | cons entry later => exact .forgets entry.1 entry.2 later

namespace LeadsTo

theorem canConfigure (h : LeadsTo client now server task outcome) :
    outcome.server.canConfigure = server.canConfigure := by
  cases h <;> simp

theorem phase (h : LeadsTo client now server task outcome) :
    outcome.server.phase = server.phase := by
  cases h <;> simp

theorem permits (h : LeadsTo client now server task outcome)
    (hgoes : task.fails client server = false)
    (hpermits : server.maxConcurrent ≤ Server.maxPermits) :
    outcome.server.maxConcurrent ≤ Server.maxPermits := by
  cases h with
  | configures => exact Nat.not_lt.mp (of_decide_eq_false hgoes)
  | known | assumes | learns => simpa only [server_go]
  | recalls | concludes => simpa only [server_respond]
  | _ => exact hpermits

/-- What the server knows about tags is what Docker Hub lists. -/
theorem tags? (h : LeadsTo client now server task outcome) {repository : Text} {tags : List Text}
    (hknown : outcome.server.tags? repository = some tags) :
    server.tags? repository = some tags ∨ client.tags repository = some tags := by
  cases h with
  | lists inquiry listed a tags' hlisted =>
    simp only [Server.tags?, Server.keepTags, Store.get?_insert] at hknown
    split at hknown
    · rename_i hsame
      rw [String.ofList_injective hsame]
      exact .inr (hlisted.trans hknown)
    · exact .inl hknown
  | configures =>
    simp only [Server.tags?, Server.tags_configure] at hknown
    exact .inl hknown
  | known | assumes | learns => rw [server_go] at hknown; exact .inl hknown
  | recalls | concludes => rw [server_respond] at hknown; exact .inl hknown
  | _ => exact .inl hknown

/-- No step asks for the settings of the server. -/
theorem configuring (h : LeadsTo client now server task outcome) :
    outcome.tasks.any isConfiguring = false := by
  cases h with
  | known p | assumes p | learns p => cases p <;> rfl
  | configures revalidates => cases revalidates <;> rfl
  | recalls | concludes =>
    rw [List.any_eq_false]
    intro next hnext
    obtain ⟨repository, rfl⟩ := Inquiry.takeTags_of_mem_respond _ _ _ hnext
    exact Bool.false_ne_true
  | _ => rfl

theorem get? (h : LeadsTo client now server task outcome) :
    outcome.server.documents.get? uri =
      (server.documents.get? uri).map fun document => task.revise uri document := by
  cases h <;> simp [revise, Server.get?_keepAnalysis, Server.get?_forgetAnalysis]

/-- A step learns settings from the editor only, or takes the defaults if it cannot ask. -/
theorem settings (h : LeadsTo client now server task outcome)
    (hasked : ∀ purpose, task = .takeSettings purpose → server.canConfigure = true) :
    outcome.server.settings = server.settings ∨
      ∃ uri, outcome.server.settings =
        server.settings.insert uri (server.reported client uri) := by
  cases h with
  | assumes purpose _ hcannot => exact .inr ⟨purpose.uri, by simp [Server.reported, hcannot]⟩
  | learns purpose => exact .inr ⟨purpose.uri, by simp [Server.reported, hasked purpose rfl]⟩
  | _ => exact .inl (by simp)

theorem held (h : LeadsTo client now server task outcome)
    (hknown : ∀ uri settings, server.settings.get? uri = some settings →
      settings = server.reported client uri)
    (hasked : ∀ purpose, task = .takeSettings purpose → server.canConfigure = true)
    {entry : String × Settings} (hentry : entry ∈ outcome.held) :
    entry.2 = (server.reported client entry.1).checks := by
  cases h with
  | known purpose settings hfound =>
    rw [Purpose.eq_of_mem_held_go hentry, ← hknown _ _ hfound]
  | assumes purpose _ hcannot =>
    rw [Purpose.eq_of_mem_held_go hentry]
    simp [Server.reported, hcannot]
  | learns purpose =>
    rw [Purpose.eq_of_mem_held_go hentry]
    simp [Server.reported, hasked purpose rfl]
  | configures revalidates => cases revalidates <;> simp [Outcome.held, held?] at hentry
  | recalls | concludes => simp at hentry
  | _ => simp [Outcome.held, held?] at hentry

/-- A step reads off a document with settings that it holds, or hands a snapshot on. -/
theorem snapshot (h : LeadsTo client now server task outcome) {snapshot : Snapshot}
    (hnew : snapshot ∈ outcome.tasks.filterMap snapshot?) :
    task.snapshot? = some snapshot ∨
      ∃ document checks, task.held? = some (snapshot.uri, checks) ∧
        server.documents.get? snapshot.uri = some document ∧
        snapshot = document.snapshot snapshot.uri checks := by
  cases h with
  | reads inquiry checks document hopen =>
    obtain rfl : snapshot = document.snapshot inquiry.uri checks := by
      simpa [snapshot?] using hnew
    exact .inr ⟨document, checks, rfl, hopen, rfl⟩
  | begins timer document hopen =>
    obtain rfl : snapshot = document.snapshot timer.uri timer.checks := by
      simpa [snapshot?] using hnew
    exact .inr ⟨document, timer.checks, rfl, hopen, rfl⟩
  | announces passed => exact .inl (by simpa [snapshot?, eq_comm] using hnew)
  | configures revalidates => cases revalidates <;> simp [snapshot?] at hnew
  | _ => simp [snapshot?] at hnew

theorem asked (h : LeadsTo client now server task outcome) {purpose : Purpose}
    (hnew : .takeSettings purpose ∈ outcome.tasks) : server.canConfigure = true := by
  cases h with
  | asks _ _ hcan => exact hcan
  | known p | assumes p | learns p => cases p <;> simp [Purpose.go] at hnew
  | configures revalidates => cases revalidates <;> simp at hnew
  | recalls | concludes => simpa using Inquiry.takeTags_of_mem_respond _ _ _ hnew
  | _ => simp at hnew

theorem awaiting (h : LeadsTo client now server task outcome) {entry : String × Int}
    (hentry : entry ∈ task.awaiting) :
    entry ∈ outcome.tasks.flatMap Task.awaiting ∨ ∃ later, task = .revalidate (entry :: later) := by
  cases h with
  | forgets uri version later =>
    rcases List.mem_cons.mp hentry with rfl | hlater
    · exact .inr ⟨later, rfl⟩
    · exact .inl (by simpa [Task.awaiting, Purpose.later] using hlater)
  | known | asks | assumes | learns => exact .inl (by simpa [Task.awaiting] using hentry)
  | _ => simp [Task.awaiting] at hentry

theorem due (h : LeadsTo client now server task outcome) {entry : String × Int}
    (hentry : entry ∈ task.due) :
    entry ∈ outcome.due ∨ ∃ timer, task = .inspect timer ∧ entry = (timer.uri, timer.version) := by
  cases h with
  | closed timer | outdated timer | repeats timer | begins timer =>
    exact .inr ⟨timer, rfl, List.mem_singleton.mp hentry⟩
  | known | assumes | learns => exact .inl (Purpose.mem_due_go.mpr hentry)
  | asks | forgets => exact .inl (by simpa [Task.due, Outcome.due, Purpose.due] using hentry)
  | _ => simp [Task.due] at hentry

/-- A validation begins when a timer finds its document in its version and without an analysis. -/
theorem validation (h : LeadsTo client now server task outcome) {snapshot : Snapshot}
    (hnew : snapshot ∈ outcome.tasks.filterMap validation?) :
    task.validation? = some snapshot ∨
      ∃ timer document, task = .inspect timer ∧ timer.uri = snapshot.uri ∧
        server.documents.get? timer.uri = some document ∧ document.version = timer.version ∧
        document.analysis = none ∧ snapshot = document.snapshot timer.uri timer.checks := by
  cases h with
  | begins timer document hopen hversion hnone =>
    obtain rfl : snapshot = document.snapshot timer.uri timer.checks := by
      simpa [validation?] using hnew
    exact .inr ⟨timer, document, rfl, rfl, hopen, hversion, hnone, rfl⟩
  | announces passed => exact .inl (by simpa [validation?, eq_comm] using hnew)
  | configures revalidates => cases revalidates <;> simp [validation?] at hnew
  | _ => simp [validation?] at hnew

theorem validation_ends (h : LeadsTo client now server task outcome) {snapshot : Snapshot}
    (hbegun : task.validation? = some snapshot) :
    snapshot ∈ outcome.tasks.filterMap validation? ∨ task = .report snapshot := by
  cases h <;> simp_all [validation?]

/-- What a step publishes: a report, or the analysis that a timer finds. -/
theorem published (h : LeadsTo client now server task outcome) (uri : String) :
    outcome.sent.filterMap (Outgoing.published? uri) = [] ∨
      (∃ snapshot, task = .report snapshot ∧ snapshot.uri = uri) ∨
      ∃ timer document a, task = .inspect timer ∧ timer.uri = uri ∧
        server.documents.get? timer.uri = some document ∧ document.version = timer.version ∧
        document.analysis = some a := by
  cases h with
  | repeats timer document a hopen hversion hkept =>
    by_cases huri : timer.uri = uri
    · exact .inr (.inr ⟨timer, document, a, rfl, huri, hopen, hversion, hkept⟩)
    · exact .inl (by simp [Outgoing.published?, huri])
  | reports snapshot =>
    by_cases huri : snapshot.uri = uri
    · exact .inr (.inl ⟨snapshot, rfl, huri⟩)
    · exact .inl (by simp [Outgoing.published?, huri])
  | recalls | misses | concludes => exact .inl (by simp)
  | _ => exact .inl (by simp [Outgoing.published?])

theorem unasked (h : LeadsTo client now server task outcome) (hnone : task.inquiry? = none) :
    (∀ next ∈ outcome.tasks, next.inquiry? = none) ∧
      outcome.sent.filter Outgoing.isAnswer = [] := by
  cases h with
  | known purpose | assumes purpose | learns purpose =>
    cases purpose <;> simp_all [inquiry?, Purpose.inquiry?, Purpose.go]
  | configures revalidates => cases revalidates <;> simp [inquiry?]
  | _ => simp_all [inquiry?, Purpose.inquiry?, Outgoing.isAnswer]

theorem late (h : LeadsTo client now server task outcome) (hlate : task.isLate = true) :
    (∀ next ∈ outcome.tasks, next.isLate = true) ∧ outcome.timers = [] := by
  cases h <;> simp_all [isLate]

end LeadsTo

@[simp] theorem step_canConfigure (client : Client) (now : Nat) (server : Server) (task : Task) :
    (task.step client now server).server.canConfigure = server.canConfigure :=
  (leadsTo client now server task).canConfigure

@[simp] theorem step_phase (client : Client) (now : Nat) (server : Server) (task : Task) :
    (task.step client now server).server.phase = server.phase :=
  (leadsTo client now server task).phase

end Task

end Dockerfile
