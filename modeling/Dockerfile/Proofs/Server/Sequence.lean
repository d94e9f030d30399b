import Dockerfile.Proofs.Server.Cache

/-!
# One thing after the other

If messages come only when no work goes on, what the server keeps cannot be told from its answers.
They are those of a `PlainServer`, which keeps nothing but texts and computes each answer anew.
`Agrees` ties what the two servers know to each other, `Follows` adds what the server has sent and
what a task that is on its way to an answer has read, and `Tracks` adds the end that settings can put
to both.

Main statements: once all is done, the requests have got the answers of the plain server, and all can
always be done (`answers_of_sequential`); settings of the server are enough to leave requests without
an answer (`unanswered_of_overtaxing`).
-/

namespace Dockerfile

/-- A server that remembers nothing but the texts of the documents that are open. -/
structure PlainServer where
  client : Client
  canConfigure : Bool
  texts : Store Text := []
  /-- The settings have asked for more computations at a time than there can be. -/
  failed : Bool := false

namespace PlainServer

def settings (plain : PlainServer) (uri : String) : DocumentSettings :=
  if plain.canConfigure then plain.client.documentSettings uri else {}

/-- The tags that a question needs, as Docker Hub lists them. -/
def tags (plain : PlainServer) (question : Question) (a : Analysis) : List Text :=
  ((question.repository? a).bind plain.client.tags).getD []

def heed (plain : PlainServer) : Notification → PlainServer
  | .opened uri _ text => { plain with texts := plain.texts.insert uri text }
  | .changed uri _ changes =>
      let text := (plain.texts.get? uri).getD []
      { plain with texts := plain.texts.insert uri (Buffer.applyChanges text changes) }
  | .closed uri => { plain with texts := plain.texts.erase uri }
  | .initialized | .configurationChanged =>
      { plain with failed := plain.failed || plain.canConfigure && plain.client.overtaxes }

def answer (plain : PlainServer) (id : Nat) : Request → List Outgoing
  | .ask uri question =>
      match plain.texts.get? uri with
      | none => [.reply id (.ok question.unopened)]
      | some text =>
          let a := analyze text (plain.settings uri).checks
          let formatter := (plain.settings uri).formatter
          ((question.edit? a).map Outgoing.applyEdit).toList ++
            [.reply id (.ok (question.answer (plain.tags question a) uri formatter a))]
  | .actions uri reports =>
      let actions := reports.flatMap (Report.actions uri)
      [.reply id (.ok (.nonEmpty CodeAction.toJson actions))]
  | .idleCommand => [.reply id (.ok .null)]
  | .unsupported => [.reply id (.error .methodNotFound)]
  | .start _ | .shutdown => []

def move (plain : PlainServer) : Move → PlainServer
  | .notify notification => plain.heed notification
  | .reconfigure configuration =>
      { plain with client := { plain.client with configuration } }.heed .configurationChanged
  | _ => plain

def reply (plain : PlainServer) : Move → List Outgoing
  | .request id request => if plain.failed then [] else plain.answer id request
  | _ => []

/-- All answers, in the order of the requests. -/
def answers : PlainServer → List Move → List Outgoing
  | _, [] => []
  | plain, m :: rest => plain.reply m ++ answers (plain.move m) rest

end PlainServer

theorem Question.answer_formatter {question : Question} (h : question.needsFormatter = false)
    (tags : List Text) (uri : String) (f g : FormatterSettings) (a : Analysis) :
    question.answer tags uri f a = question.answer tags uri g a := by
  cases question <;> simp_all [needsFormatter, answer]

namespace Conversation

variable {c : Conversation} {plain : PlainServer}

def answers (c : Conversation) : List Outgoing :=
  c.sent.filter Outgoing.isAnswer

/-- A message comes only when no work goes on. -/
def Sequential (c : Conversation) : Move → Prop
  | .notify _ | .reconfigure _ => c.Quiet
  | .request _ request => request.isOrdinary = true ∧ c.Quiet
  | _ => True

instance (c : Conversation) : (m : Move) → Decidable (c.Sequential m)
  | .notify _ | .reconfigure _ => inferInstanceAs (Decidable c.Quiet)
  | .request _ _ => inferInstanceAs (Decidable (_ ∧ _))
  | .advance _ | .wake _ | .pass _ => inferInstanceAs (Decidable True)

/-- The two servers know the same texts and the same settings. -/
structure Agrees (plain : PlainServer) (c : Conversation) : Prop where
  client : plain.client = c.client
  canConfigure : plain.canConfigure = c.session.server.canConfigure
  texts : ∀ uri, plain.texts.get? uri = (c.session.server.documents.get? uri).map Document.text
  sound : c.session.Sound False c.client
  tags : ∀ repository tags, c.session.server.tags? repository = some tags →
    c.client.tags repository = some tags
  permits : c.session.server.maxConcurrent ≤ Server.maxPermits
  failed : plain.failed = (c.client.overtaxes && c.session.tasks.any Task.isConfiguring)

theorem Agrees.settings_eq (h : Agrees plain c) (uri : String) :
    plain.settings uri = c.session.server.reported c.client uri := by
  simp [PlainServer.settings, Server.reported, h.client, h.canConfigure]

end Conversation

namespace PlainServer

variable {plain : PlainServer}

/-- The formatter that an inquiry brings along is the right one, if it needs one. -/
def Formats (plain : PlainServer) (inquiry : Inquiry) : Prop :=
  inquiry.question.needsFormatter = true → inquiry.formatter = (plain.settings inquiry.uri).formatter

/-- What a task has read for an answer is what the plain server would read. -/
def Trusts (plain : PlainServer) : Task → Prop
  | .findSettings (.answer inquiry) | .takeSettings (.answer inquiry) | .consult inquiry
  | .capture inquiry _ => plain.Formats inquiry
  | .conclude inquiry snapshot =>
      plain.Formats inquiry ∧ plain.texts.get? inquiry.uri = some snapshot.text ∧
        snapshot.checks = (plain.settings inquiry.uri).checks
  | .takeTags inquiry repository a =>
      plain.Formats inquiry ∧ inquiry.question.repository? a = some repository ∧
        ∃ text, plain.texts.get? inquiry.uri = some text ∧
          a = analyze text (plain.settings inquiry.uri).checks
  | _ => True

def owed (plain : PlainServer) (inquiry : Inquiry) : List Outgoing :=
  plain.answer inquiry.id (.ask inquiry.uri inquiry.question)

theorem replies_eq_owed {inquiry : Inquiry} {text : Text} {a : Analysis}
    (hformats : plain.Formats inquiry) (htext : plain.texts.get? inquiry.uri = some text)
    (ha : a = analyze text (plain.settings inquiry.uri).checks) :
    inquiry.replies (plain.tags inquiry.question a) a = plain.owed inquiry := by
  subst ha
  simp only [owed, answer, htext, Inquiry.replies]
  cases hneeds : inquiry.question.needsFormatter with
  | true => rw [hformats hneeds]
  | false => rw [Question.answer_formatter hneeds _ _ inquiry.formatter]

theorem unopened_eq_owed {inquiry : Inquiry} (htext : plain.texts.get? inquiry.uri = none) :
    inquiry.unopened = plain.owed inquiry := by
  simp [owed, answer, htext, Inquiry.unopened]

/-- A step on the way to an answer: it gives the answer, or leads on to one task that will. -/
def Keeps (plain : PlainServer) (inquiry : Inquiry) (outcome : Outcome) : Prop :=
  outcome.timers = [] ∧
    (outcome.tasks = [] ∧ outcome.sent.filter Outgoing.isAnswer = plain.owed inquiry ∨
      ∃ next other, outcome.tasks = [next] ∧ next.inquiry? = some other ∧ plain.Trusts next ∧
        plain.owed other = plain.owed inquiry ∧ outcome.sent.filter Outgoing.isAnswer = [])

theorem filter_answer (plain : PlainServer) (id : Nat) (request : Request) :
    (plain.answer id request).filter Outgoing.isAnswer = plain.answer id request := by
  rw [List.filter_eq_self]
  cases request with
  | ask uri question =>
    simp only [answer]
    split
    · simp [Outgoing.isAnswer]
    · rename_i text _
      cases question.edit? (analyze text (plain.settings uri).checks) <;> simp [Outgoing.isAnswer]
  | _ => simp [answer, Outgoing.isAnswer]

theorem keeps_of_answer {inquiry : Inquiry} {outcome : Outcome} (htasks : outcome.tasks = [])
    (htimers : outcome.timers = []) (hsent : outcome.sent = plain.owed inquiry) :
    plain.Keeps inquiry outcome := by
  refine ⟨htimers, .inl ⟨htasks, ?_⟩⟩
  rw [hsent]
  exact filter_answer _ _ _

/-- Once there is an analysis, the answer is given or waits for tags. Those that are known are the ones
that Docker Hub lists. -/
theorem keeps_respond {inquiry : Inquiry} {text : Text} {a : Analysis} {server : Server}
    (hformats : plain.Formats inquiry) (htext : plain.texts.get? inquiry.uri = some text)
    (ha : a = analyze text (plain.settings inquiry.uri).checks)
    (hlisted : ∀ repository tags, server.tags? repository = some tags →
      plain.client.tags repository = some tags) :
    plain.Keeps inquiry (inquiry.respond server a) := by
  have howed := replies_eq_owed hformats htext ha
  rcases Inquiry.respond_cases server inquiry a with
    ⟨tags, heq, hneeded⟩ | ⟨repository, hrepository, heq⟩
  · have htags : plain.tags inquiry.question a = tags := by
      rcases hneeded with ⟨hnone, rfl⟩ | ⟨repository, hrepository, hknown⟩
      · simp [PlainServer.tags, hnone]
      · simp [PlainServer.tags, hrepository, hlisted repository tags hknown]
    rw [heq]
    exact keeps_of_answer rfl rfl (htags ▸ howed)
  · rw [heq]
    exact ⟨rfl, .inr ⟨_, _, rfl, rfl, ⟨hformats, hrepository, text, htext, ha⟩, rfl, rfl⟩⟩

theorem keeps_go {purpose : Purpose} {inquiry : Inquiry} (now : Nat) (server : Server)
    (h : purpose.inquiry? = some inquiry) (htrusts : plain.Trusts (.findSettings purpose)) :
    plain.Keeps inquiry (purpose.go now server (plain.settings purpose.uri)) := by
  cases purpose with
  | format asked =>
    obtain rfl : asked = inquiry := by simpa [Purpose.inquiry?] using h
    refine ⟨rfl, .inr ⟨_, _, rfl, rfl, fun _ => rfl, rfl, rfl⟩⟩
  | answer asked =>
    obtain rfl : asked = inquiry := by simpa [Purpose.inquiry?] using h
    exact ⟨rfl, .inr ⟨_, _, rfl, rfl, htrusts, rfl, rfl⟩⟩
  | validate => simp [Purpose.inquiry?] at h

end PlainServer

namespace Conversation

variable {c : Conversation} {plain : PlainServer}

/-- An analysis that is kept while only an answer is on its way is the one that the plain server
computes. -/
theorem Agrees.analysis_eq {task : Task} {inquiry : Inquiry} {document : Document} {a : Analysis}
    (h : Agrees plain c) (htask : c.session.tasks = [task])
    (hinquiry : task.inquiry? = some inquiry) {uri : String}
    (hopen : c.session.server.documents.get? uri = some document)
    (ha : document.analysis = some a) :
    a = analyze document.text (plain.settings uri).checks := by
  rw [h.settings_eq]
  refine ((h.sound.documents uri document hopen).analysis a ha).resolve_right ?_
  rintro (htake | ⟨listed, -, hlisted⟩)
  · rw [htask, List.mem_singleton] at htake
    simp [← htake, Task.inquiry?] at hinquiry
  · simp only [Session.awaiting, htask, List.flatMap_cons, List.flatMap_nil,
      List.append_nil] at hlisted
    cases task with
    | findSettings purpose | takeSettings purpose =>
      cases purpose <;> simp_all [Task.awaiting, Task.inquiry?, Purpose.later, Purpose.inquiry?]
    | _ => simp_all [Task.awaiting, Task.inquiry?]

theorem Agrees.keeps_step {task : Task} {inquiry : Inquiry} {outcome : Outcome}
    (h : Agrees plain c) (htask : c.session.tasks = [task])
    (hinquiry : task.inquiry? = some inquiry) (htrusts : plain.Trusts task)
    (hstep : Task.LeadsTo c.client c.session.now c.session.server task outcome) :
    plain.Keeps inquiry outcome := by
  cases hstep with
  | known purpose settings hknown =>
    rw [h.sound.known _ _ hknown, ← h.settings_eq]
    exact PlainServer.keeps_go _ _ hinquiry htrusts
  | asks purpose =>
    refine ⟨rfl, .inr ⟨_, _, rfl, hinquiry, ?_, rfl, rfl⟩⟩
    cases purpose with
    | format | validate => trivial
    | answer => exact htrusts
  | assumes purpose _ hcannot =>
    have hdefaults : plain.settings purpose.uri = {} := by
      simp [h.settings_eq, Server.reported, hcannot]
    rw [← hdefaults]
    exact PlainServer.keeps_go _ _ hinquiry htrusts
  | learns purpose =>
    have hcan := h.sound.asked purpose (by simp [htask])
    have hsettings : c.client.documentSettings purpose.uri = plain.settings purpose.uri := by
      simp [h.settings_eq, Server.reported, hcan]
    rw [hsettings]
    refine PlainServer.keeps_go _ _ hinquiry ?_
    cases purpose with
    | format | validate => trivial
    | answer => exact htrusts
  | recalls asked a hkept =>
    obtain rfl : asked = inquiry := Option.some.inj hinquiry
    obtain ⟨document, hopen, ha⟩ := Option.bind_eq_some_iff.mp hkept
    have htext : plain.texts.get? asked.uri = some document.text := by
      rw [h.texts, hopen, Option.map_some]
    refine PlainServer.keeps_respond htrusts htext (h.analysis_eq htask hinquiry hopen ha) ?_
    rw [h.client]
    exact h.tags
  | lacks asked =>
    obtain rfl : asked = inquiry := Option.some.inj hinquiry
    exact ⟨rfl, .inr ⟨_, _, rfl, rfl, htrusts, rfl, rfl⟩⟩
  | reads asked checks document hopen =>
    obtain rfl : asked = inquiry := Option.some.inj hinquiry
    refine ⟨rfl, .inr ⟨_, _, rfl, rfl, ⟨htrusts, ?_, ?_⟩, rfl, rfl⟩⟩
    · rw [h.texts, hopen, Option.map_some]
      rfl
    · rw [h.settings_eq]
      exact h.sound.held (asked.uri, checks) (by simp [Session.held, htask, Task.held?])
  | misses asked checks hclosed =>
    obtain rfl : asked = inquiry := Option.some.inj hinquiry
    refine PlainServer.keeps_of_answer rfl rfl (PlainServer.unopened_eq_owed ?_)
    rw [h.texts, hclosed, Option.map_none]
  | concludes asked snapshot =>
    obtain rfl : asked = inquiry := Option.some.inj hinquiry
    obtain ⟨hformats, htext, hchecks⟩ := htrusts
    refine PlainServer.keeps_respond hformats htext (by rw [Snapshot.analysis, hchecks]) ?_
    rw [h.client]
    exact h.tags
  | lists asked repository a tags hlisted =>
    obtain rfl : asked = inquiry := Option.some.inj hinquiry
    obtain ⟨hformats, hrepository, text, htext, ha⟩ := htrusts
    have htags : plain.tags asked.question a = tags := by
      simp [PlainServer.tags, hrepository, h.client, hlisted]
    exact PlainServer.keeps_of_answer rfl rfl
      (htags ▸ PlainServer.replies_eq_owed hformats htext ha)
  | unlisted asked repository a hnone =>
    obtain rfl : asked = inquiry := Option.some.inj hinquiry
    obtain ⟨hformats, hrepository, text, htext, ha⟩ := htrusts
    have htags : plain.tags asked.question a = [] := by
      simp [PlainServer.tags, hrepository, h.client, hnone]
    exact PlainServer.keeps_of_answer rfl rfl
      (htags ▸ PlainServer.replies_eq_owed hformats htext ha)
  | _ => simp [Task.inquiry?] at hinquiry

/-! ## Moves -/

theorem careful_of_idle {m : Move} (hidle : c.session.Idle) (h : c.Sequential m) : c.Careful m := by
  have hsnapshots : ∀ uri, c.session.snapshots uri = [] := by
    intro uri
    simp [Session.snapshots, hidle.1]
  cases m with
  | notify notification =>
    cases notification with
    | opened uri version text => exact hsnapshots uri
    | changed uri version changes => exact fun _ => hsnapshots uri
    | _ => trivial
  | reconfigure configuration => simp [Careful, Session.held, hidle.1, hidle.2]
  | request id request => exact h.1
  | _ => trivial

theorem texts_heed {server : Server} (notification : Notification)
    (h : ∀ uri, plain.texts.get? uri = (server.documents.get? uri).map Document.text)
    (uri : String) : (plain.heed notification).texts.get? uri =
      ((server.heed notification).server.documents.get? uri).map Document.text := by
  cases notification with
  | initialized | configurationChanged =>
    simp [Server.heed, Server.dropSettings, PlainServer.heed, h]
  | opened about version text =>
    simp only [Server.heed, Server.schedule, Server.get?_openDocument, PlainServer.heed,
      Store.get?_insert, h]
    split <;> rfl
  | changed about version changes =>
    simp only [Server.heed, Server.schedule, Server.get?_changeDocument, PlainServer.heed,
      Store.get?_insert, h]
    split
    · cases server.documents.get? about <;> simp
    · rfl
  | closed about =>
    simp only [Server.heed, Server.get?_closeDocument, PlainServer.heed, Store.get?_erase, h]
    split <;> rfl

theorem client_heed (notification : Notification) :
    (plain.heed notification).client = plain.client ∧
      (plain.heed notification).canConfigure = plain.canConfigure := by
  cases notification <;> exact ⟨rfl, rfl⟩

theorem failed_heed (notification : Notification) :
    (plain.heed notification).failed = (plain.failed ||
      notification.about?.isNone && plain.canConfigure && plain.client.overtaxes) := by
  cases notification <;> simp [PlainServer.heed, Notification.about?]

theorem Agrees.failed_of_idle (h : Agrees plain c) (hidle : c.session.Idle) :
    plain.failed = false := by
  simp [h.failed, hidle.1]

/-- A notification keeps the servers in agreement, also if the editor answers otherwise from then
on. -/
theorem Agrees.heeded {client : Client} {notification : Notification} (h : Agrees plain c)
    (hidle : c.session.Idle) (htags : client.tags = c.client.tags)
    (hsound : (c.session.absorb (c.session.server.heed notification)).Sound False client) :
    Agrees ({ plain with client }.heed notification)
      ({ c with client }.take (c.session.server.heed notification)) where
  client := (client_heed notification).1
  canConfigure := by
    rw [(client_heed notification).2, h.canConfigure]
    exact (Server.canConfigure_heed _ _).symm
  texts := texts_heed notification h.texts
  sound := hsound
  tags repository tags hknown := by
    obtain ⟨-, -, hkept⟩ := Server.heed_kept c.session.server notification
    simp only [take, Session.absorb, Server.tags?, hkept] at hknown
    rw [take, htags]
    exact h.tags repository tags hknown
  permits := by
    obtain ⟨-, hkept, -⟩ := Server.heed_kept c.session.server notification
    simpa only [take, Session.absorb, hkept] using h.permits
  failed := by
    rw [failed_heed, h.failed_of_idle hidle]
    simp only [take, Session.absorb, hidle.1, List.nil_append, Server.any_isConfiguring_heed,
      h.canConfigure, Bool.false_or]
    exact Bool.and_comm _ _

theorem Agrees.accepted {id : Nat} {request : Request} (h : Agrees plain c)
    (hidle : c.session.Idle) (hordinary : request.isOrdinary = true) :
    Agrees plain (c.take (c.session.server.accept id request)) where
  client := h.client
  canConfigure := by
    rw [h.canConfigure]
    simp only [take, Session.absorb, Server.server_accept hordinary]
  texts uri := by
    rw [h.texts]
    simp only [take, Session.absorb, Server.server_accept hordinary]
  sound := h.sound.accepted hordinary
  tags repository tags hknown := by
    simp only [take, Session.absorb, Server.server_accept hordinary] at hknown
    exact h.tags repository tags hknown
  permits := by simpa only [take, Session.absorb, Server.server_accept hordinary] using h.permits
  failed := by
    rw [h.failed_of_idle hidle]
    simp only [take, Session.absorb, hidle.1, List.nil_append]
    cases request with
    | ask uri question =>
      cases hneeds : question.needsFormatter <;>
        simp [Server.accept, hneeds, Task.isConfiguring]
    | _ => simp [Server.accept]

/-- A task that cannot be gone on with takes settings over that ask for too much. -/
theorem Agrees.fails_iff {task : Task} (h : Agrees plain c) :
    task.fails c.client c.session.server = true ↔
      task.isConfiguring = true ∧ c.client.overtaxes = true := by
  cases task with
  | takeConfiguration revalidates =>
    simp [Task.fails, Task.isConfiguring, Server.overtaxed_configure h.permits]
  | _ => simp [Task.fails, Task.isConfiguring]

theorem Agrees.proceed {task : Task} {rest : List Task} (h : Agrees plain c)
    (hperm : c.session.tasks.Perm (task :: rest))
    (hgoes : task.fails c.client c.session.server = false) : Agrees plain (c.proceed task rest) where
  client := h.client
  canConfigure := h.canConfigure.trans (Task.step_canConfigure _ _ _ _).symm
  texts uri := by
    rw [h.texts, get?_proceed, Option.map_map]
    cases c.session.server.documents.get? uri <;> simp
  sound := h.sound.stepped hperm
  tags repository tags hknown := by
    rcases (Task.leadsTo c.client c.session.now c.session.server task).tags? hknown with
      hold | hlisted
    · exact h.tags repository tags hold
    · exact hlisted
  permits := (Task.leadsTo c.client c.session.now c.session.server task).permits hgoes h.permits
  failed := by
    have hnone := (Task.leadsTo c.client c.session.now c.session.server task).configuring
    have hfails : task.fails c.client c.session.server = true ↔ _ := h.fails_iff
    rw [h.failed, hperm.any_eq]
    simp only [Conversation.proceed, Session.proceed, Session.absorb, List.any_append, hnone]
    grind

/-- What the server sent so far, and what it is about to send, is what the plain server answers. -/
structure Follows (plain : PlainServer) (expected : List Outgoing) (c : Conversation) : Prop where
  agrees : Agrees plain c
  answers : (∀ task ∈ c.session.tasks, task.inquiry? = none) ∧ c.answers = expected ∨
    ∃ task inquiry, c.session.tasks = [task] ∧ c.session.timers = [] ∧
      task.inquiry? = some inquiry ∧ plain.Trusts task ∧
      c.answers ++ plain.owed inquiry = expected

variable {expected : List Outgoing}

theorem Follows.proceed {task : Task} {rest : List Task} (h : Follows plain expected c)
    (hperm : c.session.tasks.Perm (task :: rest))
    (hgoes : task.fails c.client c.session.server = false) :
    Follows plain expected (c.proceed task rest) := by
  refine ⟨h.agrees.proceed hperm hgoes, ?_⟩
  have hanswers : (c.proceed task rest).answers = c.answers ++
      (task.step c.client c.session.now c.session.server).sent.filter Outgoing.isAnswer :=
    List.filter_append _ _
  rcases h.answers with ⟨hunasked, hdone⟩ |
    ⟨only, inquiry, htask, htimers, hinquiry, htrusts, hrest⟩
  · obtain ⟨hnext, hsilent⟩ :=
      (Task.leadsTo c.client c.session.now c.session.server task).unasked
        (hunasked task (hperm.mem_iff.mpr List.mem_cons_self))
    refine .inl ⟨fun other hother => ?_, by rw [hanswers, hsilent, List.append_nil, hdone]⟩
    rcases List.mem_append.mp hother with hold | hnew
    · exact hunasked other (hperm.mem_iff.mpr (List.mem_cons_of_mem _ hold))
    · exact hnext other hnew
  · rw [htask] at hperm
    obtain ⟨rfl, rfl⟩ := List.cons.inj (List.perm_singleton.mp hperm.symm)
    obtain ⟨hnone, ⟨hdone, hsent⟩ | ⟨next, other, hnext, hother, htrust, howed, hsilent⟩⟩ :=
      h.agrees.keeps_step htask hinquiry htrusts (Task.leadsTo _ _ _ _)
    · refine .inl ⟨?_, by rw [hanswers, hsent, hrest]⟩
      simp [Conversation.proceed, Session.proceed, Session.absorb, hdone]
    · refine .inr ⟨next, other, ?_, ?_, hother, htrust, ?_⟩
      · simp [Conversation.proceed, Session.proceed, Session.absorb, hnext]
      · simp [Conversation.proceed, Session.proceed, Session.absorb, hnone, htimers]
      · rw [hanswers, hsilent, List.append_nil, howed, hrest]

theorem answers_take (c : Conversation) (outcome : Outcome) :
    (c.take outcome).answers = c.answers ++ outcome.sent.filter Outgoing.isAnswer :=
  List.filter_append _ _

theorem Follows.answers_of_idle (h : Follows plain expected c) (hidle : c.session.Idle) :
    c.answers = expected := by
  rcases h.answers with ⟨-, hdone⟩ | ⟨task, inquiry, htask, -⟩
  · exact hdone
  · rw [hidle.1] at htask
    cases htask

theorem unasked_heed (server : Server) (notification : Notification) :
    (∀ task ∈ (server.heed notification).tasks, task.inquiry? = none) ∧
      (server.heed notification).sent.filter Outgoing.isAnswer = [] := by
  cases notification with
  | initialized | configurationChanged =>
    simp only [Server.heed, Server.loadConfiguration]
    split <;> simp [Task.inquiry?, Outgoing.isAnswer]
  | _ => simp [Server.heed, Server.schedule, Task.inquiry?, Purpose.inquiry?, Outgoing.isAnswer]

theorem Follows.heeded {client : Client} {notification : Notification}
    (h : Follows plain expected c) (hidle : c.session.Idle) (htags : client.tags = c.client.tags)
    (hsound : (c.session.absorb (c.session.server.heed notification)).Sound False client) :
    Follows ({ plain with client }.heed notification) expected
      ({ c with client }.take (c.session.server.heed notification)) := by
  obtain ⟨hunasked, hsilent⟩ := unasked_heed c.session.server notification
  refine ⟨h.agrees.heeded hidle htags hsound, .inl ⟨?_, ?_⟩⟩
  · simpa only [take, Session.absorb, hidle.1, List.nil_append] using hunasked
  · rw [answers_take, hsilent, List.append_nil]
    exact h.answers_of_idle hidle

theorem Follows.asked {id : Nat} {uri : String} {question : Question}
    (h : Follows plain expected c) (hidle : c.session.Idle) :
    Follows plain (expected ++ plain.answer id (.ask uri question))
      (c.take (c.session.server.accept id (.ask uri question))) := by
  let inquiry : Inquiry := { id, uri, question }
  let first := if question.needsFormatter then Task.findSettings (.format inquiry)
    else .consult inquiry
  have htasks : (c.take (c.session.server.accept id (.ask uri question))).session.tasks =
      [first] := by
    simp [take, Session.absorb, Server.accept, hidle.1, first, inquiry]
  have htimers : (c.take (c.session.server.accept id (.ask uri question))).session.timers =
      [] := by
    simp [take, Session.absorb, Server.accept, hidle.2]
  have hanswers : (c.take (c.session.server.accept id (.ask uri question))).answers =
      expected := by
    simp [answers_take, Server.accept, h.answers_of_idle hidle]
  refine ⟨h.agrees.accepted hidle rfl, .inr ⟨first, inquiry, htasks, htimers, ?_, ?_, ?_⟩⟩
  · simp only [first]
    split <;> rfl
  · simp only [first]
    split
    · trivial
    · rename_i hneeds
      exact fun h => absurd h hneeds
  · rw [hanswers]
    rfl

theorem Follows.accepted {id : Nat} {request : Request} (h : Follows plain expected c)
    (hidle : c.session.Idle) (hordinary : request.isOrdinary = true) :
    Follows plain (expected ++ plain.answer id request)
      (c.take (c.session.server.accept id request)) := by
  cases request with
  | ask uri question => exact h.asked hidle
  | actions | idleCommand | unsupported =>
    refine ⟨h.agrees.accepted hidle hordinary, .inl ⟨?_, ?_⟩⟩
    · simp [take, Session.absorb, Server.accept, hidle.1]
    · simp [answers_take, Server.accept, h.answers_of_idle hidle, PlainServer.answer,
        Outgoing.isAnswer]
  | start | shutdown => simp [Request.isOrdinary] at hordinary

theorem Follows.roused {timer : Timer} {others : List Timer} (h : Follows plain expected c)
    (hperm : c.session.timers.Perm (timer :: others)) :
    Follows plain expected { c with session := c.session.rouse timer others } := by
  have hfailed : plain.failed = (c.client.overtaxes &&
      (c.session.rouse timer others).tasks.any Task.isConfiguring) := by
    simp [h.agrees.failed, Session.rouse, Task.isConfiguring]
  refine ⟨{ h.agrees with sound := h.agrees.sound.roused hperm, failed := hfailed }, ?_⟩
  rcases h.answers with ⟨hunasked, hdone⟩ | ⟨task, inquiry, -, htimers, -⟩
  · refine .inl ⟨fun task htask => ?_, hdone⟩
    rcases List.mem_append.mp htask with hold | hnew
    · exact hunasked task hold
    · rw [List.mem_singleton.mp hnew]
      rfl
  · simp [htimers] at hperm

/-- The server is there and follows the plain server, or both are gone. -/
inductive Tracks (plain : PlainServer) (expected : List Outgoing) (c : Conversation) : Prop where
  | there (hthere : ¬c.IsOver) (hfollows : Follows plain expected c)
  | gone (hover : c.IsOver) (hfailed : plain.failed = true) (hanswers : c.answers = expected)

theorem Follows.failed {task : Task} (h : Follows plain expected c)
    (htask : task ∈ c.session.tasks) (hfails : task.fails c.client c.session.server = true) :
    Tracks plain expected { c with session := c.session.fail } := by
  obtain ⟨hconfiguring, hovertaxes⟩ := h.agrees.fails_iff.mp hfails
  refine .gone rfl ?_ ?_
  · rw [h.agrees.failed, hovertaxes, Bool.true_and]
    exact List.any_eq_true.mpr ⟨task, htask, hconfiguring⟩
  · rcases h.answers with ⟨-, hdone⟩ | ⟨only, inquiry, honly, -, hinquiry, -⟩
    · exact hdone
    · rw [honly, List.mem_singleton] at htask
      subst htask
      cases task <;> simp [Task.isConfiguring, Task.inquiry?] at hconfiguring hinquiry

theorem failed_move (h : plain.failed = true) (m : Move) : (plain.move m).failed = true := by
  cases m with
  | notify notification => simp [PlainServer.move, failed_heed, h]
  | reconfigure configuration => simp [PlainServer.move, failed_heed, h]
  | _ => exact h

theorem Follows.moved {m : Move} (h : Follows plain expected c) (hthere : ¬c.IsOver)
    (hsequential : c.Sequential m) :
    Tracks (plain.move m) (expected ++ plain.reply m) (c.act m) := by
  cases m with
  | notify notification =>
    have hidle : c.session.Idle := hsequential.resolve_right hthere
    obtain ⟨hphase, -⟩ := Server.heed_kept c.session.server notification
    have hsound := sound_move h.agrees.sound (careful_of_idle hidle hsequential) False.elim
    rw [move_of_not_isOver hthere] at hsound
    simp only [PlainServer.reply, List.append_nil]
    refine .there (mt (isOver_congr hphase).mp hthere) ?_
    have hclient : { plain with client := c.client } = plain := by rw [← h.agrees.client]
    rw [PlainServer.move, ← hclient]
    exact h.heeded hidle rfl hsound
  | reconfigure configuration =>
    have hidle : c.session.Idle := hsequential.resolve_right hthere
    obtain ⟨hphase, -⟩ := Server.heed_kept c.session.server .configurationChanged
    have hsound := sound_move h.agrees.sound (careful_of_idle hidle hsequential) False.elim
    rw [move_of_not_isOver hthere] at hsound
    simp only [PlainServer.reply, List.append_nil, PlainServer.move, h.agrees.client]
    exact .there (mt (isOver_congr hphase).mp hthere) (h.heeded hidle rfl hsound)
  | request id request =>
    obtain ⟨hordinary, hquiet⟩ := hsequential
    have hidle : c.session.Idle := hquiet.resolve_right hthere
    simp only [PlainServer.reply, h.agrees.failed_of_idle hidle]
    refine .there (mt (isOver_congr ?_).mp hthere) (h.accepted hidle hordinary)
    simp only [act, take, Session.absorb, Server.server_accept hordinary]
  | advance index =>
    simp only [PlainServer.reply, List.append_nil]
    refine advanced (P := Tracks plain expected) (.there hthere h)
      (fun _ htask hfails => h.failed htask hfails) fun task rest _ hperm hgoes => ?_
    exact .there (mt (isOver_congr (Task.step_phase _ _ _ _)).mp hthere) (h.proceed hperm hgoes)
  | wake index =>
    simp only [PlainServer.reply, List.append_nil]
    refine woken (P := Tracks plain expected) (.there hthere h) fun _ _ hperm => ?_
    exact .there hthere (h.roused hperm)
  | pass ms =>
    simp only [PlainServer.reply, List.append_nil]
    obtain ⟨known, asked, held, documents⟩ := h.agrees.sound
    refine .there hthere ⟨{ h.agrees with sound := ⟨known, asked, held, documents⟩ }, h.answers⟩

theorem Tracks.moved {m : Move} (h : Tracks plain expected c) (hsequential : c.Sequential m) :
    Tracks (plain.move m) (expected ++ plain.reply m) (c.move m) := by
  cases h with
  | there hthere hfollows =>
    rw [move_of_not_isOver hthere]
    exact hfollows.moved hthere hsequential
  | gone hover hfailed hanswers =>
    have hsilent : plain.reply m = [] := by cases m <;> simp [PlainServer.reply, hfailed]
    rw [move_of_isOver hover, hsilent, List.append_nil]
    exact .gone hover (failed_move hfailed m) hanswers

theorem Tracks.run {moves : List Move} (h : Tracks plain expected c)
    (hsequential : Orderly Sequential c moves) :
    ∃ after, Tracks after (expected ++ plain.answers moves) (c.run moves) := by
  induction moves generalizing c plain expected with
  | nil => exact ⟨plain, by simpa [PlainServer.answers] using h⟩
  | cons m rest ih =>
    obtain ⟨after, hafter⟩ := ih (h.moved hsequential.1) hsequential.2
    exact ⟨after, by simpa [PlainServer.answers] using hafter⟩

theorem Tracks.answers_of_quiet (h : Tracks plain expected c) (hquiet : c.Quiet) :
    c.answers = expected := by
  cases h with
  | there hthere hfollows => exact hfollows.answers_of_idle (hquiet.resolve_right hthere)
  | gone hover hfailed hanswers => exact hanswers

theorem tracks_start (client : Client) (canConfigure : Bool) :
    Tracks { client, canConfigure } [] (start client canConfigure) := by
  refine .there (by simp [IsOver, start, Phase.isOver]) ⟨?_, .inl ⟨by simp [start], rfl⟩⟩
  exact {
    client := rfl
    canConfigure := rfl
    texts := fun _ => rfl
    sound := sound_start _ _ _
    tags := by
      intro _ _ hknown
      cases hknown
    permits := show 2 ≤ Server.maxPermits by decide
    failed := (Bool.and_false _).symm }

theorem orderly_of_steps {steps : List Move} (h : ∀ m ∈ steps, m.isStep = true) :
    Orderly Sequential c steps := by
  induction steps generalizing c with
  | nil => trivial
  | cons m rest ih =>
    refine ⟨?_, ih fun m hm => h m (List.mem_cons_of_mem _ hm)⟩
    have := h m List.mem_cons_self
    cases m <;> simp_all [Move.isStep, Sequential]

theorem answers_of_steps {steps : List Move} (h : ∀ m ∈ steps, m.isStep = true) :
    plain.answers steps = [] := by
  induction steps generalizing plain with
  | nil => rfl
  | cons m rest ih =>
    have := h m List.mem_cons_self
    rw [PlainServer.answers, ih fun m hm => h m (List.mem_cons_of_mem _ hm)]
    cases m <;> simp_all [Move.isStep, PlainServer.reply]

/-- Questions about a document that is not open, that is changed without having been opened, whose
settings change, and that is closed. -/
def interview : List Move :=
  let rounds n := List.replicate n (Move.advance 0)
  [.request 1 (.ask "d" .diagnostics)] ++ rounds 4 ++
    [.notify (.changed "d" 1 [⟨none, "MAINTAINER b".toList⟩])] ++ rounds 3 ++
    [.pass 250, .wake 0] ++ rounds 3 ++ [.request 2 (.ask "d" .diagnostics)] ++ rounds 1 ++
    [.notify (.changed "d" 2 [⟨some ⟨⟨0, 0⟩, ⟨0, 0⟩⟩, "FROM a\n  ".toList⟩])] ++ rounds 2 ++
    [.pass 250, .wake 0] ++ rounds 3 ++
    [.reconfigure (Client.holding { deprecatedMaintainer := .ignore }).configuration] ++
    rounds 5 ++ [.wake 0] ++ rounds 3 ++ [.request 3 (.ask "d" .diagnostics)] ++ rounds 1 ++
    [.request 4 (.ask "d" (.format ⟨4, true⟩))] ++ rounds 2 ++
    [.notify (.closed "d"), .request 5 (.ask "d" .outline)] ++ rounds 4

/-- An editor whose settings ask for one permit more than there are. -/
def overtaxing : Client where
  configuration _ :=
    some [.object [("performance", .object [("maxConcurrent", .nat (Server.maxPermits + 1))])]]
  tags _ := none

/-- A document is opened, settings are loaded, and the outline of the document is asked for. -/
def orphaned : List Move :=
  let rounds n := List.replicate n (Move.advance 0)
  [.notify (.opened "d" 1 "FROM a".toList)] ++ rounds 3 ++ [.wake 0] ++ rounds 3 ++
    [.notify .configurationChanged, .advance 0, .request 1 (.ask "d" .outline)]

end Conversation

end Dockerfile
