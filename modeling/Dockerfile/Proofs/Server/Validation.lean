import Dockerfile.Proofs.Server.Cache

/-!
# Every document is looked at

A document that is open is shown as it stands, or a validation that shows it so is under way, or it is
still going to be looked at; about one that is closed nothing is shown and nothing is under way. This
is `Consistent`, and it holds along every conversation in which nothing of a former state of a
document is still on its way when it matters (`Punctual`).

Main statement: a move keeps it (`consistent_move`).
-/

namespace Dockerfile

def Snapshot.IsOf (s : Snapshot) (document : Document) (checks : Settings) : Prop :=
  s.version = document.version ∧ s.text = document.text ∧ s.checks = checks

instance (s : Snapshot) (document : Document) (checks : Settings) :
    Decidable (s.IsOf document checks) :=
  inferInstanceAs (Decidable (_ ∧ _))

namespace Session

variable {client : Client} {session : Session} {outcome : Outcome} {uri : String} {version : Int}

/-- A document is still going to be looked at in a version. -/
def Due (session : Session) (uri : String) (version : Int) : Prop :=
  .takeConfiguration true ∈ session.tasks ∨ (uri, version) ∈ session.due

theorem Drops.due (h : session.Drops True uri version) : session.Due uri version := by
  refine h.imp_right ?_
  rintro ⟨listed, hversion, hlisted⟩
  obtain rfl := hversion trivial
  obtain ⟨task, htask, hlisted⟩ := List.mem_flatMap.mp hlisted
  exact List.mem_append_left _
    (List.mem_flatMap.mpr ⟨task, htask, Task.mem_due_of_mem_awaiting hlisted⟩)

theorem Due.absorb (h : session.Due uri version) : (session.absorb outcome).Due uri version :=
  h.imp (List.mem_append_left _) fun h => mem_due_absorb.mpr (.inl h)

theorem Due.rouse {timer : Timer} {others : List Timer}
    (hperm : session.timers.Perm (timer :: others)) (h : session.Due uri version) :
    (session.rouse timer others).Due uri version :=
  h.imp (List.mem_append_left _) (mem_due_rouse hperm).mpr

variable {task : Task} {rest : List Task} {document : Document}

/-- Only the look at a document itself takes it off what is due. -/
theorem Due.proceed (hperm : session.tasks.Perm (task :: rest))
    (hopen : session.server.documents.get? uri = some document)
    (hlook : ∀ timer, task = .inspect timer → (timer.uri, timer.version) ≠ (uri, document.version))
    (h : session.Due uri document.version) :
    (session.proceed client task rest).Due uri document.version := by
  rcases h with htake | hdue
  · rcases List.mem_cons.mp (hperm.mem_iff.mp htake) with rfl | htake
    · refine .inr (mem_due_absorb.mpr (.inr ?_))
      simpa [Task.step, Outcome.due, Task.due, Server.versions] using Server.mem_versions hopen
    · exact .inl (List.mem_append_left _ htake)
  · refine .inr (mem_due_absorb.mpr ?_)
    rcases List.mem_append.mp hdue with hdue | htimer
    · obtain ⟨other, hother, hdue⟩ := List.mem_flatMap.mp hdue
      rcases List.mem_cons.mp (hperm.mem_iff.mp hother) with rfl | hother
      · rcases (Task.leadsTo client session.now session.server other).due hdue with
          hnext | ⟨timer, heq, hentry⟩
        · exact .inr hnext
        · exact absurd hentry.symm (hlook timer heq)
      · exact .inl (List.mem_append_left _ (List.mem_flatMap.mpr ⟨other, hother, hdue⟩))
    · exact .inl (List.mem_append_right _ htimer)

theorem validations_proceed (hperm : session.tasks.Perm (task :: rest)) {s : Snapshot}
    (h : s ∈ (session.proceed client task rest).validations uri) :
    s ∈ session.validations uri ∨
      ∃ timer document, task = .inspect timer ∧ timer.uri = uri ∧
        session.server.documents.get? uri = some document ∧ document.version = timer.version ∧
        document.analysis = none ∧ s = document.snapshot uri timer.checks := by
  rcases mem_validations_absorb.mp h with hold | ⟨hnew, rfl⟩
  · obtain ⟨other, hother, hold⟩ := mem_validations.mp hold
    exact .inl
      (mem_validations.mpr ⟨other, hperm.mem_iff.mpr (List.mem_cons_of_mem _ hother), hold⟩)
  · rcases (Task.leadsTo client session.now session.server task).validation hnew with
      hpassed | ⟨timer, document, heq, huri, hread⟩
    · exact .inl
        (mem_validations.mpr ⟨task, hperm.mem_iff.mpr List.mem_cons_self, hpassed, rfl⟩)
    · rw [huri] at hread
      exact .inr ⟨timer, document, heq, huri, hread⟩

theorem mem_validations_proceed (hperm : session.tasks.Perm (task :: rest)) {s : Snapshot}
    (h : s ∈ session.validations uri) (hreport : task ≠ .report s) :
    s ∈ (session.proceed client task rest).validations uri := by
  obtain ⟨other, hother, hs, huri⟩ := mem_validations.mp h
  rcases List.mem_cons.mp (hperm.mem_iff.mp hother) with rfl | hother
  · have hnext := (Task.leadsTo client session.now session.server other).validation_ends hs
    exact mem_validations_absorb.mpr (.inr ⟨hnext.resolve_right hreport, huri⟩)
  · exact mem_validations_absorb.mpr (.inl (mem_validations.mpr ⟨other, hother, hs, huri⟩))

end Session

namespace Conversation

variable {c : Conversation} {uri : String} {document : Document}

/-- What was published about a document, in order. -/
def publications (c : Conversation) (uri : String) : List (Option Int × List Report) :=
  c.sent.filterMap (Outgoing.published? uri)

def shown (c : Conversation) (uri : String) : Option (Option Int × List Report) :=
  (c.publications uri).getLast?

def Cleared (c : Conversation) (uri : String) : Prop :=
  c.session.validations uri = [] ∧ ∀ last ∈ c.shown uri, last = (none, [])

def Announced (c : Conversation) (uri : String) (document : Document) : Prop :=
  c.session.Due uri document.version ∨
    (∀ s ∈ c.session.validations uri, s.IsOf document (c.reported uri).checks) ∧
    (c.session.validations uri ≠ [] ∨
      c.shown uri =
        some (some document.version, (analyze document.text (c.reported uri).checks).reports))

structure Consistent (c : Conversation) (uri : String) : Prop where
  cleared : c.session.server.documents.get? uri = none → c.Cleared uri
  announced : ∀ document, c.session.server.documents.get? uri = some document →
    c.Announced uri document

@[simp] theorem reported_proceed (c : Conversation) (task : Task) (rest : List Task) :
    (c.proceed task rest).reported uri = c.reported uri := by
  simp [proceed, Session.proceed, Session.absorb, reported, Server.reported]

theorem publications_proceed (c : Conversation) (task : Task) (rest : List Task) :
    (c.proceed task rest).publications uri = c.publications uri ++
      (task.step c.client c.session.now c.session.server).sent.filterMap
        (Outgoing.published? uri) :=
  List.filterMap_append

variable {task : Task} {rest : List Task}

/-- A timer that finds its document in its version leaves it announced, whatever was the case
before. -/
theorem announced_inspect {timer : Timer} (hsound : c.session.Sound True c.client)
    (hperm : c.session.tasks.Perm (.inspect timer :: rest))
    (hopen : c.session.server.documents.get? timer.uri = some document)
    (hversion : document.version = timer.version)
    (hcurrent : ∀ s ∈ c.session.validations timer.uri,
      s.IsOf document (c.reported timer.uri).checks) :
    (c.proceed (.inspect timer) rest).Announced timer.uri document := by
  have hheld : timer.checks = (c.reported timer.uri).checks :=
    hsound.held (timer.uri, timer.checks) (List.mem_append_left _
      (List.mem_filterMap.mpr ⟨_, hperm.mem_iff.mpr List.mem_cons_self, rfl⟩))
  have hafter : ∀ s ∈ (c.proceed (.inspect timer) rest).session.validations timer.uri,
      s.IsOf document (c.reported timer.uri).checks := by
    intro s hs
    rcases Session.validations_proceed hperm hs with hs | ⟨other, read, heq, -, hread, -, -, rfl⟩
    · exact hcurrent s hs
    · obtain rfl := Task.inspect.inj heq
      obtain rfl := Option.some.inj (hread.symm.trans hopen)
      exact ⟨rfl, rfl, hheld⟩
  unfold Announced
  rw [reported_proceed]
  cases hanalysis : document.analysis with
  | none =>
    have hnew : document.snapshot timer.uri timer.checks ∈
        (c.proceed (.inspect timer) rest).session.validations timer.uri := by
      refine Session.mem_validations_absorb.mpr (.inr ⟨?_, rfl⟩)
      simp [Task.step, hopen, hversion, hanalysis, Task.validation?]
    exact .inr ⟨hafter, .inl (List.ne_nil_of_mem hnew)⟩
  | some a =>
    rcases (hsound.documents _ _ hopen).analysis a hanalysis with rfl | hdrops
    · refine .inr ⟨hafter, .inr ?_⟩
      rw [shown, publications_proceed]
      simp [Task.step, hopen, hversion, hanalysis, Outgoing.published?, reported]
    · exact .inl (Session.Sound.drops_stepped hperm hopen (by simp) hdrops).due

theorem shown_proceed_of_silent
    (h : (task.step c.client c.session.now c.session.server).sent.filterMap
      (Outgoing.published? uri) = []) : (c.proceed task rest).shown uri = c.shown uri := by
  rw [shown, publications_proceed, h, List.append_nil, shown]

/-- A step publishes about a document only if it is a report on it or a look at it. -/
theorem silent_of_open (hopen : c.session.server.documents.get? uri = some document)
    (hlook : ∀ timer, task = .inspect timer →
      (timer.uri, timer.version) ≠ (uri, document.version))
    (hreport : ¬∃ s, task = .report s ∧ s.uri = uri) :
    (task.step c.client c.session.now c.session.server).sent.filterMap
      (Outgoing.published? uri) = [] := by
  rcases (Task.leadsTo c.client c.session.now c.session.server task).published uri with
    hsilent | hreports | ⟨timer, read, a, heq, rfl, hread, hversion, -⟩
  · exact hsilent
  · exact absurd hreports hreport
  · obtain rfl := Option.some.inj (hread.symm.trans hopen)
    exact absurd (by rw [hversion]) (hlook timer heq)

theorem silent_of_closed (hclosed : c.session.server.documents.get? uri = none)
    (hperm : c.session.tasks.Perm (task :: rest)) (hnone : c.session.validations uri = []) :
    (task.step c.client c.session.now c.session.server).sent.filterMap
      (Outgoing.published? uri) = [] := by
  rcases (Task.leadsTo c.client c.session.now c.session.server task).published uri with
    hsilent | ⟨s, rfl, huri⟩ | ⟨timer, document, a, -, rfl, hopen, -⟩
  · exact hsilent
  · have hs := Session.mem_validations.mpr
      ⟨_, hperm.mem_iff.mpr List.mem_cons_self, rfl, huri⟩
    simp [hnone] at hs
  · simp [hclosed] at hopen

/-- A step that is no look at a document begins no validation of it. -/
theorem mem_validations_of_proceed {s : Snapshot} (hperm : c.session.tasks.Perm (task :: rest))
    (hopen : c.session.server.documents.get? uri = some document)
    (hlook : ∀ timer, task = .inspect timer →
      (timer.uri, timer.version) ≠ (uri, document.version))
    (hs : s ∈ (c.proceed task rest).session.validations uri) :
    s ∈ c.session.validations uri := by
  refine (Session.validations_proceed hperm hs).resolve_right ?_
  rintro ⟨timer, read, heq, rfl, hread, hversion, -⟩
  obtain rfl := Option.some.inj (hread.symm.trans hopen)
  exact hlook timer heq (by rw [hversion])

theorem Announced.proceed (h : c.Announced uri document)
    (hperm : c.session.tasks.Perm (task :: rest))
    (hopen : c.session.server.documents.get? uri = some document)
    (hlook : ∀ timer, task = .inspect timer →
      (timer.uri, timer.version) ≠ (uri, document.version)) :
    (c.proceed task rest).Announced uri document := by
  rcases h with hdue | ⟨hcurrent, hshown⟩
  · exact .inl (hdue.proceed hperm hopen hlook)
  unfold Announced
  rw [reported_proceed]
  refine .inr
    ⟨fun s hs => hcurrent s (mem_validations_of_proceed hperm hopen hlook hs), ?_⟩
  by_cases hreport : ∃ s, task = .report s ∧ s.uri = uri
  · obtain ⟨s, rfl, rfl⟩ := hreport
    obtain ⟨hversion, htext, hchecks⟩ := hcurrent s
      (Session.mem_validations.mpr ⟨_, hperm.mem_iff.mpr List.mem_cons_self, rfl, rfl⟩)
    refine .inr ?_
    rw [shown, publications_proceed]
    simp [Task.step, Outgoing.published?, Snapshot.analysis, hversion, htext, hchecks,
      List.filterMap_cons]
  · rw [shown_proceed_of_silent (silent_of_open hopen hlook hreport)]
    refine hshown.imp_left fun hnonempty => ?_
    obtain ⟨s, hs⟩ := List.exists_mem_of_ne_nil _ hnonempty
    refine List.ne_nil_of_mem (Session.mem_validations_proceed hperm hs ?_)
    rintro rfl
    exact hreport ⟨s, rfl, (Session.mem_validations.mp hs).choose_spec.2.2⟩

theorem Cleared.proceed (h : c.Cleared uri) (hperm : c.session.tasks.Perm (task :: rest))
    (hclosed : c.session.server.documents.get? uri = none) :
    (c.proceed task rest).Cleared uri := by
  obtain ⟨hnone, hshown⟩ := h
  constructor
  · refine List.eq_nil_iff_forall_not_mem.mpr fun s hs => ?_
    rcases Session.validations_proceed hperm hs with hold | ⟨timer, document, -, -, hopen, -⟩
    · simp [hnone] at hold
    · simp [hclosed] at hopen
  · rw [shown_proceed_of_silent (silent_of_closed hclosed hperm hnone)]
    exact hshown

/-! ## Messages -/

variable {outcome : Outcome}

theorem publications_take (c : Conversation) (outcome : Outcome) :
    (c.take outcome).publications uri =
      c.publications uri ++ outcome.sent.filterMap (Outgoing.published? uri) :=
  List.filterMap_append

theorem validations_take (hfresh : ∀ task ∈ outcome.tasks, task.isFresh = true) :
    (c.take outcome).session.validations uri = c.session.validations uri := by
  have hnone : outcome.tasks.filterMap Task.validation? = [] := by
    rw [List.filterMap_eq_nil_iff]
    exact fun task htask => (Task.isFresh_carries_nothing (hfresh task htask)).2.2
  simp [take, Session.validations, Session.absorb, hnone]

theorem shown_take_of_silent (h : outcome.sent.filterMap (Outgoing.published? uri) = []) :
    (c.take outcome).shown uri = c.shown uri := by
  rw [shown, publications_take, h, List.append_nil, shown]

theorem Cleared.take (h : c.Cleared uri) (hfresh : ∀ task ∈ outcome.tasks, task.isFresh = true)
    (hsilent : outcome.sent.filterMap (Outgoing.published? uri) = []) :
    (c.take outcome).Cleared uri := by
  unfold Cleared
  rw [validations_take hfresh, shown_take_of_silent hsilent]
  exact h

theorem Announced.take (h : c.Announced uri document)
    (hfresh : ∀ task ∈ outcome.tasks, task.isFresh = true)
    (hcan : outcome.server.canConfigure = c.session.server.canConfigure)
    (hsilent : outcome.sent.filterMap (Outgoing.published? uri) = []) :
    (c.take outcome).Announced uri document := by
  have hreported : (c.take outcome).reported uri = c.reported uri := by
    simp [Conversation.take, Session.absorb, reported, Server.reported, hcan]
  unfold Announced
  rw [validations_take hfresh, shown_take_of_silent hsilent, hreported]
  exact h.imp_left Session.Due.absorb

theorem Consistent.take (h : c.Consistent uri)
    (hsame : outcome.server.documents.get? uri = c.session.server.documents.get? uri)
    (hfresh : ∀ task ∈ outcome.tasks, task.isFresh = true)
    (hcan : outcome.server.canConfigure = c.session.server.canConfigure)
    (hsilent : outcome.sent.filterMap (Outgoing.published? uri) = []) :
    (c.take outcome).Consistent uri where
  cleared hclosed := (h.cleared (hsame ▸ hclosed)).take hfresh hsilent
  announced document hopen := (h.announced document (hsame ▸ hopen)).take hfresh hcan hsilent

theorem consistent_scheduled {version : Int}
    (hversion : (outcome.server.documents.get? uri).map Document.version = some version)
    (hdue : (uri, version) ∈ outcome.due) : (c.take outcome).Consistent uri where
  cleared hclosed := by
    rw [show outcome.server.documents.get? uri = none from hclosed] at hversion
    cases hversion
  announced document hopen := by
    rw [show outcome.server.documents.get? uri = some document from hopen] at hversion
    obtain rfl : document.version = version := Option.some.inj hversion
    exact .inl (.inr (Session.mem_due_absorb.mpr (.inr hdue)))

/-- A document is closed only when it is not being validated, and a timer does not look at a document
while something other than its present state is being validated. -/
def Unhurried (c : Conversation) : Move → Prop
  | .notify (.closed uri) => c.session.validations uri = []
  | .advance index =>
      ∀ timer ∈ c.session.tasks[index]?.bind Task.timer?,
        ∀ document ∈ c.session.server.documents.get? timer.uri,
          ∀ s ∈ c.session.validations timer.uri, s.IsOf document (c.settings timer.uri).checks
  | _ => True

instance (c : Conversation) : (m : Move) → Decidable (c.Unhurried m)
  | .notify (.closed uri) => inferInstanceAs (Decidable (c.session.validations uri = []))
  | .advance _ => inferInstanceAs (Decidable (∀ _ ∈ _, _))
  | .notify .initialized | .notify .configurationChanged | .notify (.opened _ _ _)
  | .notify (.changed _ _ _) | .reconfigure _ | .request _ _ | .wake _ | .pass _ =>
      inferInstanceAs (Decidable True)

/-- Nothing of a former state of a document is still on its way when it matters. -/
def Punctual (c : Conversation) (m : Move) : Prop :=
  c.Careful m ∧ c.Unrepeated m ∧ c.Unhurried m

instance (c : Conversation) (m : Move) : Decidable (c.Punctual m) :=
  inferInstanceAs (Decidable (_ ∧ _))

/-- A document that is opened or changed is going to be looked at. -/
theorem consistent_about {notification : Notification} (habout : notification.about? = some uri)
    (hunhurried : c.Unhurried (.notify notification)) :
    (c.act (.notify notification)).Consistent uri := by
  cases notification with
  | initialized | configurationChanged => cases habout
  | opened about version text =>
    obtain rfl : about = uri := Option.some.inj habout
    have hdue : (about, version) ∈ (c.session.server.heed (.opened about version text)).due :=
      List.mem_cons_self
    refine consistent_scheduled ?_ hdue
    simp [Server.heed, Server.schedule, Server.get?_openDocument]
  | changed about version changes =>
    obtain rfl : about = uri := Option.some.inj habout
    have hdue : (about, version) ∈ (c.session.server.heed (.changed about version changes)).due :=
      List.mem_cons_self
    refine consistent_scheduled ?_ hdue
    simp [Server.heed, Server.schedule, Server.get?_changeDocument]
  | closed about =>
    obtain rfl : about = uri := Option.some.inj habout
    have hcleared : (c.act (.notify (.closed about))).Cleared about := by
      constructor
      · exact (validations_take fun _ => Server.isFresh_heed).trans hunhurried
      · simp [act, shown, publications_take, Server.heed, Outgoing.published?]
    refine ⟨fun _ => hcleared, fun document hopen => ?_⟩
    simp [act, take, Session.absorb, Server.heed, Server.get?_closeDocument] at hopen

theorem consistent_reconfigured {configuration : Option String → Option (List Json)}
    (h : c.Consistent uri) : (c.act (.reconfigure configuration)).Consistent uri := by
  have hsame : (c.act (.reconfigure configuration)).session.server.documents =
      c.session.server.documents := by
    simp [act, take, Session.absorb, Server.heed, Server.dropSettings]
  constructor
  · intro hclosed
    have hcleared : { c with client := { c.client with configuration } }.Cleared uri :=
      h.cleared (hsame ▸ hclosed)
    exact hcleared.take (fun _ => Server.isFresh_heed) (Server.published_loadConfiguration _ _ _)
  · intro document hopen
    exact .inl (Session.drops_configurationChanged (hsame ▸ hopen)).due

theorem consistent_proceed {task : Task} {rest : List Task} {index : Nat} (h : c.Consistent uri)
    (hsound : c.session.Sound True c.client) (htask : c.session.tasks[index]? = some task)
    (hperm : c.session.tasks.Perm (task :: rest)) (hunhurried : c.Unhurried (.advance index)) :
    (c.proceed task rest).Consistent uri := by
  constructor
  · intro hclosed
    rw [get?_proceed, Option.map_eq_none_iff] at hclosed
    exact (h.cleared hclosed).proceed hperm hclosed
  · intro document hopen
    rw [get?_proceed, Option.map_eq_some_iff] at hopen
    obtain ⟨before, hbefore, rfl⟩ := hopen
    suffices hannounced : (c.proceed task rest).Announced uri before by
      simpa [Announced, Snapshot.IsOf] using hannounced
    by_cases hlook : ∃ timer, task = .inspect timer ∧
        (timer.uri, timer.version) = (uri, before.version)
    · obtain ⟨timer, rfl, heq⟩ := hlook
      obtain ⟨rfl, hversion⟩ := Prod.mk.inj heq
      refine announced_inspect hsound hperm hbefore hversion.symm ?_
      rw [← settings_eq hsound]
      exact hunhurried timer (by simp [htask, Task.timer?]) before hbefore
    · exact (h.announced before hbefore).proceed hperm hbefore
        fun timer htimer heq => hlook ⟨timer, htimer, heq⟩

theorem consistent_roused {timer : Timer} {others : List Timer} (h : c.Consistent uri)
    (hperm : c.session.timers.Perm (timer :: others)) :
    { c with session := c.session.rouse timer others }.Consistent uri := by
  constructor
  · intro hclosed
    obtain ⟨hnone, hshown⟩ := h.cleared hclosed
    exact ⟨(Session.validations_rouse _ _ _).trans hnone, hshown⟩
  · intro document hopen
    refine (h.announced document hopen).imp (Session.Due.rouse hperm) ?_
    rintro ⟨hcurrent, hshown⟩
    rw [Session.validations_rouse]
    exact ⟨hcurrent, hshown⟩

theorem Consistent.failed (h : c.Consistent uri) :
    { c with session := c.session.fail }.Consistent uri :=
  ⟨h.cleared, h.announced⟩

theorem consistent_move {m : Move} (hsound : c.session.Sound True c.client)
    (h : c.Consistent uri) (hpunctual : c.Punctual m) : (c.move m).Consistent uri := by
  obtain ⟨hcareful, -, hunhurried⟩ := hpunctual
  refine moved (P := fun c => c.Consistent uri) h ?_
  cases m with
  | notify notification =>
    by_cases habout : notification.about? = some uri
    · exact consistent_about habout hunhurried
    · exact h.take (Server.get?_heed_of_ne habout) (fun _ => Server.isFresh_heed)
        (Server.canConfigure_heed _ _) (Server.published_heed_of_ne habout)
  | reconfigure configuration => exact consistent_reconfigured h
  | request id request =>
    have hserver : (c.session.server.accept id request).server = c.session.server :=
      Server.server_accept hcareful
    exact h.take (by rw [hserver]) (fun _ => Server.isFresh_accept) (by rw [hserver])
      (Server.published_accept _ _ _ _)
  | advance index =>
    refine advanced (P := fun c => c.Consistent uri) h (fun _ _ _ => h.failed) ?_
    exact fun task rest htask hperm _ => consistent_proceed h hsound htask hperm hunhurried
  | wake index =>
    exact woken (P := fun c => c.Consistent uri) h fun _ _ hperm => consistent_roused h hperm
  | pass ms => exact ⟨h.cleared, h.announced⟩

end Conversation

end Dockerfile
