import Mathlib.Data.List.Chain
import Dockerfile.Proofs.Server.Validation

/-!
# What is published last

What was published last about a document is about the document as it stands, and versions do not go
back in what is published.

Main statements:
* in every conversation that is `Punctual` this holds of a document that is closed at any time, and of
  one that is open once nothing is in flight (`settled_of_punctual`);
* five conversations that are not end with something else published (`not_settled`).
-/

namespace Dockerfile

namespace Conversation

variable {c : Conversation} {uri : String} {document : Document}

/-! ## Versions -/

/-- A later publication is not about an earlier version. -/
def Ascends (earlier later : Option Int × List Report) : Prop :=
  ∀ v ∈ earlier.1, ∀ w ∈ later.1, v ≤ w

def Growing (c : Conversation) : Move → Prop
  | .notify (.opened uri version _) | .notify (.changed uri version _) =>
      ∀ document ∈ c.session.server.documents.get? uri, document.version ≤ version
  | _ => True

instance (c : Conversation) : (m : Move) → Decidable (c.Growing m)
  | .notify (.opened _ _ _) | .notify (.changed _ _ _) => inferInstanceAs (Decidable (∀ _ ∈ _, _))
  | .notify .initialized | .notify .configurationChanged | .notify (.closed _) | .reconfigure _
  | .request _ _ | .advance _ | .wake _ | .pass _ => inferInstanceAs (Decidable True)

/-- The publications about a document so far, and those that its validations lead to, ascend. -/
structure Ascending (c : Conversation) (uri : String) : Prop where
  chain : (c.publications uri).IsChain Ascends
  level : ∀ document, c.session.server.documents.get? uri = some document →
    ∃ w ≤ document.version, (∀ s ∈ c.session.validations uri, s.version = w) ∧
      ∀ last ∈ c.shown uri, ∀ v ∈ last.1, v ≤ w

theorem isChain_concat {publications : List (Option Int × List Report)}
    {next : Option Int × List Report} (h : publications.IsChain Ascends)
    (hnext : ∀ last ∈ publications.getLast?, Ascends last next) :
    (publications ++ [next]).IsChain Ascends := by
  rw [List.isChain_append]
  refine ⟨h, List.isChain_singleton _, fun last hlast other hother => ?_⟩
  obtain rfl : next = other := by simpa using hother
  exact hnext last hlast

namespace Ascending

variable {d : Conversation}

/-- Nothing is published about the document, and it stays or becomes a later version. -/
theorem of_silent (h : c.Ascending uri) (hsilent : d.publications uri = c.publications uri)
    (hvalidations : ∀ s ∈ d.session.validations uri, s ∈ c.session.validations uri)
    (hversion : ∀ after, d.session.server.documents.get? uri = some after →
      ∃ before, c.session.server.documents.get? uri = some before ∧
        before.version ≤ after.version) : d.Ascending uri where
  chain := hsilent ▸ h.chain
  level after hafter := by
    obtain ⟨before, hbefore, hle⟩ := hversion after hafter
    obtain ⟨w, hw, hsame, hlast⟩ := h.level before hbefore
    refine ⟨w, Int.le_trans hw hle, fun s hs => hsame s (hvalidations s hs), ?_⟩
    rw [shown, hsilent]
    exact hlast

/-- What is published about the document is not about an earlier version than what was published
before. -/
theorem of_next {next : Option Int × List Report} {w : Int} (h : c.Ascending uri)
    (hnext : d.publications uri = c.publications uri ++ [next])
    (hlast : ∀ last ∈ c.shown uri, ∀ v ∈ last.1, v ≤ w) (hw : ∀ v ∈ next.1, v = w)
    (hvalidations : ∀ s ∈ d.session.validations uri, s.version = w)
    (hversion : ∀ after, d.session.server.documents.get? uri = some after → w ≤ after.version) :
    d.Ascending uri where
  chain := by
    rw [hnext]
    refine isChain_concat h.chain fun last hmem v hv other hother => ?_
    rw [hw other hother]
    exact hlast last hmem v hv
  level after hafter := by
    refine ⟨w, hversion after hafter, hvalidations, ?_⟩
    rw [shown, hnext, List.getLast?_concat]
    intro last hmem v hv
    obtain rfl : next = last := by simpa using hmem
    exact Int.le_of_eq (hw v hv)

theorem take {outcome : Outcome} (h : c.Ascending uri)
    (hfresh : ∀ task ∈ outcome.tasks, task.isFresh = true)
    (hsilent : outcome.sent.filterMap (Outgoing.published? uri) = [])
    (hversion : ∀ after, outcome.server.documents.get? uri = some after →
      ∃ before, c.session.server.documents.get? uri = some before ∧
        before.version ≤ after.version) : (c.take outcome).Ascending uri := by
  refine h.of_silent ?_ ?_ hversion
  · rw [publications_take, hsilent, List.append_nil]
  · rw [validations_take hfresh]
    exact fun s hs => hs

end Ascending

/-- A document that is opened has nothing published about it that could be overtaken. -/
theorem ascending_of_cleared {outcome : Outcome} (h : c.Ascending uri) (hcleared : c.Cleared uri)
    (hfresh : ∀ task ∈ outcome.tasks, task.isFresh = true)
    (hsilent : outcome.sent.filterMap (Outgoing.published? uri) = []) :
    (c.take outcome).Ascending uri where
  chain := by
    rw [publications_take, hsilent, List.append_nil]
    exact h.chain
  level document _ := by
    refine ⟨document.version, Int.le_refl _, ?_, ?_⟩
    · simp [validations_take hfresh, hcleared.1]
    · rw [shown_take_of_silent hsilent]
      intro last hlast v hv
      simp [hcleared.2 last hlast] at hv

theorem ascending_scheduled {outcome : Outcome} {version : Int} (hconsistent : c.Consistent uri)
    (h : c.Ascending uri) (hfresh : ∀ task ∈ outcome.tasks, task.isFresh = true)
    (hsilent : outcome.sent.filterMap (Outgoing.published? uri) = [])
    (hversion : ∀ after, outcome.server.documents.get? uri = some after → after.version = version)
    (hgrowing : ∀ document ∈ c.session.server.documents.get? uri, document.version ≤ version) :
    (c.take outcome).Ascending uri := by
  cases hbefore : c.session.server.documents.get? uri with
  | none => exact ascending_of_cleared h (hconsistent.cleared hbefore) hfresh hsilent
  | some document =>
    refine h.take hfresh hsilent fun after hafter => ⟨document, hbefore, ?_⟩
    rw [hversion after hafter]
    exact hgrowing document hbefore

theorem ascending_unchanged {outcome : Outcome} (h : c.Ascending uri)
    (hfresh : ∀ task ∈ outcome.tasks, task.isFresh = true)
    (hsilent : outcome.sent.filterMap (Outgoing.published? uri) = [])
    (hsame : outcome.server.documents.get? uri = c.session.server.documents.get? uri) :
    (c.take outcome).Ascending uri := by
  refine h.take hfresh hsilent fun after hafter => ⟨after, ?_, Int.le_refl _⟩
  rw [← hsame, hafter]

/-- A timer that finds its document in its version has a validation of no other version beside it. -/
theorem ascending_inspect {timer : Timer} {rest : List Task} (h : c.Ascending timer.uri)
    (hperm : c.session.tasks.Perm (.inspect timer :: rest))
    (hopen : c.session.server.documents.get? timer.uri = some document)
    (hversion : document.version = timer.version)
    (hcurrent : ∀ s ∈ c.session.validations timer.uri, s.version = document.version) :
    (c.proceed (.inspect timer) rest).Ascending timer.uri := by
  obtain ⟨w, hw, -, hlast⟩ := h.level document hopen
  have hbound : ∀ last ∈ c.shown timer.uri, ∀ v ∈ last.1, v ≤ document.version :=
    fun last hmem v hv => Int.le_trans (hlast last hmem v hv) hw
  have hvalidations : ∀ s ∈ (c.proceed (.inspect timer) rest).session.validations timer.uri,
      s.version = document.version := by
    intro s hs
    rcases Session.validations_proceed hperm hs with hs | ⟨other, read, -, -, hread, -, -, rfl⟩
    · exact hcurrent s hs
    · obtain rfl := Option.some.inj (hread.symm.trans hopen)
      rfl
  have hafter : ∀ after, (c.proceed (.inspect timer) rest).session.server.documents.get? timer.uri =
      some after → document.version ≤ after.version := by
    intro after hafter
    rw [get?_proceed, hopen, Option.map_some] at hafter
    have hversion : after.version = document.version := by
      rw [← Option.some.inj hafter, Task.revise_version]
    exact Int.le_of_eq hversion.symm
  cases hanalysis : document.analysis with
  | none =>
    have hsilent : (c.proceed (.inspect timer) rest).publications timer.uri =
        c.publications timer.uri := by
      simp [publications_proceed, Task.step, hopen, hversion, hanalysis, Outgoing.published?]
    refine ⟨hsilent ▸ h.chain, fun after hopened => ?_⟩
    refine ⟨document.version, hafter after hopened, hvalidations, ?_⟩
    rw [shown, hsilent]
    exact hbound
  | some a =>
    have hnext : (c.proceed (.inspect timer) rest).publications timer.uri =
        c.publications timer.uri ++ [(some document.version, a.reports)] := by
      simp [publications_proceed, Task.step, hopen, hversion, hanalysis, Outgoing.published?]
    exact h.of_next hnext hbound (by simp) hvalidations hafter

theorem ascending_proceed {task : Task} {rest : List Task} {index : Nat}
    (h : c.Ascending uri) (hconsistent : c.Consistent uri)
    (htask : c.session.tasks[index]? = some task)
    (hperm : c.session.tasks.Perm (task :: rest)) (hunhurried : c.Unhurried (.advance index)) :
    (c.proceed task rest).Ascending uri := by
  cases hbefore : c.session.server.documents.get? uri with
  | none =>
    have hcleared := hconsistent.cleared hbefore
    refine h.of_silent ?_ ?_ ?_
    · rw [publications_proceed, silent_of_closed hbefore hperm hcleared.1, List.append_nil]
    · simp [(hcleared.proceed hperm hbefore).1]
    · simp [get?_proceed, hbefore]
  | some document =>
    obtain ⟨w, hw, hsame, hlast⟩ := h.level document hbefore
    have hversion : ∀ after, (c.proceed task rest).session.server.documents.get? uri = some after →
        document.version = after.version := by
      intro after hafter
      rw [get?_proceed, hbefore, Option.map_some] at hafter
      rw [← Option.some.inj hafter, Task.revise_version]
    by_cases hlook : ∃ timer, task = .inspect timer ∧
        (timer.uri, timer.version) = (uri, document.version)
    · obtain ⟨timer, rfl, heq⟩ := hlook
      obtain ⟨rfl, htimer⟩ := Prod.mk.inj heq
      refine ascending_inspect h hperm hbefore htimer.symm fun s hs => ?_
      exact (hunhurried timer (by simp [htask, Task.timer?]) document hbefore s hs).1
    · have hlook : ∀ timer, task = .inspect timer →
          (timer.uri, timer.version) ≠ (uri, document.version) :=
        fun timer htimer heq => hlook ⟨timer, htimer, heq⟩
      have hvalidations : ∀ s ∈ (c.proceed task rest).session.validations uri,
          s ∈ c.session.validations uri :=
        fun s hs => mem_validations_of_proceed hperm hbefore hlook hs
      by_cases hreport : ∃ s, task = .report s ∧ s.uri = uri
      · obtain ⟨s, rfl, rfl⟩ := hreport
        have hs : s.version = w := hsame s
          (Session.mem_validations.mpr ⟨_, hperm.mem_iff.mpr List.mem_cons_self, rfl, rfl⟩)
        have hnext : (c.proceed (.report s) rest).publications s.uri =
            c.publications s.uri ++ [(some s.version, s.analysis.reports)] := by
          simp [publications_proceed, Task.step, Outgoing.published?, List.filterMap_cons]
        refine h.of_next hnext hlast (by simp [hs]) (fun t ht => hsame t (hvalidations t ht)) ?_
        intro after hafter
        rw [← hversion after hafter]
        exact hw
      · refine h.of_silent ?_ hvalidations ?_
        · rw [publications_proceed, silent_of_open hbefore hlook hreport, List.append_nil]
        · intro after hafter
          exact ⟨document, hbefore, Int.le_of_eq (hversion after hafter)⟩

theorem ascending_about {notification : Notification} (habout : notification.about? = some uri)
    (hconsistent : c.Consistent uri) (h : c.Ascending uri)
    (hgrowing : c.Growing (.notify notification)) :
    (c.act (.notify notification)).Ascending uri := by
  cases notification with
  | initialized | configurationChanged => cases habout
  | opened about version text =>
    obtain rfl : about = uri := Option.some.inj habout
    refine ascending_scheduled hconsistent h (fun _ => Server.isFresh_heed) rfl ?_ hgrowing
    intro after hafter
    simp only [Server.heed, Server.schedule, Server.get?_openDocument, if_true] at hafter
    rw [← Option.some.inj hafter]
  | changed about version changes =>
    obtain rfl : about = uri := Option.some.inj habout
    refine ascending_scheduled hconsistent h (fun _ => Server.isFresh_heed) rfl ?_ hgrowing
    intro after hafter
    simp only [Server.heed, Server.schedule, Server.get?_changeDocument, if_true] at hafter
    rw [← Option.some.inj hafter, Document.change_version]
  | closed about =>
    obtain rfl : about = uri := Option.some.inj habout
    constructor
    · simp only [act, publications_take, Server.heed, List.filterMap_cons, List.filterMap_nil,
        Outgoing.published?, if_true]
      refine isChain_concat h.chain fun last _ v _ w hw => ?_
      cases hw
    · intro document hopen
      simp [act, take, Session.absorb, Server.heed, Server.get?_closeDocument] at hopen

theorem ascending_move {m : Move} (hconsistent : c.Consistent uri) (h : c.Ascending uri)
    (hpunctual : c.Punctual m) (hgrowing : c.Growing m) : (c.move m).Ascending uri := by
  obtain ⟨hcareful, -, hunhurried⟩ := hpunctual
  refine moved (P := fun c => c.Ascending uri) h ?_
  cases m with
  | notify notification =>
    by_cases habout : notification.about? = some uri
    · exact ascending_about habout hconsistent h hgrowing
    · exact ascending_unchanged h (fun _ => Server.isFresh_heed)
        (Server.published_heed_of_ne habout) (Server.get?_heed_of_ne habout)
  | reconfigure configuration =>
    have hsame : { c with client := { c.client with configuration } }.Ascending uri :=
      ⟨h.chain, h.level⟩
    have habout : Notification.configurationChanged.about? ≠ some uri := nofun
    exact ascending_unchanged hsame (fun _ => Server.isFresh_heed)
      (Server.published_heed_of_ne habout) (Server.get?_heed_of_ne habout)
  | request id request =>
    refine ascending_unchanged h (fun _ => Server.isFresh_accept)
      (Server.published_accept _ _ _ _) ?_
    rw [Server.server_accept hcareful]
  | advance index =>
    refine advanced (P := fun c => c.Ascending uri) h (fun _ _ _ => ⟨h.chain, h.level⟩) ?_
    exact fun task rest htask hperm _ => ascending_proceed h hconsistent htask hperm hunhurried
  | wake index =>
    refine woken (P := fun c => c.Ascending uri) h fun timer rest hperm => ?_
    exact h.of_silent rfl (by simp) fun after hafter => ⟨after, hafter, Int.le_refl _⟩
  | pass ms => exact ⟨h.chain, h.level⟩

/-! ## Whole conversations -/

theorem consistent_start (client : Client) (canConfigure : Bool) (uri : String) :
    (start client canConfigure).Consistent uri := by
  refine ⟨fun _ => ⟨rfl, fun last hlast => ?_⟩, fun document hopen => ?_⟩
  · cases hlast
  · cases hopen

theorem consistent_run {client : Client} {canConfigure : Bool} {moves : List Move}
    (hpunctual : Orderly Punctual (start client canConfigure) moves) :
    let c := (start client canConfigure).run moves
    c.session.Sound True c.client ∧ ∀ uri, c.Consistent uri := by
  refine run_induction (P := fun c => c.session.Sound True c.client ∧ ∀ uri, c.Consistent uri) ?_
    ⟨sound_start _ _ _, consistent_start _ _⟩ hpunctual
  rintro c m ⟨hsound, hconsistent⟩ hm
  exact ⟨sound_move hsound hm.1 fun _ => hm.2.1,
    fun uri => consistent_move hsound (hconsistent uri) hm⟩

theorem ascending_run {client : Client} {canConfigure : Bool} {moves : List Move}
    (hpunctual : Orderly Punctual (start client canConfigure) moves)
    (hgrowing : Orderly Growing (start client canConfigure) moves) (uri : String) :
    ((start client canConfigure).run moves).Ascending uri := by
  have hrun := run_induction
    (P := fun c => c.session.Sound True c.client ∧ c.Consistent uri ∧ c.Ascending uri)
    ?_ ?_ (hpunctual.and hgrowing)
  · exact hrun.2.2
  · rintro c m ⟨hsound, hconsistent, hascending⟩ ⟨hm, hgrows⟩
    exact ⟨sound_move hsound hm.1 fun _ => hm.2.1, consistent_move hsound hconsistent hm,
      ascending_move hconsistent hascending hm hgrows⟩
  · refine ⟨sound_start _ _ _, consistent_start _ _ _, List.isChain_nil, fun document hopen => ?_⟩
    cases hopen

/-- What was published last about a document is what there is to report about it now: nothing, if it
is not open. -/
@[irreducible] def Settled (c : Conversation) (uri : String) : Prop :=
  match c.session.server.documents.get? uri with
  | none => ∀ last ∈ c.shown uri, last = (none, [])
  | some document => c.shown uri =
      some (some document.version, (analyze document.text (c.settings uri).checks).reports)

theorem Consistent.settled_of_closed (h : c.Consistent uri)
    (hclosed : c.session.server.documents.get? uri = none) : c.Settled uri := by
  rw [Settled, hclosed]
  exact (h.cleared hclosed).2

theorem Consistent.settled_of_idle (h : c.Consistent uri) (hsound : c.session.Sound True c.client)
    (hidle : c.session.Idle) : c.Settled uri := by
  obtain ⟨htasks, htimers⟩ := hidle
  cases hopen : c.session.server.documents.get? uri with
  | none => exact h.settled_of_closed hopen
  | some document =>
    simp only [Settled, hopen, settings_eq hsound]
    rcases h.announced document hopen with (htake | hdue) | ⟨-, hvalidations | hshown⟩
    · simp [htasks] at htake
    · simp [Session.due, htasks, htimers] at hdue
    · simp [Session.validations, htasks] at hvalidations
    · exact hshown

theorem settled_of_punctual {client : Client} {canConfigure : Bool} {moves : List Move}
    (hpunctual : Orderly Punctual (start client canConfigure) moves) (uri : String) :
    let c := (start client canConfigure).run moves
    (c.session.server.documents.get? uri = none ∨ c.session.Idle → c.Settled uri) ∧
      (Orderly Growing (start client canConfigure) moves →
        (c.publications uri).IsChain Ascends) := by
  obtain ⟨hsound, hconsistent⟩ := consistent_run hpunctual
  constructor
  · rintro (hclosed | hidle)
    · exact (hconsistent uri).settled_of_closed hclosed
    · exact (hconsistent uri).settled_of_idle hsound hidle
  · intro hgrowing
    exact (ascending_run hpunctual hgrowing uri).chain

/-- Settings change while a document is validated, and the document changes while it waits to be
validated anew. -/
def exchange : List Move := [
  .notify (.opened "d" 1 "FROM a\nMAINTAINER b".toList),
  .advance 0, .advance 0, .advance 0, .wake 0, .advance 0,
  .reconfigure (Client.holding { deprecatedMaintainer := .ignore }).configuration, .advance 1,
  .notify (.changed "d" 2 [⟨none, "MAINTAINER c".toList⟩]),
  .advance 0, .advance 2, .advance 0, .advance 0, .advance 1, .advance 0, .advance 0, .advance 0,
  .wake 1, .advance 0, .pass 250, .wake 0, .advance 0, .advance 0, .advance 0]

theorem settled_of_punctual_exchange :
    Orderly Punctual (start (.holding { deprecatedMaintainer := .error }) true) exchange ∧
      Orderly Growing (start (.holding { deprecatedMaintainer := .error }) true) exchange ∧
      ((start (.holding { deprecatedMaintainer := .error }) true).run exchange).session.Idle ∧
      ((start (.holding { deprecatedMaintainer := .error }) true).run exchange).Settled "d" ∧
      (((start (.holding { deprecatedMaintainer := .error }) true).run exchange).publications
        "d").IsChain Ascends := by
  have hpunctual : Orderly Punctual (start (.holding { deprecatedMaintainer := .error }) true)
      exchange := by decide +kernel
  have hgrowing : Orderly Growing (start (.holding { deprecatedMaintainer := .error }) true)
      exchange := by decide +kernel
  have hidle : ((start (.holding { deprecatedMaintainer := .error }) true).run
      exchange).session.Idle := by decide +kernel
  obtain ⟨hsettled, hchain⟩ := settled_of_punctual hpunctual "d"
  exact ⟨hpunctual, hgrowing, hidle, hsettled (.inr hidle), hchain hgrowing⟩

/-! ## Results that come too late -/

/-- The version and the number of the reports that there are about a document now. -/
def tally (c : Conversation) (uri : String) : Option Int × Nat :=
  match c.session.server.documents.get? uri with
  | none => (none, 0)
  | some document =>
      (some document.version, (analyze document.text (c.settings uri).checks).reports.length)

theorem Settled.tally (h : c.Settled uri) :
    ∀ last ∈ c.shown uri, (last.1, last.2.length) = c.tally uri := by
  intro last hlast
  unfold Settled at h
  unfold Conversation.tally
  split at h
  · simp [h last hlast]
  · rw [h] at hlast
    obtain rfl := Option.some.inj hlast
    rfl

/-- A document is closed while it is validated. -/
def abandoned : Conversation :=
  (start (.holding {}) false).run [
    .notify (.opened "d" 1 "FROM a".toList), .advance 0, .advance 0, .wake 0, .advance 0,
    .notify (.closed "d"), .advance 0, .advance 0]

/-- The validation of a version takes longer than that of the next one. -/
def overtaken : Conversation :=
  (start (.holding {}) false).run [
    .notify (.opened "d" 1 "FROM a".toList), .advance 0, .advance 0, .wake 0, .advance 0,
    .notify (.changed "d" 2 [⟨none, "FROM b".toList⟩]), .advance 1, .advance 1,
    .pass 250, .wake 0, .advance 1, .advance 1, .advance 1, .advance 0, .advance 0]

/-- A document gets a new version with the same text while it waits to be validated anew. -/
def repeated : Conversation :=
  (start (.holding { deprecatedMaintainer := .error }) true).run [
    .notify (.opened "d" 1 "FROM a\nMAINTAINER b".toList), .advance 0, .advance 0, .advance 0,
    .wake 0, .advance 0, .advance 0, .advance 0,
    .reconfigure (Client.holding { deprecatedMaintainer := .ignore }).configuration, .advance 0,
    .notify (.changed "d" 2 []), .advance 1, .advance 1, .advance 1, .pass 250, .wake 0,
    .advance 1, .advance 0, .advance 0, .advance 0, .wake 0, .advance 0]

/-- The analysis of a former text is kept, and published for the present one. -/
def reopenedAtRest : Conversation :=
  reopened.run [.advance 0, .advance 0, .advance 0, .advance 0, .wake 0, .wake 0, .advance 0,
    .advance 0]

/-- The analysis with former settings is kept, and published under the present ones. -/
def outlivedAtRest : Conversation :=
  outlived.run [.wake 0, .advance 0]

/-- A conversation at rest in which something else was published last about the document. -/
def IsMisled (c : Conversation) : Prop :=
  c.session.Idle ∧ ∃ last ∈ c.shown "d", (last.1, last.2.length) ≠ c.tally "d"

instance (c : Conversation) : Decidable c.IsMisled :=
  inferInstanceAs (Decidable (_ ∧ _))

theorem IsMisled.unsettled (h : c.IsMisled) : c.session.Idle ∧ ¬c.Settled "d" := by
  obtain ⟨hidle, last, hlast, hne⟩ := h
  exact ⟨hidle, fun hsettled => hne (hsettled.tally last hlast)⟩

theorem not_settled :
    (abandoned.session.Idle ∧ ¬abandoned.Settled "d") ∧
      (overtaken.session.Idle ∧ ¬overtaken.Settled "d") ∧
      (repeated.session.Idle ∧ ¬repeated.Settled "d") ∧
      (reopenedAtRest.session.Idle ∧ ¬reopenedAtRest.Settled "d") ∧
      (outlivedAtRest.session.Idle ∧ ¬outlivedAtRest.Settled "d") := by
  have hmisled : abandoned.IsMisled ∧ overtaken.IsMisled ∧ repeated.IsMisled ∧
      reopenedAtRest.IsMisled ∧ outlivedAtRest.IsMisled := by
    decide +kernel
  exact hmisled.imp (·.unsettled) <| .imp (·.unsettled) <| .imp (·.unsettled) <|
    .imp (·.unsettled) (·.unsettled)

end Conversation

end Dockerfile
