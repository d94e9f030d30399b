import Dockerfile.Proofs.Server.Conversation

/-!
# What the kept analyses are analyses of

Settings and texts that a task or a timer has read may be former ones by the time it uses them.
`Session.Sound` says what everything in flight has to be for no wrong analysis to be kept: settings
that were read are those that the editor reports, and a snapshot that would pass for the present state
of its document shows that state. A reload of the settings drops the analyses one document after the
other, and until it comes to a document nothing is said about the settings of its analysis.

Main statements:
* a move keeps a session sound if it is `Careful` (`sound_move`);
* in a conversation of such moves a kept analysis is that of the text with the settings in force,
  unless a reload is still going to drop it (`faithful_of_careful`);
* three conversations with other moves keep a wrong one (`not_faithful`).
-/

namespace Dockerfile

/-- What ties a document to the snapshots of it in flight: an analysis that is kept, or that one of
them is going to leave, is the analysis of the text with these checks, unless it is still going to
be dropped. -/
structure Document.Sound (checks : Settings) (snapshots : List Snapshot) (dropped : Int → Prop)
    (document : Document) : Prop where
  analysis : ∀ a, document.analysis = some a →
    a = analyze document.text checks ∨ dropped document.version
  editions : ∀ s ∈ snapshots, s.edition ≤ document.edition
  current : ∀ s ∈ snapshots, s.edition = document.edition →
    s.text = document.text ∧ (s.checks = checks ∨ dropped document.version)

namespace Document.Sound

variable {checks : Settings} {snapshots : List Snapshot} {dropped : Int → Prop}
  {document : Document}

theorem mono {others : List Snapshot} {after : Int → Prop}
    (h : document.Sound checks snapshots dropped) (hless : ∀ s ∈ others, s ∈ snapshots)
    (hafter : dropped document.version → after document.version) :
    document.Sound checks others after where
  analysis a ha := (h.analysis a ha).imp_right hafter
  editions s hs := h.editions s (hless s hs)
  current s hs he := (h.current s (hless s hs) he).imp_right (Or.imp_right hafter)

theorem weaken {after : Int → Prop} (h : document.Sound checks snapshots dropped)
    (hafter : dropped document.version → after document.version) :
    document.Sound checks snapshots after :=
  h.mono (fun _ hs => hs) hafter

/-- All settings may change while everything is still going to be dropped. -/
theorem of_dropped {others : Settings} {after : Int → Prop}
    (h : document.Sound checks snapshots dropped) (hafter : after document.version) :
    document.Sound others snapshots after where
  analysis _ _ := .inr hafter
  editions := h.editions
  current s hs he := ⟨(h.current s hs he).1, .inr hafter⟩

theorem of_fresh (hfresh : document.analysis = none)
    (hold : ∀ s ∈ snapshots, s.edition < document.edition) :
    document.Sound checks snapshots dropped where
  analysis a ha := by simp [hfresh] at ha
  editions s hs := Nat.le_of_lt (hold s hs)
  current s hs he := absurd he (Nat.ne_of_lt (hold s hs))

theorem keep {s : Snapshot} (h : document.Sound checks snapshots dropped) (hs : s ∈ snapshots) :
    (document.keep s s.analysis).Sound checks snapshots dropped := by
  unfold Document.keep
  split
  · rename_i hsame
    refine ⟨?_, h.editions, h.current⟩
    intro a ha
    obtain ⟨htext, hchecks⟩ := h.current s hs hsame.2.symm
    obtain rfl : s.analysis = a := by simpa using ha
    refine hchecks.imp_left fun hchecks => ?_
    simp [Snapshot.analysis, htext, hchecks]
  · exact h

theorem forget {after : Int → Prop} (h : document.Sound checks snapshots dropped) :
    document.forget.Sound checks snapshots after := by
  apply of_fresh rfl
  intro s hs
  have := h.editions s hs
  simp only [Document.forget]
  omega

/-- A change keeps an analysis only if it keeps the text. -/
theorem change {version : Int} {changes : List Change}
    (h : document.Sound checks snapshots dropped)
    (hkept : (document.change version changes).analysis.isSome → dropped document.version →
      dropped version) :
    (document.change version changes).Sound checks snapshots dropped := by
  by_cases hsame : Buffer.applyChanges document.text changes = document.text ∧
      document.analysis.isSome
  · rw [Document.change_of_kept hsame] at hkept ⊢
    have hdropped := hkept hsame.2
    exact ⟨fun a ha => (h.analysis a ha).imp_right hdropped, h.editions,
      fun s hs he => (h.current s hs he).imp_right (Or.imp_right hdropped)⟩
  · rw [Document.change_of_dropped hsame]
    apply of_fresh rfl
    intro s hs
    have := h.editions s hs
    simp only
    omega

theorem snapshot (uri : String) (h : document.Sound checks snapshots dropped) :
    document.Sound checks (document.snapshot uri checks :: snapshots) dropped where
  analysis := h.analysis
  editions s hs := by
    rcases List.mem_cons.mp hs with rfl | hs
    · exact Nat.le_refl _
    · exact h.editions s hs
  current s hs he := by
    rcases List.mem_cons.mp hs with rfl | hs
    · exact ⟨rfl, .inl rfl⟩
    · exact h.current s hs he

end Document.Sound

namespace Session

/-- The analysis of a document is still going to be dropped: the documents are still to be listed, or
this one is. Where it matters, the version in the list is the one the document has. -/
def Drops (strict : Prop) (session : Session) (uri : String) (version : Int) : Prop :=
  .takeConfiguration true ∈ session.tasks ∨
    ∃ listed, (strict → listed = version) ∧ (uri, listed) ∈ session.awaiting

/-- What is known, and what everything in flight has read, is what the editor reports and what the
documents are. -/
structure Sound (strict : Prop) (client : Client) (session : Session) : Prop where
  known : ∀ uri settings, session.server.settings.get? uri = some settings →
    settings = session.server.reported client uri
  asked : ∀ purpose, .takeSettings purpose ∈ session.tasks → session.server.canConfigure = true
  held : ∀ entry ∈ session.held, entry.2 = (session.server.reported client entry.1).checks
  documents : ∀ uri document, session.server.documents.get? uri = some document →
    document.Sound (session.server.reported client uri).checks (session.snapshots uri)
      (session.Drops strict uri)

variable {strict : Prop} {client : Client} {session : Session} {outcome : Outcome}

theorem Drops.absorb {uri : String} {version : Int} (h : session.Drops strict uri version) :
    (session.absorb outcome).Drops strict uri version := by
  rcases h with h | ⟨listed, hlisted, h⟩
  · exact .inl (List.mem_append_left _ h)
  · exact .inr ⟨listed, hlisted, mem_awaiting_absorb.mpr (.inl h)⟩

theorem drops_configurationChanged {uri : String} {document : Document}
    (hopen : session.server.documents.get? uri = some document) :
    (session.absorb (session.server.heed .configurationChanged)).Drops strict uri
      document.version := by
  by_cases hcan : session.server.canConfigure
  · refine .inl (List.mem_append_right _ ?_)
    simp [Server.heed, Server.loadConfiguration, Server.dropSettings, hcan]
  · refine .inr ⟨document.version, fun _ => rfl, mem_awaiting_absorb.mpr (.inr ?_)⟩
    have hlisted := Server.mem_versions hopen
    simpa [Server.heed, Server.loadConfiguration, Server.dropSettings, hcan, Task.awaiting,
      Server.versions] using hlisted

/-- A message brings no task that has read anything. -/
theorem sound_absorb (hfresh : ∀ task ∈ outcome.tasks, task.isFresh = true)
    (htimers : outcome.timers = [])
    (hknown : ∀ uri settings, outcome.server.settings.get? uri = some settings →
      settings = outcome.server.reported client uri)
    (hasked : ∀ purpose, .takeSettings purpose ∈ session.tasks →
      outcome.server.canConfigure = true)
    (hheld : ∀ entry ∈ session.held, entry.2 = (outcome.server.reported client entry.1).checks)
    (hdocuments : ∀ uri document, outcome.server.documents.get? uri = some document →
      document.Sound (outcome.server.reported client uri).checks (session.snapshots uri)
        ((session.absorb outcome).Drops strict uri)) :
    (session.absorb outcome).Sound strict client where
  known := hknown
  asked purpose h := by
    rcases List.mem_append.mp h with h | h
    · exact hasked purpose h
    · simpa [Task.isFresh] using hfresh _ h
  held entry h := by
    rcases mem_held_absorb.mp h with h | h
    · exact hheld entry h
    · simp only [Outcome.held, htimers, List.map_nil, List.append_nil, List.mem_filterMap] at h
      obtain ⟨task, htask, h⟩ := h
      simp [(Task.isFresh_carries_nothing (hfresh task htask)).1] at h
  documents uri document hopen := by
    refine (hdocuments uri document hopen).mono (fun s hs => ?_) id
    rcases mem_snapshots_absorb.mp hs with hs | ⟨hs, -⟩
    · exact hs
    · obtain ⟨task, htask, hs⟩ := List.mem_filterMap.mp hs
      simp [(Task.isFresh_carries_nothing (hfresh task htask)).2.1] at hs

namespace Sound

theorem opened {uri : String} {version : Int} {text : Text} (h : session.Sound strict client)
    (hnone : session.snapshots uri = []) :
    (session.absorb (session.server.heed (.opened uri version text))).Sound strict client := by
  refine sound_absorb (fun _ => Server.isFresh_heed) rfl h.known h.asked h.held ?_
  intro other document hopen
  simp only [Server.heed, Server.schedule, Server.get?_openDocument] at hopen
  split at hopen
  · rename_i hsame
    subst hsame
    obtain rfl := Option.some.inj hopen
    exact .of_fresh rfl (by simp [hnone])
  · exact (h.documents other document hopen).weaken Drops.absorb

theorem changed {uri : String} {version : Int} {changes : List Change}
    (h : session.Sound strict client)
    (hnone : session.server.documents.get? uri = none → session.snapshots uri = [])
    (hlisted : strict → ∀ document, session.server.documents.get? uri = some document →
      (uri, document.version) ∈ session.awaiting →
        (document.change version changes).analysis = none) :
    (session.absorb (session.server.heed (.changed uri version changes))).Sound strict client := by
  refine sound_absorb (fun _ => Server.isFresh_heed) rfl h.known h.asked h.held ?_
  intro other document hopen
  simp only [Server.heed, Server.schedule, Server.get?_changeDocument] at hopen
  split at hopen
  · rename_i hsame
    subst hsame
    obtain rfl := Option.some.inj hopen
    cases hold : session.server.documents.get? other with
    | none =>
      rw [Option.getD_none, Document.change_of_dropped (by simp)]
      exact .of_fresh rfl (by simp [hnone hold])
    | some document =>
      rw [Option.getD_some]
      refine ((h.documents other document hold).change ?_).weaken Drops.absorb
      intro hkept hdrops
      rcases hdrops with htake | ⟨listed, hversion, hmem⟩
      · exact .inl htake
      · refine .inr ⟨listed, fun hstrict => ?_, hmem⟩
        rw [hversion hstrict] at hmem
        simp [hlisted hstrict document hold hmem] at hkept
  · exact (h.documents other document hopen).weaken Drops.absorb

theorem closed {uri : String} (h : session.Sound strict client) :
    (session.absorb (session.server.heed (.closed uri))).Sound strict client := by
  refine sound_absorb (fun _ => Server.isFresh_heed) rfl ?_ h.asked h.held ?_
  · intro other settings hknown
    simp only [Server.heed, Server.closeDocument, Store.get?_erase] at hknown
    split at hknown
    · cases hknown
    · exact h.known other settings hknown
  · intro other document hopen
    simp only [Server.heed, Server.get?_closeDocument] at hopen
    split at hopen
    · cases hopen
    · exact (h.documents other document hopen).weaken Drops.absorb

theorem initialized (h : session.Sound strict client) :
    (session.absorb (session.server.heed .initialized)).Sound strict client := by
  refine sound_absorb (fun _ => Server.isFresh_heed) (Server.timers_heed _ _) ?_ ?_ ?_ ?_
  all_goals simp only [Server.heed, Server.server_loadConfiguration]
  · intro uri settings hknown
    cases hknown
  · exact h.asked
  · exact h.held
  · intro uri document hopen
    exact (h.documents uri document hopen).weaken Drops.absorb

theorem reconfigured {other : Client} (h : session.Sound strict client)
    (hheld : ∀ entry ∈ session.held, entry.2 = (session.server.reported other entry.1).checks) :
    (session.absorb (session.server.heed .configurationChanged)).Sound strict other := by
  refine sound_absorb (fun _ => Server.isFresh_heed) (Server.timers_heed _ _) ?_ ?_ ?_ ?_
  · simp only [Server.heed, Server.server_loadConfiguration]
    intro uri settings hknown
    cases hknown
  · simp only [Server.heed, Server.server_loadConfiguration]
    exact h.asked
  · simp only [Server.heed, Server.server_loadConfiguration]
    exact hheld
  · intro uri document hopen
    simp only [Server.heed, Server.server_loadConfiguration] at hopen
    exact (h.documents uri document hopen).of_dropped (drops_configurationChanged hopen)

theorem accepted {id : Nat} {request : Request} (h : session.Sound strict client)
    (hordinary : request.isOrdinary = true) :
    (session.absorb (session.server.accept id request)).Sound strict client := by
  refine sound_absorb (fun _ => Server.isFresh_accept) (Server.timers_accept _ _ _) ?_ ?_ ?_ ?_
  all_goals rw [Server.server_accept hordinary]
  · exact h.known
  · exact h.asked
  · exact h.held
  · intro uri document hopen
    exact (h.documents uri document hopen).weaken Drops.absorb

variable {task : Task} {rest : List Task}

theorem drops_stepped {uri : String} {document : Document}
    (hperm : session.tasks.Perm (task :: rest))
    (hopen : session.server.documents.get? uri = some document)
    (hkeep : ∀ listed later, task ≠ .revalidate ((uri, listed) :: later))
    (h : session.Drops strict uri document.version) :
    (session.proceed client task rest).Drops strict uri document.version := by
  rcases h with htake | ⟨listed, hversion, hlisted⟩
  · rcases List.mem_cons.mp (hperm.mem_iff.mp htake) with rfl | htake
    · refine .inr ⟨document.version, fun _ => rfl, mem_awaiting_absorb.mpr (.inr ?_)⟩
      simpa [Task.step, Task.awaiting, Server.versions] using Server.mem_versions hopen
    · exact .inl (List.mem_append_left _ htake)
  · refine .inr ⟨listed, hversion, mem_awaiting_absorb.mpr ?_⟩
    obtain ⟨other, hother, hlisted⟩ := List.mem_flatMap.mp hlisted
    rcases List.mem_cons.mp (hperm.mem_iff.mp hother) with rfl | hother
    · rcases (Task.leadsTo client session.now session.server other).awaiting hlisted with
        hnext | ⟨later, heq⟩
      · exact .inr hnext
      · exact absurd heq (hkeep listed later)
    · exact .inl (List.mem_flatMap.mpr ⟨other, hother, hlisted⟩)

/-- What the snapshots of a document are after a step: those before it, and perhaps one of the
document as it stands. -/
theorem snapshots_stepped {uri : String} {document : Document} (h : session.Sound strict client)
    (hperm : session.tasks.Perm (task :: rest))
    (hopen : session.server.documents.get? uri = some document) :
    ∀ s ∈ (session.proceed client task rest).snapshots uri,
      s ∈ document.snapshot uri (session.server.reported client uri).checks ::
        session.snapshots uri := by
  intro s hs
  have htask : task ∈ session.tasks := hperm.mem_iff.mpr List.mem_cons_self
  rcases mem_snapshots_absorb.mp hs with hold | ⟨hnew, rfl⟩
  · obtain ⟨other, hother, hold⟩ := mem_snapshots.mp hold
    exact List.mem_cons_of_mem _
      (mem_snapshots.mpr ⟨other, hperm.mem_iff.mpr (List.mem_cons_of_mem _ hother), hold⟩)
  · rcases (Task.leadsTo client session.now session.server task).snapshot hnew with
      hpassed | ⟨read, checks, hheld, hread, hs⟩
    · exact List.mem_cons_of_mem _ (mem_snapshots.mpr ⟨task, htask, hpassed, rfl⟩)
    · obtain rfl : read = document := Option.some.inj (hread.symm.trans hopen)
      have hchecks : checks = (session.server.reported client s.uri).checks :=
        h.held (s.uri, checks)
          (List.mem_append_left _ (List.mem_filterMap.mpr ⟨task, htask, hheld⟩))
      rw [← hchecks, ← hs]
      exact List.mem_cons_self

theorem revised {uri : String} {document : Document} (h : session.Sound strict client)
    (hperm : session.tasks.Perm (task :: rest))
    (hopen : session.server.documents.get? uri = some document) :
    (task.revise uri document).Sound (session.server.reported client uri).checks
      ((session.proceed client task rest).snapshots uri)
      ((session.proceed client task rest).Drops strict uri) := by
  have hless := h.snapshots_stepped hperm hopen
  have hread : document.Sound _ _ _ := (h.documents uri document hopen).snapshot uri
  by_cases hdrop : ∃ listed later, task = .revalidate ((uri, listed) :: later)
  · obtain ⟨listed, later, rfl⟩ := hdrop
    simp only [Task.revise, if_true]
    exact hread.forget.mono hless id
  · simp only [not_exists] at hdrop
    have hdrops : session.Drops strict uri document.version →
        (session.proceed client task rest).Drops strict uri document.version :=
      drops_stepped hperm hopen hdrop
    rcases Task.revise_eq hdrop with heq | ⟨s, hs, huri, heq⟩
    · rw [heq]
      exact hread.mono hless hdrops
    · have hkept : s ∈ session.snapshots uri :=
        mem_snapshots.mpr ⟨task, hperm.mem_iff.mpr List.mem_cons_self, hs, huri⟩
      rw [heq]
      refine (hread.keep (List.mem_cons_of_mem _ hkept)).mono hless ?_
      rw [← heq, Task.revise_version]
      exact hdrops

theorem stepped (h : session.Sound strict client) (hperm : session.tasks.Perm (task :: rest)) :
    (session.proceed client task rest).Sound strict client := by
  have hmem : ∀ other ∈ rest, other ∈ session.tasks := fun other hother =>
    hperm.mem_iff.mpr (List.mem_cons_of_mem _ hother)
  have hasked : ∀ purpose, task = .takeSettings purpose → session.server.canConfigure = true :=
    fun purpose htask => h.asked purpose (hperm.mem_iff.mpr (htask ▸ List.mem_cons_self))
  have hreported : ∀ uri, (task.step client session.now session.server).server.reported client uri =
      session.server.reported client uri := by
    simp [Server.reported]
  have hstep := Task.leadsTo client session.now session.server task
  constructor
  case known =>
    intro uri settings hknown
    simp only [proceed, absorb, hreported] at hknown ⊢
    rcases hstep.settings hasked with heq | ⟨learned, heq⟩
    · exact h.known uri settings (heq ▸ hknown)
    · rw [heq, Store.get?_insert] at hknown
      split at hknown
      · rename_i hsame
        exact (Option.some.inj hknown).symm.trans (hsame ▸ rfl)
      · exact h.known uri settings hknown
  case asked =>
    intro purpose hpurpose
    simp only [proceed, absorb, Task.step_canConfigure] at hpurpose ⊢
    rcases List.mem_append.mp hpurpose with hold | hnew
    · exact h.asked purpose (hmem _ hold)
    · exact hstep.asked hnew
  case held =>
    intro entry hentry
    simp only [proceed, absorb, hreported]
    rcases mem_held_absorb.mp hentry with hold | hnew
    · refine h.held entry ?_
      rcases List.mem_append.mp hold with hold | hold
      · obtain ⟨other, hother, heq⟩ := List.mem_filterMap.mp hold
        exact List.mem_append_left _ (List.mem_filterMap.mpr ⟨other, hmem other hother, heq⟩)
      · exact List.mem_append_right _ hold
    · exact hstep.held h.known hasked hnew
  case documents =>
    intro uri document hopen
    simp only [proceed, absorb, hstep.get?, Option.map_eq_some_iff] at hopen
    obtain ⟨before, hbefore, rfl⟩ := hopen
    simp only [proceed, absorb, hreported]
    exact h.revised hperm hbefore

theorem failed (h : session.Sound strict client) : session.fail.Sound strict client :=
  ⟨h.known, h.asked, h.held, h.documents⟩

theorem roused {timer : Timer} {others : List Timer} (h : session.Sound strict client)
    (hperm : session.timers.Perm (timer :: others)) :
    (session.rouse timer others).Sound strict client where
  known := h.known
  asked purpose hpurpose := h.asked purpose (by simpa [rouse] using hpurpose)
  held entry hentry := h.held entry ((mem_held_rouse hperm).mp hentry)
  documents uri document hopen := by
    rw [snapshots_rouse]
    refine (h.documents uri document hopen).weaken fun hdrops => ?_
    rw [Drops, awaiting_rouse]
    exact hdrops.imp_left (List.mem_append_left _)

end Sound

/-- The analysis of a document is still going to be dropped because settings changed: the documents
are still to be listed, or this one is. -/
def Reloads (session : Session) (uri : String) : Prop :=
  .takeConfiguration true ∈ session.tasks ∨ ∃ entry ∈ session.awaiting, entry.1 = uri

instance (session : Session) (uri : String) : Decidable (session.Reloads uri) :=
  inferInstanceAs (Decidable (_ ∨ _))

end Session

namespace Conversation

def reported (c : Conversation) (uri : String) : DocumentSettings :=
  c.session.server.reported c.client uri

/-- The settings in force for a document: those that the server keeps, or else those that it would
be told. -/
def settings (c : Conversation) (uri : String) : DocumentSettings :=
  (c.session.server.settings.get? uri).getD (c.reported uri)

/-- The analysis that is kept of a document, if there is one, is that of its text with the settings
in force. -/
def Faithful (c : Conversation) (uri : String) : Prop :=
  ∀ document ∈ c.session.server.documents.get? uri, ∀ a ∈ document.analysis,
    a = analyze document.text (c.settings uri).checks

instance (c : Conversation) (uri : String) : Decidable (c.Faithful uri) :=
  inferInstanceAs (Decidable (∀ _ ∈ _, _))

/-- A document is not opened while an analysis of its former text is computed, and the settings of a
document do not change while something holds the former ones to read the document off with. -/
def Careful (c : Conversation) : Move → Prop
  | .notify (.opened uri _ _) => c.session.snapshots uri = []
  | .notify (.changed uri _ _) =>
      c.session.server.documents.get? uri = none → c.session.snapshots uri = []
  | .reconfigure configuration =>
      ∀ entry ∈ c.session.held,
        entry.2 = (c.session.server.reported { c.client with configuration } entry.1).checks
  | .request _ request => request.isOrdinary = true
  | _ => True

instance (c : Conversation) : (m : Move) → Decidable (c.Careful m)
  | .notify (.opened uri _ _) => inferInstanceAs (Decidable (c.session.snapshots uri = []))
  | .notify (.changed _ _ _) => inferInstanceAs (Decidable (_ → _))
  | .reconfigure _ => inferInstanceAs (Decidable (∀ _ ∈ _, _))
  | .request _ request => inferInstanceAs (Decidable (request.isOrdinary = true))
  | .notify .initialized | .notify .configurationChanged | .notify (.closed _) | .advance _
  | .wake _ | .pass _ => inferInstanceAs (Decidable True)

/-- A change that leaves its text as it was does not come while a document waits to be validated
anew. -/
def Unrepeated (c : Conversation) : Move → Prop
  | .notify (.changed uri version changes) =>
      ∀ document ∈ c.session.server.documents.get? uri,
        (uri, document.version) ∈ c.session.awaiting →
          (document.change version changes).analysis = none
  | _ => True

instance (c : Conversation) : (m : Move) → Decidable (c.Unrepeated m)
  | .notify (.changed _ _ _) => inferInstanceAs (Decidable (∀ _ ∈ _, _))
  | .notify .initialized | .notify .configurationChanged | .notify (.opened _ _ _)
  | .notify (.closed _) | .reconfigure _ | .request _ _ | .advance _ | .wake _ | .pass _ =>
      inferInstanceAs (Decidable True)

theorem sound_move {strict : Prop} {c : Conversation} {m : Move}
    (h : c.session.Sound strict c.client) (hcareful : c.Careful m)
    (hunrepeated : strict → c.Unrepeated m) :
    (c.move m).session.Sound strict (c.move m).client := by
  refine moved (P := fun c => c.session.Sound strict c.client) h ?_
  cases m with
  | notify notification =>
    cases notification with
    | initialized => exact h.initialized
    | configurationChanged => exact h.reconfigured h.held
    | opened uri version text => exact h.opened hcareful
    | changed uri version changes => exact h.changed hcareful hunrepeated
    | closed uri => exact h.closed
  | reconfigure configuration => exact h.reconfigured hcareful
  | request id request => exact h.accepted hcareful
  | advance index =>
    refine advanced (P := fun c => c.session.Sound strict c.client) h (fun _ _ _ => h.failed) ?_
    exact fun task rest _ hperm _ => h.stepped hperm
  | wake index =>
    refine woken (P := fun c => c.session.Sound strict c.client) h fun timer rest hperm => ?_
    exact h.roused hperm
  | pass ms => exact ⟨h.known, h.asked, h.held, h.documents⟩

theorem sound_start (strict : Prop) (client : Client) (canConfigure : Bool) :
    (start client canConfigure).session.Sound strict client where
  known _ _ hknown := by cases hknown
  asked _ hpurpose := by cases hpurpose
  held _ hentry := by cases hentry
  documents _ _ hopen := by cases hopen

theorem settings_eq {strict : Prop} {c : Conversation} (h : c.session.Sound strict c.client)
    (uri : String) : c.settings uri = c.reported uri := by
  unfold settings
  cases hknown : c.session.server.settings.get? uri with
  | none => rfl
  | some settings => exact h.known uri settings hknown

theorem sound_run {client : Client} {canConfigure : Bool} {moves : List Move}
    (hcareful : Orderly Careful (start client canConfigure) moves) :
    ((start client canConfigure).run moves).session.Sound False
      ((start client canConfigure).run moves).client := by
  refine run_induction (P := fun c => c.session.Sound False c.client) ?_ (sound_start _ _ _) hcareful
  intro c m hsound hm
  exact sound_move hsound hm False.elim

theorem faithful_of_careful {client : Client} {canConfigure : Bool} {moves : List Move}
    (hcareful : Orderly Careful (start client canConfigure) moves) {uri : String}
    (hreloaded : ¬((start client canConfigure).run moves).session.Reloads uri) :
    ((start client canConfigure).run moves).Faithful uri := by
  have hsound := sound_run hcareful
  intro document hopen a ha
  rw [settings_eq hsound]
  refine ((hsound.documents uri document hopen).analysis a ha).resolve_right fun hdrops => ?_
  refine hreloaded (hdrops.imp_right ?_)
  rintro ⟨listed, -, hlisted⟩
  exact ⟨_, hlisted, rfl⟩

/-- Settings change when nothing holds the former ones, a question is asked while they are reloaded,
and the document is closed and then changed without having been opened. -/
def tour : List Move := [
  .notify (.opened "d" 1 "FROM a\nMAINTAINER b".toList),
  .advance 0, .advance 0, .advance 0, .wake 0, .advance 0, .advance 0,
  .reconfigure (Client.holding { deprecatedMaintainer := .ignore }).configuration, .advance 0,
  .request 7 (.ask "d" .outline),
  .advance 0, .advance 0, .advance 0, .advance 0, .advance 0, .advance 0, .advance 0,
  .notify (.closed "d"), .notify (.changed "d" 1 [⟨none, "MAINTAINER c".toList⟩]),
  .advance 0, .advance 0, .advance 0, .wake 0, .advance 0, .pass 250, .wake 0,
  .advance 0, .advance 0, .advance 0]

theorem faithful_of_careful_run :
    let c := (start (.holding { deprecatedMaintainer := .error }) true).run tour
    Orderly Careful (start (.holding { deprecatedMaintainer := .error }) true) tour ∧
      ¬c.session.Reloads "d" ∧ (c.session.server.documents.get? "d").any (·.analysis.isSome) ∧
      c.Faithful "d" := by
  have hcareful : Orderly Careful (start (.holding { deprecatedMaintainer := .error }) true)
      tour := by decide +kernel
  have hreloaded : ¬((start (.holding { deprecatedMaintainer := .error }) true).run
      tour).session.Reloads "d" := by decide +kernel
  exact ⟨hcareful, hreloaded, by decide +kernel, faithful_of_careful hcareful hreloaded⟩

/-- A document is closed and opened anew while its analysis is computed. -/
def reopened : Conversation :=
  (start (.holding {}) false).run [
    .notify (.opened "d" 1 "FROM a\nMAINTAINER b".toList), .request 7 (.ask "d" .outline),
    .advance 1, .advance 1, .advance 1,
    .notify (.closed "d"), .notify (.opened "d" 1 "FROM a".toList), .advance 1]

/-- Settings change while a timer holds the former ones. -/
def outlived : Conversation :=
  (start (.holding { deprecatedMaintainer := .error }) true).run [
    .notify (.opened "d" 1 "FROM a\nMAINTAINER b".toList), .advance 0, .advance 0, .advance 0,
    .reconfigure (Client.holding { deprecatedMaintainer := .ignore }).configuration,
    .advance 0, .advance 0, .advance 0, .advance 0, .advance 0,
    .wake 0, .advance 0, .advance 0, .advance 0]

/-- Settings changed, and the analyses with the former ones are not dropped yet. -/
def reloading : Conversation :=
  (start (.holding { deprecatedMaintainer := .error }) true).run [
    .notify (.opened "d" 1 "FROM a\nMAINTAINER b".toList), .advance 0, .advance 0, .advance 0,
    .wake 0, .advance 0, .advance 0, .advance 0,
    .reconfigure (Client.holding { deprecatedMaintainer := .ignore }).configuration]

theorem not_faithful :
    (¬reopened.session.Reloads "d" ∧ ¬reopened.Faithful "d") ∧
      (¬outlived.session.Reloads "d" ∧ ¬outlived.Faithful "d") ∧ ¬reloading.Faithful "d" := by
  decide +kernel

end Conversation

end Dockerfile
