import Mathlib.Data.List.Induction
import Dockerfile.Proofs.Server.Step

/-!
# Conversations

A conversation is a session together with the editor that it serves and everything that was sent so
far. It goes on in moves: a message arrives, the editor changes its settings and says so, one task
goes on by one step, a validation that is due starts, or time passes. A list of moves is one order in
which these things can happen. No move changes what Docker Hub lists.
-/

namespace Dockerfile

/-- Nothing is in flight. -/
def Session.Idle (session : Session) : Prop :=
  session.tasks = [] ∧ session.timers = []

instance (session : Session) : Decidable session.Idle :=
  inferInstanceAs (Decidable (_ ∧ _))

structure Conversation where
  client : Client
  session : Session
  sent : List Outgoing := []

inductive Move where
  | notify (notification : Notification)
  /-- The editor answers otherwise about settings from now on, and says that they changed. -/
  | reconfigure (configuration : Option String → Option (List Json))
  | request (id : Nat) (request : Request)
  | advance (index : Nat)
  | wake (index : Nat)
  | pass (ms : Nat)

/-- An editor that holds the same checks for every document. -/
def Client.holding (checks : Settings) : Client where
  configuration _ := some [.object [("diagnostics", checks.toJson)]]
  tags _ := none

/-- A move that brings no message. -/
def Move.isStep : Move → Bool
  | advance _ | wake _ | pass _ => true
  | _ => false

namespace Conversation

/-- A conversation that begins: nothing is open and nothing is in flight. -/
def start (client : Client) (canConfigure : Bool) : Conversation :=
  { client, session := { server := { phase := .running, canConfigure } } }

def take (c : Conversation) (outcome : Outcome) : Conversation :=
  { c with session := c.session.absorb outcome, sent := c.sent ++ outcome.sent }

def act (c : Conversation) : Move → Conversation
  | .notify notification => c.take (c.session.server.heed notification)
  | .reconfigure configuration =>
      { c with client := { c.client with configuration } }.take
        (c.session.server.heed .configurationChanged)
  | .request id request => c.take (c.session.server.accept id request)
  | .advance index =>
      let next := c.session.advance c.client index
      { c with session := next.1, sent := c.sent ++ next.2 }
  | .wake index => { c with session := c.session.wake index }
  | .pass ms => { c with session := { c.session with now := c.session.now + ms } }

def IsOver (c : Conversation) : Prop :=
  c.session.server.phase.isOver = true

instance (c : Conversation) : Decidable c.IsOver :=
  inferInstanceAs (Decidable (_ = _))

theorem isOver_congr {c d : Conversation}
    (h : c.session.server.phase = d.session.server.phase) : c.IsOver ↔ d.IsOver := by
  rw [IsOver, IsOver, h]

def move (c : Conversation) (m : Move) : Conversation :=
  if c.IsOver then c else c.act m

theorem move_of_isOver {c : Conversation} (h : c.IsOver) (m : Move) : c.move m = c :=
  if_pos h

theorem move_of_not_isOver {c : Conversation} (h : ¬c.IsOver) (m : Move) : c.move m = c.act m :=
  if_neg h

theorem moved {P : Conversation → Prop} {c : Conversation} {m : Move} (h : P c)
    (hact : P (c.act m)) : P (c.move m) := by
  by_cases hover : c.IsOver
  · rwa [move_of_isOver hover]
  · rwa [move_of_not_isOver hover]

def proceed (c : Conversation) (task : Task) (rest : List Task) : Conversation :=
  { c with
    session := c.session.proceed c.client task rest
    sent := c.sent ++ (task.step c.client c.session.now c.session.server).sent }

theorem advanced {P : Conversation → Prop} {c : Conversation} {index : Nat} (h : P c)
    (hfail : ∀ task ∈ c.session.tasks, task.fails c.client c.session.server = true →
      P { c with session := c.session.fail })
    (hproceed : ∀ task rest, c.session.tasks[index]? = some task →
      c.session.tasks.Perm (task :: rest) → task.fails c.client c.session.server = false →
      P (c.proceed task rest)) :
    P (c.act (.advance index)) := by
  simp only [act]
  rcases Session.advance_cases c.client c.session index with
    heq | ⟨task, rest, htask, hperm, ⟨hfails, heq⟩ | ⟨hgoes, heq⟩⟩
  · simpa [heq] using h
  · simpa [heq] using hfail task (List.mem_of_getElem? htask) hfails
  · rw [heq]
    exact hproceed task rest htask hperm hgoes

theorem woken {P : Conversation → Prop} {c : Conversation} {index : Nat} (h : P c)
    (hrouse : ∀ timer rest, c.session.timers.Perm (timer :: rest) →
      P { c with session := c.session.rouse timer rest }) :
    P (c.act (.wake index)) := by
  simp only [act]
  rcases Session.wake_cases c.session index with heq | ⟨timer, rest, hperm, -, heq⟩
  · rw [heq]
    exact h
  · rw [heq]
    exact hrouse timer rest hperm

theorem get?_proceed (c : Conversation) (task : Task) (rest : List Task) (uri : String) :
    (c.proceed task rest).session.server.documents.get? uri =
      (c.session.server.documents.get? uri).map fun document => task.revise uri document :=
  (Task.leadsTo c.client c.session.now c.session.server task).get?

def run (c : Conversation) (moves : List Move) : Conversation :=
  moves.foldl move c

@[simp] theorem run_nil (c : Conversation) : c.run [] = c := rfl

@[simp] theorem run_cons (c : Conversation) (m : Move) (rest : List Move) :
    c.run (m :: rest) = (c.move m).run rest := rfl

@[simp] theorem run_append (c : Conversation) (moves more : List Move) :
    c.run (moves ++ more) = (c.run moves).run more :=
  List.foldl_append

/-- Each move is allowed in the conversation as the moves before it left it. -/
def Orderly (allowed : Conversation → Move → Prop) : Conversation → List Move → Prop
  | _, [] => True
  | c, m :: rest => allowed c m ∧ Orderly allowed (c.move m) rest

instance (allowed : Conversation → Move → Prop) [∀ c m, Decidable (allowed c m)] :
    (c : Conversation) → (moves : List Move) → Decidable (Orderly allowed c moves)
  | _, [] => inferInstanceAs (Decidable True)
  | c, m :: rest =>
      have := instDecidableOrderly allowed (c.move m) rest
      inferInstanceAs (Decidable (_ ∧ _))

theorem Orderly.and {allowed wanted : Conversation → Move → Prop} {c : Conversation}
    {moves : List Move} (h : Orderly allowed c moves) (hwanted : Orderly wanted c moves) :
    Orderly (fun c m => allowed c m ∧ wanted c m) c moves := by
  induction moves generalizing c with
  | nil => trivial
  | cons m rest ih => exact ⟨⟨h.1, hwanted.1⟩, ih h.2 hwanted.2⟩

theorem run_induction {allowed : Conversation → Move → Prop} {P : Conversation → Prop}
    (hmove : ∀ c m, P c → allowed c m → P (c.move m)) {c : Conversation} {moves : List Move}
    (hstart : P c) (horderly : Orderly allowed c moves) : P (c.run moves) := by
  induction moves generalizing c with
  | nil => exact hstart
  | cons m rest ih => exact ih (hmove c m hstart horderly.1) horderly.2

/-! ## Editions -/

end Conversation

theorem Document.edition_change_le (document : Document) (version : Int) (changes : List Change) :
    (document.change version changes).edition ≤ document.edition + 1 := by
  simp only [change]
  split <;> simp

theorem Task.edition_revise_le (uri : String) (document : Document) (task : Task) :
    (task.revise uri document).edition ≤ document.edition + 1 := by
  fun_cases revise <;> grind [Document.keep, Document.forget]

/-- No document, and no snapshot in flight, is of a later edition than this. -/
structure Session.Within (bound : Nat) (session : Session) : Prop where
  documents : ∀ uri document, session.server.documents.get? uri = some document →
    document.edition ≤ bound
  snapshots : ∀ task ∈ session.tasks, ∀ s, task.snapshot? = some s → s.edition ≤ bound

namespace Session.Within

variable {bound : Nat} {session : Session} {client : Client}

theorem absorb {outcome : Outcome} (h : session.Within bound)
    (hfresh : ∀ task ∈ outcome.tasks, task.isFresh = true)
    (hdocuments : ∀ uri document, outcome.server.documents.get? uri = some document →
      document.edition ≤ bound + 1) : (session.absorb outcome).Within (bound + 1) where
  documents := hdocuments
  snapshots task htask s hs := by
    rcases List.mem_append.mp htask with hold | hnew
    · exact Nat.le_succ_of_le (h.snapshots task hold s hs)
    · simp [(Task.isFresh_carries_nothing (hfresh task hnew)).2.1] at hs

theorem heeded (h : session.Within bound) (notification : Notification) :
    (session.absorb (session.server.heed notification)).Within (bound + 1) := by
  refine h.absorb (fun _ => Server.isFresh_heed) fun uri document hopen => ?_
  by_cases habout : notification.about? = some uri
  · cases notification with
    | initialized | configurationChanged => cases habout
    | opened about version text =>
      obtain rfl : about = uri := Option.some.inj habout
      simp only [Server.heed, Server.schedule, Server.get?_openDocument, if_true] at hopen
      rw [← Option.some.inj hopen]
      exact Nat.zero_le _
    | changed about version changes =>
      obtain rfl : about = uri := Option.some.inj habout
      simp only [Server.heed, Server.schedule, Server.get?_changeDocument, if_true] at hopen
      rw [← Option.some.inj hopen]
      refine Nat.le_trans (Document.edition_change_le _ _ _) (Nat.succ_le_succ ?_)
      cases hold : session.server.documents.get? about with
      | none => exact Nat.zero_le _
      | some before => exact h.documents about before hold
    | closed about =>
      obtain rfl : about = uri := Option.some.inj habout
      simp [Server.heed, Server.get?_closeDocument] at hopen
  · rw [Server.get?_heed_of_ne habout] at hopen
    exact Nat.le_succ_of_le (h.documents uri document hopen)

theorem accepted (h : session.Within bound) (id : Nat) (request : Request) :
    (session.absorb (session.server.accept id request)).Within (bound + 1) := by
  refine h.absorb (fun _ => Server.isFresh_accept) fun uri document hopen => ?_
  refine Nat.le_succ_of_le (h.documents uri document ?_)
  cases request <;> exact hopen

theorem stepped {task : Task} {rest : List Task} (h : session.Within bound)
    (hperm : session.tasks.Perm (task :: rest)) :
    (session.proceed client task rest).Within (bound + 1) where
  documents uri document hopen := by
    simp only [proceed, Session.absorb,
      (Task.leadsTo client session.now session.server task).get?, Option.map_eq_some_iff] at hopen
    obtain ⟨before, hbefore, rfl⟩ := hopen
    exact Nat.le_trans (Task.edition_revise_le _ _ _)
      (Nat.succ_le_succ (h.documents uri before hbefore))
  snapshots other hother s hs := by
    refine Nat.le_succ_of_le ?_
    rcases List.mem_append.mp hother with hold | hnew
    · exact h.snapshots other (hperm.mem_iff.mpr (List.mem_cons_of_mem _ hold)) s hs
    · rcases (Task.leadsTo client session.now session.server task).snapshot
        (List.mem_filterMap.mpr ⟨other, hnew, hs⟩) with hpassed | ⟨document, checks, -, hopen, heq⟩
      · exact h.snapshots task (hperm.mem_iff.mpr List.mem_cons_self) s hpassed
      · rw [heq]
        exact h.documents _ document hopen

/-- Counted in words of 64 bits, editions within the bound are told apart all the same. -/
theorem toUInt64_edition_eq_iff {uri : String} {document : Document} {task : Task} {s : Snapshot}
    (h : session.Within bound) (hbound : bound < UInt64.size)
    (hopen : session.server.documents.get? uri = some document) (htask : task ∈ session.tasks)
    (hs : task.snapshot? = some s) :
    document.edition.toUInt64 = s.edition.toUInt64 ↔ document.edition = s.edition := by
  have hdocument := h.documents uri document hopen
  have hsnapshot := h.snapshots task htask s hs
  rw [← UInt64.toNat_inj, Nat.toUInt64_eq, Nat.toUInt64_eq, UInt64.toNat_ofNat_of_lt',
    UInt64.toNat_ofNat_of_lt'] <;> omega

end Session.Within

namespace Conversation

theorem within_move {bound : Nat} {c : Conversation} (h : c.session.Within bound) (m : Move) :
    (c.move m).session.Within (bound + 1) := by
  have hsame : c.session.Within (bound + 1) :=
    ⟨fun uri document hopen => Nat.le_succ_of_le (h.documents uri document hopen),
      fun task htask s hs => Nat.le_succ_of_le (h.snapshots task htask s hs)⟩
  refine moved (P := fun c => c.session.Within (bound + 1)) hsame ?_
  cases m with
  | notify notification => exact h.heeded notification
  | reconfigure configuration => exact h.heeded .configurationChanged
  | request id request => exact h.accepted id request
  | advance index =>
    refine advanced (P := fun c => c.session.Within (bound + 1)) hsame
      (fun _ _ _ => ⟨hsame.documents, hsame.snapshots⟩) ?_
    exact fun _ _ _ hperm _ => h.stepped hperm
  | wake index =>
    refine woken (P := fun c => c.session.Within (bound + 1)) hsame fun timer rest _ => ?_
    refine ⟨hsame.documents, fun task htask s hs => ?_⟩
    rcases List.mem_append.mp htask with hold | hnew
    · exact hsame.snapshots task hold s hs
    · simp [List.mem_singleton.mp hnew, Task.snapshot?] at hs
  | pass ms => exact ⟨hsame.documents, hsame.snapshots⟩

theorem within_run (client : Client) (canConfigure : Bool) (moves : List Move) :
    ((start client canConfigure).run moves).session.Within moves.length := by
  induction moves using List.reverseRecOn with
  | nil => exact ⟨fun _ _ hopen => (nomatch hopen), fun _ htask => (nomatch htask)⟩
  | append_singleton moves m ih =>
    rw [run_append, List.length_append]
    exact within_move ih m

/-! ## Coming to rest -/

variable {c : Conversation}

/-- No work goes on. -/
def Quiet (c : Conversation) : Prop :=
  c.session.Idle ∨ c.IsOver

instance (c : Conversation) : Decidable c.Quiet :=
  inferInstanceAs (Decidable (_ ∨ _))

theorem act_advance_zero {task : Task} {rest : List Task} (h : c.session.tasks = task :: rest)
    (hgoes : task.fails c.client c.session.server = false) :
    c.act (.advance 0) = c.proceed task rest := by
  simp [act, proceed, Session.advance, Session.proceed, h, hgoes]

theorem isOver_act_advance_zero {task : Task} {rest : List Task} (h : c.session.tasks = task :: rest)
    (hfails : task.fails c.client c.session.server = true) : (c.act (.advance 0)).IsOver := by
  simp [act, IsOver, Session.advance, Session.fail, Phase.isOver, h, hfails]

theorem weight_proceed {task : Task} {rest : List Task} (h : c.session.tasks = task :: rest) :
    let next := (c.proceed task rest).session
    Task.totalWeight next.server.documents.length next.tasks <
      Task.totalWeight c.session.server.documents.length c.session.tasks := by
  obtain ⟨hlength, hless⟩ := Task.step_weight c.client c.session.now c.session.server task
  simp only [proceed, Session.proceed, Session.absorb, hlength, h, Task.totalWeight_append,
    Task.totalWeight_cons]
  omega

/-- Every task ends if the first one always goes on, or the server does. -/
theorem exists_drained {P : Conversation → Prop}
    (hstep : ∀ c task rest, P c → c.session.tasks = task :: rest → P (c.proceed task rest))
    (h : P c) : ∃ steps : List Move, (∀ m ∈ steps, m.isStep = true) ∧
      (P (c.run steps) ∧ (c.run steps).session.tasks = [] ∨ (c.run steps).IsOver) := by
  induction hn : Task.totalWeight c.session.server.documents.length c.session.tasks using
    Nat.strongRecOn generalizing c with
  | _ n ih =>
    by_cases hover : c.IsOver
    · exact ⟨[], by simp, .inr hover⟩
    cases htasks : c.session.tasks with
    | nil => exact ⟨[], by simp, .inl ⟨h, htasks⟩⟩
    | cons task rest =>
      cases hfails : task.fails c.client c.session.server with
      | true =>
        refine ⟨[.advance 0], by simp [Move.isStep], .inr ?_⟩
        rw [run_cons, run_nil, move_of_not_isOver hover]
        exact isOver_act_advance_zero htasks hfails
      | false =>
        obtain ⟨steps, hsteps, hdone⟩ :=
          ih _ (hn ▸ weight_proceed htasks) (hstep c task rest h htasks) rfl
        refine ⟨.advance 0 :: steps, by simpa [Move.isStep] using hsteps, ?_⟩
        rw [run_cons, move_of_not_isOver hover, act_advance_zero htasks hfails]
        exact hdone

/-- Only validations that are due or begun are in flight. -/
def Late (c : Conversation) : Prop :=
  c.session.timers = [] ∧ ∀ task ∈ c.session.tasks, task.isLate = true

theorem Late.proceed {task : Task} {rest : List Task} (h : c.Late)
    (htasks : c.session.tasks = task :: rest) : (c.proceed task rest).Late := by
  obtain ⟨htimers, hlate⟩ := h
  simp only [htasks, List.mem_cons, forall_eq_or_imp] at hlate
  obtain ⟨hnext, hnone⟩ :=
    (Task.leadsTo c.client c.session.now c.session.server task).late hlate.1
  refine ⟨by simp [Conversation.proceed, Session.proceed, Session.absorb, htimers, hnone], ?_⟩
  simp only [Conversation.proceed, Session.proceed, Session.absorb, List.mem_append]
  rintro other (hother | hother)
  · exact hlate.2 other hother
  · exact hnext other hother

/-- Every timer starts if one waits until it is due. -/
theorem exists_late (hover : ¬c.IsOver) (htasks : ∀ task ∈ c.session.tasks, task.isLate = true) :
    ∃ steps : List Move, (∀ m ∈ steps, m.isStep = true) ∧ (c.run steps).Late := by
  induction htimers : c.session.timers generalizing c with
  | nil => exact ⟨[], by simp, htimers, htasks⟩
  | cons timer rest ih =>
    have hpassed : ¬(c.act (.pass timer.due)).IsOver := hover
    have hwoken : (c.move (.pass timer.due)).move (.wake 0) =
        { c with session :=
          { c.session with
            tasks := c.session.tasks ++ [.inspect timer]
            timers := rest
            now := c.session.now + timer.due } } := by
      rw [move_of_not_isOver hover, move_of_not_isOver hpassed]
      simp [act, Session.wake, htimers]
    have hlate : ∀ task ∈ ((c.move (.pass timer.due)).move (.wake 0)).session.tasks,
        task.isLate = true := by
      simpa [hwoken, Task.isLate, or_imp, forall_and] using htasks
    obtain ⟨steps, hsteps, hdone⟩ := ih (by rw [hwoken]; exact hover) hlate (by rw [hwoken])
    refine ⟨.pass timer.due :: .wake 0 :: steps, ?_, hdone⟩
    simpa [Move.isStep] using hsteps

/-- Every conversation comes to rest if no message arrives any more: what is in flight ends, then
the timers start, and then their validations end. -/
theorem exists_quiet (c : Conversation) :
    ∃ steps : List Move, (∀ m ∈ steps, m.isStep = true) ∧ (c.run steps).Quiet := by
  obtain ⟨first, hfirst, hdrained⟩ :=
    exists_drained (P := fun _ => True) (c := c) (fun _ _ _ _ _ => trivial) trivial
  by_cases hover : (c.run first).IsOver
  · exact ⟨first, hfirst, .inr hover⟩
  obtain ⟨-, hdrained⟩ := hdrained.resolve_right hover
  have hnone : ∀ task ∈ (c.run first).session.tasks, task.isLate = true := by
    simp [hdrained]
  obtain ⟨second, hsecond, hlate⟩ := exists_late hover hnone
  obtain ⟨third, hthird, hdone⟩ :=
    exists_drained (fun _ _ _ h htasks => h.proceed htasks) hlate
  refine ⟨first ++ second ++ third, ?_, ?_⟩
  · simp only [List.mem_append]
    rintro m ((hm | hm) | hm)
    · exact hfirst m hm
    · exact hsecond m hm
    · exact hthird m hm
  · rw [run_append, run_append]
    exact hdone.imp_left fun ⟨⟨htimers, _⟩, htasks⟩ => ⟨htasks, htimers⟩

end Conversation

end Dockerfile
