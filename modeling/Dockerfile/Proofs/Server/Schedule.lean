import Mathlib.Data.List.SplitBy
import Dockerfile.Proofs.Server.Conversation

/-!
# The order in which the server works

A session finishes its tasks one after the other, and lets validations that are due at the same time
look at their documents together. That is one of the orders of a conversation: whatever a session
comes to when it handles a message (`Conversation.reaches_handle`) or waits
(`Conversation.reaches_wait`), a conversation comes to by steps that bring no message, and it sends
the same. What holds along all conversations therefore holds of sessions.
-/

namespace Dockerfile

/-- What is in flight in two sessions differs in its order, and in timers of the first that are due. -/
structure Session.Matches (due : List Timer) (actual session : Session) : Prop where
  tasks : actual.tasks.Perm session.tasks
  timers : actual.timers.Perm (due ++ session.timers)
  now : actual.now = session.now
  elapsed : ∀ timer ∈ due, timer.due ≤ session.now

/-- Two sessions that differ only in what is in flight, and there only in ways that do not matter. -/
structure Session.Mirrors (due : List Timer) (actual session : Session) : Prop where
  server : actual.server = session.server
  flight : session.server.phase.isOver = false → actual.Matches due session

theorem Session.Mirrors.absorb {due : List Timer} {actual session : Session}
    (h : actual.Mirrors due session) (halive : session.server.phase.isOver = false)
    (outcome : Outcome) : (actual.absorb outcome).Mirrors due (session.absorb outcome) where
  server := rfl
  flight _ := by
    obtain ⟨htasks, htimers, hnow, helapsed⟩ := h.flight halive
    refine ⟨htasks.append_right _, ?_, hnow, helapsed⟩
    simp only [Session.absorb]
    rw [← List.append_assoc]
    exact htimers.append_right _

namespace Conversation

/-- Steps that bring no message lead to a session like this one, and this is sent meanwhile. -/
def Reaches (c : Conversation) (due : List Timer) (result : Session × List Outgoing) : Prop :=
  ∃ steps : List Move, (∀ m ∈ steps, m.isStep = true) ∧ (c.run steps).client = c.client ∧
    (c.run steps).sent = c.sent ++ result.2 ∧ (c.run steps).session.Mirrors due result.1

variable {c : Conversation} {due : List Timer} {session : Session}

namespace Reaches

theorem refl (h : c.session.Mirrors due session) : c.Reaches due (session, []) :=
  ⟨[], by simp, rfl, (List.append_nil _).symm, h⟩

theorem trans {later : List Timer} {after : Session} {sent more : List Outgoing}
    (h : c.Reaches due (session, sent))
    (hnext : ∀ d : Conversation, d.client = c.client → d.session.Mirrors due session →
      d.Reaches later (after, more)) : c.Reaches later (after, sent ++ more) := by
  obtain ⟨steps, hsteps, hclient, hsent, hmirrors⟩ := h
  obtain ⟨others, hothers, hclient', hsent', hmirrors'⟩ := hnext _ hclient hmirrors
  refine ⟨steps ++ others, ?_, ?_, ?_, ?_⟩
  · intro m hm
    rcases List.mem_append.mp hm with hm | hm
    · exact hsteps m hm
    · exact hothers m hm
  · rw [run_append, hclient', hclient]
  · rw [run_append, hsent', hsent, List.append_assoc]
  · rw [run_append]
    exact hmirrors'

theorem act {m : Move} {sent : List Outgoing} (hm : m.isStep = true) (halive : ¬c.IsOver)
    (hclient : (c.act m).client = c.client) (hsent : (c.act m).sent = c.sent ++ sent)
    (h : (c.act m).session.Mirrors due session) : c.Reaches due (session, sent) := by
  have hrun : c.run [m] = c.act m := move_of_not_isOver halive m
  exact ⟨[m], by simpa using hm, hrun ▸ hclient, hrun ▸ hsent, hrun ▸ h⟩

end Reaches

theorem not_isOver_of_mirrors (h : c.session.Mirrors due session)
    (halive : session.server.phase.isOver = false) : ¬c.IsOver := by
  simp [IsOver, h.server, halive]

theorem reaches_step {task : Task} {rest : List Task} (h : c.session.Mirrors due session)
    (halive : session.server.phase.isOver = false) (htasks : session.tasks.Perm (task :: rest))
    (hgoes : task.fails c.client session.server = false) :
    let outcome := task.step c.client session.now session.server
    c.Reaches due ({ session with tasks := rest }.absorb outcome, outcome.sent) := by
  intro outcome
  obtain ⟨htasks', htimers, hnow, helapsed⟩ := h.flight halive
  have hperm := htasks'.trans htasks
  obtain ⟨index, hindex⟩ := List.getElem?_of_mem (hperm.mem_iff.mpr List.mem_cons_self)
  have hrest : (c.session.tasks.eraseIdx index).Perm rest :=
    ((Session.perm_eraseIdx hindex).symm.trans hperm).cons_inv
  have hact : c.act (.advance index) = c.proceed task (c.session.tasks.eraseIdx index) := by
    simp [Conversation.act, proceed, Session.advance, Session.proceed, hindex, h.server, hgoes]
  have hstep : task.step c.client c.session.now c.session.server = outcome := by
    rw [hnow, h.server]
  refine .act (m := .advance index) rfl (not_isOver_of_mirrors h halive) (by rw [hact]; rfl)
    (by rw [hact, proceed, hstep]) ?_
  have hmirrors : ({ c.session with tasks := c.session.tasks.eraseIdx index } : Session).Mirrors due
      { session with tasks := rest } := ⟨h.server, fun _ => ⟨hrest, htimers, hnow, helapsed⟩⟩
  rw [hact, proceed, Session.proceed, hstep]
  exact hmirrors.absorb halive outcome

/-- A task that cannot go on can be the next one as well. -/
theorem reaches_fail {task : Task} {rest : List Task} (h : c.session.Mirrors due session)
    (halive : session.server.phase.isOver = false) (htasks : session.tasks.Perm (task :: rest))
    (hfails : task.fails c.client session.server = true) : c.Reaches due (session.fail, []) := by
  have hperm := (h.flight halive).tasks.trans htasks
  obtain ⟨index, hindex⟩ := List.getElem?_of_mem (hperm.mem_iff.mpr List.mem_cons_self)
  have hact : c.act (.advance index) = { c with session := c.session.fail } := by
    simp [Conversation.act, Session.advance, hindex, h.server, hfails]
  refine .act (m := .advance index) rfl (not_isOver_of_mirrors h halive) (by rw [hact])
    (by rw [hact, List.append_nil]) ?_
  rw [hact]
  refine ⟨by simp [Session.fail, h.server], fun halive => ?_⟩
  cases halive

theorem reaches_settle {client : Client} (hclient : c.client = client)
    (halive : session.server.phase.isOver = false) (h : c.session.Mirrors due session) :
    c.Reaches due (session.settle client) := by
  fun_induction Session.settle client session generalizing c with
  | case1 session hnone => exact .refl h
  | case2 session task rest htasks hfails =>
    have hperm : session.tasks.Perm (task :: rest) := htasks ▸ .refl _
    exact reaches_fail h halive hperm (by rw [hclient, hfails])
  | case3 session task rest htasks hgoes outcome next =>
    rename_i ih
    have hperm : session.tasks.Perm (task :: rest) := htasks ▸ .refl _
    have hstep := reaches_step h halive hperm (by simpa [hclient] using hgoes)
    rw [hclient] at hstep
    refine hstep.trans fun d hd hmirrors => ih (hd.trans hclient) (by simp [outcome, halive]) ?_
    refine ⟨hmirrors.server, fun hstays => ?_⟩
    obtain ⟨htasks, htimers, hnow, helapsed⟩ := hmirrors.flight hstays
    exact ⟨htasks.trans List.perm_append_comm, htimers, hnow, helapsed⟩

/-- A timer that is due starts, and its validation looks at the document at once. -/
theorem reaches_look {client : Client} {timer : Timer} (hclient : c.client = client)
    (halive : session.server.phase.isOver = false) (h : c.session.Mirrors (timer :: due) session) :
    let outcome := (Task.inspect timer).step client session.now session.server
    c.Reaches due (session.absorb outcome, outcome.sent) := by
  intro outcome
  obtain ⟨htasks, htimers, hnow, helapsed⟩ := h.flight halive
  obtain ⟨index, hindex⟩ :=
    List.getElem?_of_mem (htimers.mem_iff.mpr (List.mem_append_left _ List.mem_cons_self))
  have hrest : (c.session.timers.eraseIdx index).Perm (due ++ session.timers) :=
    ((Session.perm_eraseIdx hindex).symm.trans htimers).cons_inv
  have hdue : timer.due ≤ c.session.now := by
    rw [hnow]
    exact helapsed timer List.mem_cons_self
  have hwoken : (c.act (.wake index)).session.Mirrors due
      { session with tasks := session.tasks ++ [.inspect timer] } := by
    simp only [act, Session.wake, hindex, hdue, if_true]
    exact ⟨h.server, fun _ => ⟨htasks.append_right _, hrest, hnow,
      fun other hother => helapsed other (List.mem_cons_of_mem _ hother)⟩⟩
  have hstart : c.Reaches due ({ session with tasks := session.tasks ++ [.inspect timer] }, []) :=
    .act (m := .wake index) rfl (not_isOver_of_mirrors h halive) rfl (List.append_nil _).symm hwoken
  refine hstart.trans fun d hd hmirrors => ?_
  have hlook := reaches_step hmirrors halive (List.perm_append_singleton _ _) rfl
  rw [hd, hclient] at hlook
  exact hlook

theorem reaches_begin {client : Client} {group : List Timer} (hclient : c.client = client)
    (halive : session.server.phase.isOver = false)
    (h : c.session.Mirrors (group ++ due) session) :
    c.Reaches due (session.begin client group) := by
  induction group generalizing c session with
  | nil => exact .refl h
  | cons timer group ih =>
    refine (reaches_look hclient halive h).trans fun d hd hmirrors => ?_
    exact ih (hd.trans hclient) (by simpa [Session.absorb] using halive) hmirrors

theorem phase_begin (client : Client) (session : Session) (group : List Timer) :
    (session.begin client group).1.server.phase = session.server.phase := by
  induction group generalizing session with
  | nil => rfl
  | cons timer group ih => simp [Session.begin, ih, Session.absorb]

theorem reaches_fire {client : Client} {groups : List (List Timer)} (hclient : c.client = client)
    (h : c.session.Mirrors groups.flatten session) :
    c.Reaches [] (session.fire client groups) := by
  induction groups generalizing c session with
  | nil => exact .refl h
  | cons group groups ih =>
    cases halive : session.server.phase.isOver with
    | true =>
      rw [Session.fire_of_isOver halive]
      exact .refl ⟨h.server, by simp [halive]⟩
    | false =>
      have hbegun := reaches_begin hclient halive (List.flatten_cons ▸ h)
      have hsettled := hbegun.trans fun d hd hmirrors =>
        reaches_settle (hd.trans hclient) (by rw [phase_begin, halive]) hmirrors
      rw [Session.fire, if_neg (by simp [halive])]
      exact hsettled.trans fun d hd hmirrors => ih (hd.trans hclient) hmirrors

/-- A session that waits goes the way of a conversation. -/
theorem reaches_wait (h : c.session.Mirrors [] session) (ms : Nat) :
    c.Reaches [] (session.wait c.client ms) := by
  cases halive : session.server.phase.isOver with
  | true =>
    rw [Session.wait, Session.fire_of_isOver (by exact halive)]
    exact .refl ⟨h.server, by simp [halive]⟩
  | false =>
    obtain ⟨htasks, htimers, hnow, -⟩ := h.flight halive
    let due := session.timers.filter fun timer => timer.due ≤ session.now + ms
    let sorted := due.mergeSort fun a b => a.due ≤ b.due
    have hsorted : sorted.Perm due := List.mergeSort_perm _ _
    have hpassed : (c.act (.pass ms)).session.Mirrors
        (sorted.splitBy fun a b => a.due == b.due).flatten
        { session with
          timers := session.timers.filter fun timer => session.now + ms < timer.due
          now := session.now + ms } := by
      rw [List.flatten_splitBy]
      refine ⟨h.server, fun _ => ⟨htasks, ?_, by rw [← hnow]; rfl, fun timer htimer => ?_⟩⟩
      · have hparts := List.filter_append_perm (fun timer : Timer => timer.due ≤ session.now + ms)
          session.timers
        simp only [← decide_not, Nat.not_le] at hparts
        exact htimers.trans (hparts.symm.trans (hsorted.symm.append_right _))
      · simpa using (List.mem_filter.mp (hsorted.mem_iff.mp htimer)).2
    have hstart : c.Reaches _ (_, []) :=
      .act (m := .pass ms) rfl (not_isOver_of_mirrors h halive) rfl (List.append_nil _).symm hpassed
    exact hstart.trans fun d hd hmirrors => reaches_fire hd hmirrors

theorem reaches_handle (h : c.session.Mirrors [] session)
    (halive : session.server.phase.isOver = false) {outcome : Outcome}
    (hstays : outcome.server.phase.isOver = false) :
    ∃ steps : List Move, (∀ m ∈ steps, m.isStep = true) ∧
      ((c.take outcome).run steps).sent = c.sent ++ (session.handle c.client outcome).2 ∧
      ((c.take outcome).run steps).session.Mirrors [] (session.handle c.client outcome).1 := by
  have hmirrors : (c.take outcome).session.Mirrors [] (session.absorb outcome) :=
    h.absorb halive outcome
  obtain ⟨steps, hsteps, -, hsent, hsettled⟩ := reaches_settle rfl hstays hmirrors
  refine ⟨steps, hsteps, ?_, hsettled⟩
  rw [hsent, take, Session.handle, List.append_assoc]

end Conversation

end Dockerfile
