import Dockerfile.Server.Task

/-!
# Sessions

A session is a server with the work that it has in flight and a clock. Messages arrive, tasks go on
step by step, and time passes. `Session.advance` lets any one task go on, so that all orders in which
things can happen are sequences of such moves. `Session.settle` is one of them: it finishes the tasks
one after the other. `Session.wait` is another: validations that are due at the same time all look at
their documents before any of them goes on. A task that cannot be gone on with ends the server, and
everything stays as it stands then.
-/

namespace Dockerfile

/-- A server at work. -/
structure Session where
  server : Server := {}
  tasks : List Task := []
  timers : List Timer := []
  /-- The time in milliseconds. -/
  now : Nat := 0
  deriving DecidableEq, Repr

namespace Server

/-- Drops the settings of all documents and asks for those of the server, if the editor can be
asked; then all documents are validated if so wanted. -/
def loadConfiguration (server : Server) (revalidates : Bool) : Outcome :=
  let server := server.dropSettings
  if server.canConfigure then
    { server, tasks := [.takeConfiguration revalidates], sent := [.askConfiguration none] }
  else { server, tasks := if revalidates then [.revalidate server.versions] else [] }

def schedule (server : Server) (uri : String) (version : Int) (delay : Nat) : Outcome :=
  { server, tasks := [.findSettings (.validate uri version delay [])] }

def heed (server : Server) : Notification → Outcome
  | .initialized =>
      let outcome := server.loadConfiguration false
      { outcome with sent := .log "Dockerfile language server started" :: outcome.sent }
  | .configurationChanged => server.loadConfiguration true
  | .opened uri version text => (server.openDocument uri version text).schedule uri version 0
  | .changed uri version changes =>
      (server.changeDocument uri version changes).schedule uri version server.debounceMs
  | .closed uri => { server := server.closeDocument uri, sent := [.publish uri none []] }

def accept (server : Server) (id : Nat) : Request → Outcome
  | .start canConfigure =>
      { server := { server with phase := .running, canConfigure }
        sent := [.reply id (.ok Capabilities.startResult)] }
  | .shutdown => { server := { server with phase := .stopped }, sent := [.reply id (.ok .null)] }
  | .ask uri question =>
      let inquiry : Inquiry := { id, uri, question }
      let first := if question.needsFormatter then Task.findSettings (.format inquiry)
        else .consult inquiry
      { server, tasks := [first] }
  | .actions uri reports =>
      let actions := reports.flatMap (Report.actions uri)
      { server, sent := [.reply id (.ok (.nonEmpty CodeAction.toJson actions))] }
  | .idleCommand => { server, sent := [.reply id (.ok .null)] }
  | .unsupported => { server, sent := [.reply id (.error .methodNotFound)] }

def refuse (server : Server) (id : Nat) (error : RequestError) : Outcome :=
  { server, sent := [.reply id (.error error)] }

/-- The error for a request that is made before the beginning or after the end. -/
def phaseError? (server : Server) : Option RequestError :=
  match server.phase with
  | .starting => some .notInitialized
  | .running => none
  | .stopped | .exited | .failed => some .invalidRequest

def receiveStart (server : Server) (id : Nat) (params : Option Json) : Outcome :=
  match server.phase, params.bind Request.start? with
  | .starting, some request => server.accept id request
  | .starting, none => server.refuse id .invalidParams
  | _, _ => server.refuse id .invalidRequest

def receiveShutdown (server : Server) (id : Nat) (params : Option Json) : Outcome :=
  match server.phaseError?, params with
  | some error, _ => server.refuse id error
  | none, none => server.accept id .shutdown
  | none, some _ => { server with phase := .stopped }.refuse id .invalidParams

/-- Receives a request for an unknown method. Those of the protocol itself may be passed over, and
are. -/
def receiveUnknown (server : Server) (id : Nat) (method : String) : Outcome :=
  if method.startsWith "$/" then { server } else server.refuse id .methodNotFound

def receiveOther (server : Server) (id : Nat) (method : String) (params : Option Json) : Outcome :=
  if method = Notification.cancelMethod then server.refuse id .invalidRequest
  else if Notification.isMethod method then
    server.refuse id (server.phaseError?.getD .invalidRequest)
  else
    match Request.reader? method with
    | none => server.receiveUnknown id method
    | some read =>
        match server.phaseError?, params.bind read with
        | some error, _ => server.refuse id error
        | none, some request => server.accept id request
        | none, none => server.refuse id .invalidParams

def receiveRequest (server : Server) (id : Nat) (method : String) (params : Option Json) :
    Outcome :=
  if method = "initialize" then server.receiveStart id params
  else if method = "shutdown" then server.receiveShutdown id params
  else server.receiveOther id method params

/-- Receives a notification. A request to end counts although nobody waits for the reply; other
requests do not. -/
def receiveNotification (server : Server) (method : String) (params : Option Json) : Outcome :=
  match server.phase with
  | .running =>
      if method = "shutdown" then { server := { server with phase := .stopped } }
      else
        match Notification.read? method params with
        | some notification => server.heed notification
        | none => { server }
  | _ => { server }

end Server

namespace Session

/-- Takes over what a message led to. -/
def absorb (session : Session) (outcome : Outcome) : Session :=
  { session with
    server := outcome.server
    tasks := session.tasks ++ outcome.tasks
    timers := session.timers ++ outcome.timers }

/-- Ends the server where a task cannot be gone on with. -/
def fail (session : Session) : Session :=
  { session with server := { session.server with phase := .failed } }

def advance (client : Client) (session : Session) (index : Nat) : Session × List Outgoing :=
  match session.tasks[index]? with
  | none => (session, [])
  | some task =>
      if task.fails client session.server then (session.fail, [])
      else
        let outcome := task.step client session.now session.server
        ({ session with tasks := session.tasks.eraseIdx index }.absorb outcome, outcome.sent)

/-- Starts the validation of the timer at a position, if it is due. -/
def wake (session : Session) (index : Nat) : Session :=
  match session.timers[index]? with
  | none => session
  | some timer =>
      if timer.due ≤ session.now then
        { session with
          tasks := session.tasks ++ [.inspect timer]
          timers := session.timers.eraseIdx index }
      else session

def settle (client : Client) (session : Session) : Session × List Outgoing :=
  match _pending : session.tasks with
  | [] => (session, [])
  | task :: rest =>
      if task.fails client session.server then (session.fail, [])
      else
        let outcome := task.step client session.now session.server
        let next := settle client
          { session with
            server := outcome.server
            tasks := outcome.tasks ++ rest
            timers := session.timers ++ outcome.timers }
        (next.1, outcome.sent ++ next.2)
termination_by Task.totalWeight session.server.documents.length session.tasks
decreasing_by
  obtain ⟨kept, less⟩ := Task.step_weight client session.now session.server task
  simp only [Task.totalWeight_append, Task.totalWeight_cons, kept, _pending]
  omega

/-- Takes over what a message led to, and finishes all tasks. -/
def handle (client : Client) (session : Session) (outcome : Outcome) : Session × List Outgoing :=
  let settled := settle client (session.absorb outcome)
  (settled.1, outcome.sent ++ settled.2)

/-- Ends the session: nothing that was begun goes on. -/
def exit (session : Session) : Session :=
  { session with
    server := { session.server with phase := .exited }
    tasks := []
    timers := [] }

/-- Handles a message, unless the session has ended or is ended by it. -/
def receive (client : Client) (session : Session) (method : String) (outcome : Outcome) :
    Session × List Outgoing :=
  if session.server.phase.isOver then (session, [])
  else if method = "exit" then (session.exit, [])
  else session.handle client outcome

def request (client : Client) (session : Session) (id : Nat) (method : String)
    (params : Option Json) : Session × List Outgoing :=
  session.receive client method (session.server.receiveRequest id method params)

def notify (client : Client) (session : Session) (method : String) (params : Option Json) :
    Session × List Outgoing :=
  session.receive client method (session.server.receiveNotification method params)

theorem request_of_isOver {session : Session} (hover : session.server.phase.isOver = true)
    (client : Client) (id : Nat) (method : String) (params : Option Json) :
    session.request client id method params = (session, []) := by
  simp [request, receive, hover]

theorem notify_of_isOver {session : Session} (hover : session.server.phase.isOver = true)
    (client : Client) (method : String) (params : Option Json) :
    session.notify client method params = (session, []) := by
  simp [notify, receive, hover]

/-- Begins validations that are due at the same time: all of them look at their documents before any
of them goes on. -/
def begin (client : Client) (session : Session) : List Timer → Session × List Outgoing
  | [] => (session, [])
  | timer :: rest =>
      let outcome := (Task.inspect timer).step client session.now session.server
      let others := begin client (session.absorb outcome) rest
      (others.1, outcome.sent ++ others.2)

/-- Performs validations, one group of them after the other, as long as the server is there. -/
def fire (client : Client) (session : Session) : List (List Timer) → Session × List Outgoing
  | [] => (session, [])
  | group :: rest =>
      if session.server.phase.isOver then (session, [])
      else
        let begun := session.begin client group
        let settled := begun.1.settle client
        let others := fire client settled.1 rest
        (others.1, begun.2 ++ settled.2 ++ others.2)

theorem fire_of_isOver {session : Session} (hover : session.server.phase.isOver = true)
    (client : Client) (groups : List (List Timer)) :
    session.fire client groups = (session, []) := by
  cases groups <;> simp [fire, hover]

/-- Lets time pass: validations are performed in the order in which they are due, those that are due
at the same time together. -/
def wait (client : Client) (session : Session) (ms : Nat) : Session × List Outgoing :=
  let now := session.now + ms
  let due := session.timers.filter fun timer => timer.due ≤ now
  let timers := session.timers.filter fun timer => now < timer.due
  let sorted := due.mergeSort fun a b => a.due ≤ b.due
  fire client { session with timers, now } (sorted.splitBy fun a b => a.due == b.due)

/-- A server that is gone sends nothing, however long one waits. -/
theorem wait_of_isOver {session : Session} (hover : session.server.phase.isOver = true)
    (client : Client) (ms : Nat) : (session.wait client ms).2 = [] := by
  rw [wait, fire_of_isOver]
  exact hover

end Session

end Dockerfile
