import ForexMarket.Model.Sessions

/- The objects of the sessions (`server.cpp`, `session.cpp`, `server_main.cpp`).
   `io_service` holds the operations that were started, each with the session its handler
   is bound to, and calls a handler once, when its operation completes; `run` returns when
   it holds none. A session is made for the connection to be accepted next and deletes
   itself in the handler that gets an error. The reply is a local string of `HandleRead`:
   what the socket does not take of it at once is sent from there when the string is no
   more. What C++ does not check is recorded: a handler called on a session that was
   deleted, a session deleted twice, a send from a string that is no more. -/
namespace ForexMarket

/-- The handler of an operation. -/
inductive Handler where
  | handleAccept
  | handleRead
  | handleWrite
  deriving DecidableEq, Repr

/-- What `io_service.run` goes on with: an operation that completed on a session, with or without
an error, a further send of a write that is not complete, or the signal that stops it. -/
inductive Completion where
  | accept (k : Nat) (error : Bool)
  /-- The bytes that were read, none with an error, and how many bytes of a reply the socket
  takes while the handler runs. -/
  | read (k : Nat) (bytes : Option Bytes) (taken : Nat)
  /-- The bytes that are found where the reply was. -/
  | send (k : Nat) (bytes : Bytes)
  | write (k : Nat) (error : Bool)
  | interrupt
  deriving DecidableEq, Repr

namespace Completion

/-- The handler that is called, and the session it is bound to. -/
def call : Completion → Option (Handler × Nat)
  | accept k _ => some (.handleAccept, k)
  | read k _ _ => some (.handleRead, k)
  | write k _ => some (.handleWrite, k)
  -- `async_write` goes on by itself
  | send _ _ | interrupt => none

/-- What the handler is told. -/
def error : Completion → Bool
  | accept _ error | write _ error => error
  | read _ bytes _ => bytes.isNone
  | send _ _ | interrupt => false

/-- What was read, with the session it is for. -/
def reads : Completion → List (Nat × Bytes)
  | read k bytes _ => bytes.toList.map fun bytes => (k, bytes)
  | accept _ _ | send _ _ | write _ _ | interrupt => []

end Completion

structure Connections (δ : Type) where
  sessions : Sessions δ
  /-- The sessions made so far; the next one gets this number. -/
  made : Nat
  /-- The sessions that are not deleted. -/
  objects : List Nat
  /-- The operations that are to complete. -/
  pending : List (Handler × Nat)
  /-- How many bytes of its last reply each session has not sent. -/
  unsent : Nat → Nat
  /-- A session was used or deleted when it was no more. -/
  dangling : Bool
  /-- Bytes of a reply were sent when it was no more. -/
  stale : Bool

namespace Connections

variable {δ : Type}

/-- Starts an operation on a session. -/
def async (c : Connections δ) (h : Handler) (k : Nat) : Connections δ :=
  { c with pending := (h, k) :: c.pending }

/-- `async_write`, when the first send has taken this much. -/
def asyncWrite (c : Connections δ) (k : Nat) (reply : Bytes) (taken : Nat) : Connections δ :=
  { c with unsent := Function.update c.unsent k (reply.length - taken) }.async .handleWrite k

/-- `new Session`, and the accept that is started on it. -/
def accept (c : Connections δ) : Connections δ :=
  { c with
    made := c.made + 1
    objects := c.made :: c.objects
    pending := (.handleAccept, c.made) :: c.pending }

/-- A handler reaches the members of its session. -/
def use (c : Connections δ) (k : Nat) : Connections δ :=
  { c with dangling := c.dangling || !c.objects.contains k }

/-- `delete this`. -/
def delete (c : Connections δ) (k : Nat) : Connections δ :=
  { c.use k with objects := c.objects.erase k }

/-- The constructor of `Server`. -/
def listen (server : Server δ) (data : Nat → Bytes) : Connections δ :=
  accept
    { sessions := { server := server, data := data, running := true }, made := 0, objects := [],
      pending := [], unsent := fun _ => 0, dangling := false, stale := false }

def handleAccept (c : Connections δ) (k : Nat) (error : Bool) : Connections δ :=
  -- after an error nothing is accepted any more
  if error then c.delete k else ((c.use k).async .handleRead k).accept

def handleWrite (c : Connections δ) (k : Nat) (error : Bool) : Connections δ :=
  if error then c.delete k else (c.use k).async .handleRead k

/-- The rest of a reply is read from where the string was. -/
def sendRest (c : Connections δ) (k : Nat) (bytes : Bytes) : Connections δ :=
  { c with
    unsent := Function.update c.unsent k (c.unsent k - bytes.length)
    stale := c.stale || !bytes.isEmpty }

section Step

variable (db : Database δ)

/-- What is sent of the reply at once, with the session it goes to. -/
def handleRead (c : Connections δ) (k : Nat) (taken : Nat) :
    Option Bytes → Option (Nat × Bytes) × Connections δ
  | none => (none, c.delete k)
  | some bytes =>
    let c' := { c.use k with sessions := (c.sessions.step db (k, bytes)).2 }
    match (c.sessions.step db (k, bytes)).1 with
    | some reply => (some (k, reply.take taken), c'.asyncWrite k reply taken)
    -- the exception leaves `run`
    | none => (none, c')

/-- The operation has come this far: no more is sent than is left of the reply, and a write is
complete when all of it is sent. -/
def due (c : Connections δ) : Completion → Bool
  | .send k bytes => c.pending.contains (.handleWrite, k) && decide (bytes.length ≤ c.unsent k)
  | .write k error => error || c.unsent k == 0
  | .accept _ _ | .read _ _ _ | .interrupt => true

/-- The program goes on with this completion: it is running, and the operation was started. -/
def takesPlace (c : Connections δ) (e : Completion) : Bool :=
  c.sessions.running && e.call.all c.pending.contains && c.due e

/-- The handler of a completion, which `io_service` no longer holds. -/
def handle (c : Connections δ) : Completion → Option (Nat × Bytes) × Connections δ
  | .accept k error =>
    (none, handleAccept { c with pending := c.pending.erase (.handleAccept, k) } k error)
  | .read k bytes taken =>
    handleRead db { c with pending := c.pending.erase (.handleRead, k) } k taken bytes
  | .send k bytes => (some (k, bytes), c.sendRest k bytes)
  | .write k error =>
    (none, handleWrite { c with pending := c.pending.erase (.handleWrite, k) } k error)
  | .interrupt => (none, { c with sessions := { c.sessions with running := false } })

/-- `run` returns when no operation is to complete, and `main` with it. -/
def proceed (c : Connections δ) : Connections δ :=
  { c with sessions := { c.sessions with running := c.sessions.running && !c.pending.isEmpty } }

/-- One turn of `io_service.run`, and what it sends if it sends something. -/
def step (c : Connections δ) (e : Completion) : Option (Nat × Bytes) × Connections δ :=
  if c.takesPlace e then ((c.handle db e).1, (c.handle db e).2.proceed) else (none, c)

/-! What is seen of a run. -/

/-- The read a turn hands to a session. -/
def readIn (c : Connections δ) (e : Completion) : List (Nat × Bytes) :=
  if c.takesPlace e then e.reads else []

/-- The reads handed to the sessions in a run, in order. -/
def readsOf (c : Connections δ) (es : List Completion) : List (Nat × Bytes) :=
  Machine.gather (step db) readIn c es

/-- What a turn sends on a session. -/
def sentOn (k : Nat) (c : Connections δ) (e : Completion) : Bytes :=
  (c.step db e).1.elim [] fun p => if p.1 = k then p.2 else []

/-- The bytes sent on a session in a run, in order. -/
def received (k : Nat) (c : Connections δ) (es : List Completion) : Bytes :=
  Machine.gather (step db) (sentOn db k) c es

/-- The handler called on a session by a completion, and whether it is told of an error. -/
def callOn (k : Nat) (c : Connections δ) (e : Completion) : List (Handler × Bool) :=
  if c.takesPlace e then
    (e.call.filter fun p => p.2 = k).toList.map fun p => (p.1, e.error)
  else []

/-- The handlers called on a session in a run, in order. -/
def callsOn (k : Nat) (c : Connections δ) (es : List Completion) : List (Handler × Bool) :=
  Machine.gather (step db) (callOn k) c es

/-- A connection is accepted. -/
def accepts (c : Connections δ) (e : Completion) : Bool :=
  c.takesPlace e && !e.error && e.call.any fun p => p.1 = .handleAccept

/-- An operation fails. -/
def fails (c : Connections δ) (e : Completion) : Bool := c.takesPlace e && e.error

/-- How many connections were accepted in a run. -/
def accepted (c : Connections δ) (es : List Completion) : Nat :=
  Machine.total (step db) (fun c e => (c.accepts e).toNat) c es

/-- How many operations failed in a run. -/
def failed (c : Connections δ) (es : List Completion) : Nat :=
  Machine.total (step db) (fun c e => (c.fails e).toNat) c es

end Step

end Connections

/-- The replies to the reads on a session, one behind the other. -/
def Sessions.repliesTo {δ : Type} (db : Database δ) (k : Nat) (s : Sessions δ)
    (reads : List (Nat × Bytes)) : Bytes :=
  Machine.gather (Sessions.step db)
    (fun s read => if read.1 = k then (s.step db read).1.getD [] else []) s reads

end ForexMarket
