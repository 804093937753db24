import ForexMarket.Model.Sessions
import ForexMarket.Model.Terminal

/- The server and its clients, each connected by a session of its own. A request reaches the
   server in one read of the session, which has room for `max_length` bytes, and the
   reply has then arrived at the client. Clients send and read in any order; the ways a connection
   may cut a message are left to the messages on one connection. -/
namespace ForexMarket

structure Exchange (δ : Type) where
  sessions : Sessions δ
  terminal : Nat → Terminal
  /-- The bytes that have arrived at each client. -/
  inbox : Nat → Bytes

/-- Which client goes on: it runs up to its next request and sends it, or it reads what has
arrived, as much as its `read_some` gets to see. -/
inductive Turn where
  | send (k : Nat)
  | receive (k more : Nat)
  deriving DecidableEq, Repr

/-- The client whose turn it is. -/
def Turn.client : Turn → Nat
  | send k | receive k _ => k

namespace Exchange

variable {δ : Type}

/-- The programs are started, and nothing has been sent. -/
def start (server : Server δ) (data input : Nat → Bytes) : Exchange δ :=
  { sessions := { server := server, data := data, running := true }
    terminal := fun k => .start (input k), inbox := fun _ => [] }

/-- One turn, and the text of the request that is sent if one is. -/
def step (db : Database δ) (hash : Bytes → UInt64) (x : Exchange δ) :
    Turn → Option Bytes × Exchange δ
  | .send k =>
    match (x.terminal k).send hash with
    | (none, c) => (none, { x with terminal := Function.update x.terminal k c })
    | (some bytes, c) =>
      let r := x.sessions.step db (k, bytes.take Session.maxLength)
      (some bytes,
        { sessions := r.2
          terminal := Function.update x.terminal k c
          inbox := Function.update x.inbox k (x.inbox k ++ r.1.getD []) })
  | .receive k more =>
    if x.inbox k = [] then
      -- the read waits for the server as long as there is one
      if x.sessions.running then (none, x)
      else
        (none, { x with terminal := Function.update x.terminal k (x.terminal k).disconnect })
    else
      let r := (x.terminal k).receive (x.inbox k) more
      (none,
        { x with
          terminal := Function.update x.terminal k r.1
          inbox := Function.update x.inbox k r.2 })

end Exchange

end ForexMarket
