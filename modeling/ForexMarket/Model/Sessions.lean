import Mathlib.Logic.Function.Basic
import ForexMarket.Model.Session

/- The sessions of one server (`server.cpp`, `session.cpp`). Each has its own `data_`; the
   market and the database are one for all. Reads complete in any order and each is handled
   to its end, on whatever session it completes: nothing is kept about who sends on a
   session. An exception leaves `io_service.run`, and ends all sessions. -/
namespace ForexMarket

structure Sessions (δ : Type) where
  server : Server δ
  /-- `data_` of each session. -/
  data : Nat → Bytes
  running : Bool

namespace Sessions

variable {δ : Type}

/-- A completed read on a session, and the reply if there is one. -/
def step (db : Database δ) (s : Sessions δ) (read : Nat × Bytes) : Option Bytes × Sessions δ :=
  if s.running then
    match Session.handleRead db (s.data read.1) s.server read.2 with
    | .replied _ reply data server =>
      (some reply,
        { s with server := server, data := Function.update s.data read.1 data })
    | .threw _ _ server => (none, { s with server := server, running := false })
    | .rejected => (none, { s with running := false })
    | .undefined => (none, { s with running := false })
  else (none, s)

end Sessions

end ForexMarket
