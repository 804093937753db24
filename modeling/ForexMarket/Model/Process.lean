import ForexMarket.Model.Client
import ForexMarket.Model.Ids

/- The server program over one database (`server_main.cpp`). A run starts with an empty
   market, whose counter of user ids `GetMaxId` sets from the table, and serves requests
   until one of them throws or the program is stopped; the next run finds the table as
   this one left it. Of a run are kept the rows it found, and the ids its replies report. -/
namespace ForexMarket

/-- A row of the `User` table: id, name and hash. -/
abbrev UserRow := UInt64 × Bytes × UInt64

/-- Whether a response is to a registration or a login. -/
def isAuthResponse (response : Json) : Bool :=
  match response.at' jsonField.type with
  | .ok type => type.isString requests.regConfirmation || type.isString requests.login
  | .error _ => false

/-- The user id a response reports with success. -/
def reportedIn (response : Json) : Option UInt64 :=
  if isAuthResponse response then
    match Client.authResult response with
    | .ok userId => userId
    | .error _ => none
  else none

/-- The user id the text of a reply reports with success. -/
def reportedId (reply : Bytes) : Option UInt64 := (Json.parse reply).bind reportedIn

structure Process (δ : Type) where
  server : Server δ
  running : Bool
  /-- The rows there were when the run started. -/
  found : List UserRow
  /-- The user ids the replies of the run have reported. -/
  granted : List UInt64

inductive Event where
  /-- A run starts; the tables of offers and deals set the other counters. -/
  | start (offerId dealId : Nat)
  | request (request : Json)

namespace Process

section Step

variable {δ : Type} (db : Database δ) (rows : δ → List UserRow)

/-- No run yet. -/
def idle (table : δ) : Process δ :=
  { server := { market := Market.empty 0 0 0, db := table }, running := false, found := [],
    granted := [] }

/-- What a run of the program does with an event, and the reply if there is one. -/
def step (p : Process δ) : Event → Option Bytes × Process δ
  | .start offerId dealId =>
    match getMaxId ((rows p.server.db).map fun row => row.1.toNat) with
    | .ok userId =>
      (none,
        { server := { market := Market.empty offerId dealId userId, db := p.server.db },
          running := true, found := rows p.server.db, granted := [] })
    -- the program ends before `main`
    | .error _ => (none, { p with running := false })
  | .request request =>
    if p.running then
      match Session.serve db p.server request with
      | (.ok reply, s) =>
        (some reply, { p with server := s, granted := (reportedId reply).toList ++ p.granted })
      -- the exception leaves `io_service.run`
      | (.error _, s) => (none, { p with server := s, running := false })
    else (none, p)

end Step

end Process

end ForexMarket
