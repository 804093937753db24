import ForexMarket.Lib.Json.Parser
import ForexMarket.Model.Serializer

/- A session of the server (`session.h`, `session.cpp`). A completed read is handed to
   `HandleRead`, which stores a NUL after the bytes, parses the whole array as one
   request, serves it and starts the write of the reply; when the write is complete
   the next read is started. An exception leaves `HandleRead` and then `run`, and with
   it the server. -/
namespace ForexMarket

namespace Session

/-- The size of `data_`. -/
def maxLength : Nat := 4096

section Serve

variable {δ : Type} (db : Database δ)

/-- A conversion or an access of the request, and what is done with its result. -/
def reading {α β : Type} (s : Server δ) (x : Except Json.Exception α)
    (f : α → Except Exception β × Server δ) : Except Exception β × Server δ :=
  match x with
  | .ok a => f a
  | .error e => (.error (.json e), s)

/-- A request that only reads the data of the user it names. -/
def serveUser (s : Server δ) (request : Json) (f : Market → Nat → Except Exception Bytes) :
    Except Exception Bytes × Server δ :=
  reading s ((request.index jsonField.userId).bind Json.getUInt64) fun userId =>
    (f s.market userId.toNat, s)

/-- A request with a user name and the hash of a password. -/
def serveAuth (s : Server δ) (request : Json)
    (f : Bytes → UInt64 → Except Exception Bytes × Server δ) :
    Except Exception Bytes × Server δ :=
  reading s ((request.index jsonField.username).bind Json.getString) fun username =>
    reading s ((request.index jsonField.pwHash).bind Json.getUInt64) fun pwHash =>
      f username pwHash

/-- A call on the market, and the reply to it. -/
def onMarket {α : Type} (s : Server δ) (r : Except Exception α × Market) :
    Except Exception α × Server δ :=
  (r.1, { s with market := r.2 })

def servePost (s : Server δ) (request : Json) : Except Exception Bytes × Server δ :=
  reading s (request.at' jsonField.offerSide) fun side =>
    -- every other side is a SELL
    let type : OfferType := if side.isString jsonField.buy then .BUY else .SELL
    reading s ((request.at' jsonField.userId).bind Json.getUInt64) fun userId =>
      reading s ((request.at' jsonField.price).bind Json.getInt) fun price =>
        reading s ((request.at' jsonField.amount).bind Json.getUInt64) fun amount =>
          match onMarket s (Serializer.postOffer s.market userId.toNat type price amount) with
          | (.ok (), s') => (.ok (text "\"Offer was posted.\""), s')
          | (.error e, s') => (.error e, s')

def serveCancel (s : Server δ) (request : Json) : Except Exception Bytes × Server δ :=
  reading s ((request.at' jsonField.userId).bind Json.getUInt64) fun userId =>
    reading s ((request.at' jsonField.offerId).bind Json.getUInt64) fun offerId =>
      onMarket s (Serializer.cancelOffer s.market userId.toNat offerId.toNat)

/-- The branches of `HandleRead` on the type of the request. -/
def serve (s : Server δ) (request : Json) : Except Exception Bytes × Server δ :=
  reading s (request.index jsonField.type) fun type =>
    if type.isString requests.registration then
      serveAuth s request (Serializer.registerUser db s)
    else if type.isString requests.login then
      serveAuth s request (Serializer.login db s)
    else if type.isString requests.balance then serveUser s request Serializer.getBalance
    else if type.isString requests.activeOffers then
      serveUser s request Serializer.getActiveOffers
    else if type.isString requests.closedDeals then serveUser s request Serializer.getClosedDeals
    else if type.isString requests.postOffer then servePost s request
    else if type.isString requests.quotes then onMarket s (Serializer.getQuotes s.market)
    else if type.isString requests.cancel then serveCancel s request
    else (.ok (text "\"ERROR: Unknown request type\""), s)

/-! Reading. -/

/-- What `HandleRead` does with a completed read. -/
inductive Outcome (δ : Type) where
  /-- The NUL is stored outside `data_`. -/
  | undefined
  /-- `parse` throws. -/
  | rejected
  /-- Serving the request throws. -/
  | threw (request : Json) (e : Exception) (s : Server δ)
  | replied (request : Json) (reply : Bytes) (data : Bytes) (s : Server δ)

namespace Outcome

/-- The request that was served. -/
def request : Outcome δ → Option Json
  | undefined | rejected => none
  | threw request _ _ | replied request _ _ _ => some request

end Outcome

/-- `HandleRead` without an error: `data` is the array before the read, and the bytes read are at
its front after it. -/
def handleRead (data : Bytes) (s : Server δ) (bytes : Bytes) : Outcome δ :=
  if bytes.length < maxLength then
    let data := bytes ++ 0x00 :: data.drop (bytes.length + 1)
    match Json.parse data with
    | none => .rejected
    | some request =>
      match serve db s request with
      | (.ok reply, s') => .replied request reply data s'
      | (.error e, s') => .threw request e s'
  else .undefined

/-- The completed reads of a session, each with what `HandleRead` does with it. Nothing is read
after an exception. -/
def run (data : Bytes) (s : Server δ) : List Bytes → List (Bytes × Outcome δ)
  | [] => []
  | bytes :: reads =>
    match handleRead db data s bytes with
    | .replied request reply data' s' =>
      (bytes, .replied request reply data' s') :: run data' s' reads
    | outcome => [(bytes, outcome)]

/-- The requests that were parsed and served, in order. -/
def executed (trace : List (Bytes × Outcome δ)) : List Json := trace.filterMap fun e => e.2.request

/-- The places the NUL was stored at. -/
def terminators (trace : List (Bytes × Outcome δ)) : List Nat := trace.map fun e => e.1.length

end Serve

end Session

end ForexMarket
