import ForexMarket.Lib.Istream
import ForexMarket.Model.Session

/- The client (`client.cpp`, `request_handler.cpp`) and its exchanges with a server. It
   writes the text of a request, then reads the reply with `read_until` and the
   delimiter `"\0"`. As a C string that is the empty text, which is found as soon as
   there is anything in the buffer, so one `read_some` is made: it takes some of the
   bytes that have arrived, and a fresh `streambuf` gives it room for 512. -/
namespace ForexMarket

/-- What the client asks for. -/
inductive ClientRequest where
  | register (username : Bytes) (pwHash : UInt64)
  | login (username : Bytes) (pwHash : UInt64)
  /-- The requests of `IdOnlyRequestHandler`. -/
  | idOnly (type : Bytes) (userId : UInt64)
  | postOffer (userId : UInt64) (offerSide amount price : Int)
  | cancelOffer (userId : UInt64) (offerId : Int)
  deriving DecidableEq, Repr

namespace ClientRequest

open Json (ofMembers ofInt ofUInt64)

def authObject (type username : Bytes) (pwHash : UInt64) : Json :=
  ofMembers [(jsonField.type, .string type), (jsonField.username, .string username),
    (jsonField.pwHash, ofUInt64 pwHash)]

/-- The object that is sent. -/
def toJson : ClientRequest → Json
  | register username pwHash => authObject requests.registration username pwHash
  | login username pwHash => authObject requests.login username pwHash
  | idOnly type userId =>
    ofMembers [(jsonField.type, .string type), (jsonField.userId, ofUInt64 userId)]
  | postOffer userId offerSide amount price =>
    ofMembers [(jsonField.type, .string requests.postOffer), (jsonField.userId, ofUInt64 userId),
      (jsonField.offerSide, .string (if offerSide = 1 then jsonField.buy else jsonField.sell)),
      (jsonField.amount, ofInt amount), (jsonField.price, ofInt price)]
  | cancelOffer userId offerId =>
    ofMembers [(jsonField.type, .string requests.cancel), (jsonField.userId, ofUInt64 userId),
      (jsonField.offerId, ofInt offerId)]

/-- The requests whose reply is read by `ReadAuthResponse`. -/
def isAuth : ClientRequest → Bool
  | register .. | login .. => true
  | _ => false

end ClientRequest

namespace Client

/-- The room of a `streambuf` for its first `read_some`. -/
def readLimit : Nat := 512

/-- The bytes `read_until` takes from those that are pending, and those it leaves. The transport
decides how much of them `read_some` gets to see, at least one byte. -/
def readUntil (pending : Bytes) (more : Nat) : Bytes × Bytes :=
  (pending.take (min (more + 1) readLimit), pending.drop (min (more + 1) readLimit))

/-- `ReadResponse`: all that was read is parsed. -/
def readResponse (pending : Bytes) (more : Nat) : Except Json.Exception Json × Bytes :=
  let (line, rest) := readUntil pending more
  match Json.parse line with
  | some response => (.ok response, rest)
  | none => (.error .parseError, rest)

/-- The id in the reply to a registration or a login. -/
def authResult (response : Json) : Except Json.Exception (Option UInt64) :=
  match (response.at' jsonField.success).bind Json.getBool with
  | .ok true => ((response.at' jsonField.userId).bind Json.getUInt64).map some
  | .ok false => .ok none
  | .error e => .error e

/-- `ReadAuthResponse`: what `ReadResponse` parses, and the id in it. -/
def readAuthResponse (pending : Bytes) (more : Nat) :
    Except Json.Exception (Option UInt64) × Bytes :=
  match readResponse pending more with
  | (.ok response, rest) => (authResult response, rest)
  | (.error e, rest) => (.error e, rest)

/-- Whether the client goes on after a response. -/
def goesOn (request : ClientRequest) (response : Json) : Bool :=
  !request.isAuth || (authResult response).isOk

/-- What has gone over the connection: the replies the server sent, the responses the client
parsed, and the bytes that are still to be read. -/
structure Talk where
  sent : List Bytes
  responses : List Json
  pending : Bytes

/-- What comes of a request that the client sends: the reply, and `data_` and the server after it.
There is none when `dump` throws on the client, which sends nothing then, and when handling the
request ends the server. -/
def exchange {δ : Type} (db : Database δ) (data : Bytes) (s : Server δ) (request : ClientRequest) :
    Option (Bytes × Bytes × Server δ) :=
  match request.toJson.dump with
  | none => none
  | some text =>
    match Session.handleRead db data s text with
    | .replied _ reply data' s' => some (reply, data', s')
    | .threw _ _ _ | .rejected | .undefined => none

/-- A list of requests, each with how much of what has arrived its `read_some` gets to see. The
server reads a request whole when it is sent; the next one is sent when the response to it has been
parsed. An exception ends the side it is thrown on. -/
def talk {δ : Type} (db : Database δ) (pending data : Bytes) (s : Server δ) :
    List (ClientRequest × Nat) → Talk
  | [] => { sent := [], responses := [], pending := pending }
  | (request, more) :: exchanges =>
    match exchange db data s request with
    | none => { sent := [], responses := [], pending := pending }
    | some (reply, data', s') =>
      match readResponse (pending ++ reply) more with
      | (.error _, rest) => { sent := [reply], responses := [], pending := rest }
      | (.ok response, rest) =>
        if goesOn request response then
          let t := talk db rest data' s' exchanges
          { t with sent := reply :: t.sent, responses := response :: t.responses }
        else { sent := [reply], responses := [response], pending := rest }

/-! Input from the terminal (`client.h`). -/

/-- `SafeIntInput` with as many rounds as the fuel allows: the value that was read into `var`, and
the stream, where it ends. The prompts are written to a stream that stays good. -/
def safeIntInput (predicate : Int → Bool) : Nat → Istream → Int → Option (Int × Istream)
  | 0, _, _ => none
  | fuel + 1, cin, var =>
    match cin.extract (-2 ^ 31) (2 ^ 31 - 1) var with
    | (cin, var) =>
      if cin.failbit || !predicate var then safeIntInput predicate fuel cin.clear.ignoreLine var
      else some (var, cin)

end Client

end ForexMarket
