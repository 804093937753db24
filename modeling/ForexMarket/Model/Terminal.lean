import ForexMarket.Model.Printing

/- The client program (`client.cpp`, `request_handler.cpp`). Between two exchanges with the
   server it reads from the terminal until it can write a request; then it waits for the
   response and prints it. What will be typed is there from the start. Where the loop of
   `SafeIntInput` does not end the program asks for ever. -/
namespace ForexMarket

namespace Client

/-- `SafeIntInput`: a round that does not end it takes something from the input, so there are no
more rounds than there are characters. -/
def intInput (predicate : Int → Bool) (cin : Istream) : Option (Int × Istream) :=
  safeIntInput predicate cin.rest.length cin 0

/-- `GetAuthInfo`. -/
def getAuthInfo (cin : Istream) : (Bytes × Bytes) × Istream :=
  let (cin, username) := cin.extractWord []
  let (cin, password) := cin.extractWord []
  ((username, password), cin)

/-- `ProcessAuthentication` up to the request that is written; `hash` is `std::hash`. -/
def processAuthentication (hash : Bytes → UInt64) (cin : Istream) :
    Option (ClientRequest × Istream) := do
  let (option, cin) ← intInput (fun var => var = 1 ∨ var = 2) cin
  let (authInfo, cin) := getAuthInfo cin
  if option = 1 then return (.register authInfo.1 (hash authInfo.2), cin)
  else return (.login authInfo.1 (hash authInfo.2), cin)

/-- `PostOfferRequest::GatherPrerequisites`, and the request it is for. -/
def postOfferRequest (userId : UInt64) (cin : Istream) : Option (ClientRequest × Istream) := do
  let (offerSide, cin) ← intInput (fun var => var = 1 ∨ var = 2) cin
  let (amount, cin) ← intInput (fun amount => 0 < amount) cin
  let (price, cin) ← intInput (fun _ => true) cin
  return (.postOffer userId offerSide amount price, cin)

/-- `CancleOfferRequest::GatherPrerequisites`, and the request it is for. -/
def cancleOfferRequest (userId : UInt64) (cin : Istream) : Option (ClientRequest × Istream) := do
  let (offerId, cin) ← intInput (fun var => 0 ≤ var) cin
  return (.cancelOffer userId offerId, cin)

/-- The request the handler of a type sends. -/
def sendRequest (type : RequestType) (userId : UInt64) (cin : Istream) :
    Option (ClientRequest × Istream) :=
  match type with
  | .postOffer => postOfferRequest userId cin
  | .cancelOffer => cancleOfferRequest userId cin
  | type => some (.idOnly type.name userId, cin)

/-- A turn of the loop of `Poll` up to the request that is written; there is none when the session
is ended. -/
def poll (userId : UInt64) (cin : Istream) :
    Option (Option (RequestType × ClientRequest) × Istream) := do
  let (option, cin) ← intInput (fun var => 1 ≤ var ∧ var ≤ 7) cin
  match RequestType.ofOption option with
  | none => return (none, cin)
  | some type =>
    let (request, cin) ← sendRequest type userId cin
    return (some (type, request), cin)

end Client

/-- What a client program does next. -/
inductive Phase where
  | authentication
  /-- It waits for the response to a registration or a login. -/
  | authResponse (request : ClientRequest)
  | poll (userId : UInt64)
  /-- It waits for the response to a request of the menu. -/
  | response (type : RequestType) (userId : UInt64)
  | ended
  /-- No line that is left is accepted. -/
  | asking
  /-- An exception has left the constructor of `Client`. -/
  | threw
  deriving DecidableEq, Repr

/-- A client program, the input it is given and what it has printed of the responses. -/
structure Terminal where
  cin : Istream
  phase : Phase
  cout : List Bytes

namespace Terminal

/-- The start of the program. -/
def start (input : Bytes) : Terminal :=
  { cin := .of input, phase := .authentication, cout := [] }

/-- The program runs until it has made a request, or to where it goes no further. -/
def prepare (hash : Bytes → UInt64) (c : Terminal) : Option ClientRequest × Terminal :=
  match c.phase with
  | .authentication =>
    match Client.processAuthentication hash c.cin with
    | none => (none, { c with phase := .asking })
    | some (request, cin) => (some request, { c with cin := cin, phase := .authResponse request })
  | .poll userId =>
    match Client.poll userId c.cin with
    | none => (none, { c with phase := .asking })
    | some (none, cin) => (none, { c with cin := cin, phase := .ended })
    | some (some (type, request), cin) =>
      (some request, { c with cin := cin, phase := .response type userId })
  | _ => (none, c)

/-- The text the program writes to the connection; `dump` throws where a name is not UTF-8. -/
def send (hash : Bytes → UInt64) (c : Terminal) : Option Bytes × Terminal :=
  match c.prepare hash with
  | (none, c') => (none, c')
  | (some request, c') =>
    match request.toJson.dump with
    | some bytes => (some bytes, c')
    | none => (none, { c' with phase := .threw })

def refusal : ClientRequest → Bytes
  | .register .. => text "User with this username already exist. Try again.\n"
  | _ => text "Wrong username or password. Try again.\n"

/-- The program reads from the bytes that have arrived, and what it leaves of them. -/
def receive (c : Terminal) (pending : Bytes) (more : Nat) : Terminal × Bytes :=
  match c.phase with
  | .authResponse request =>
    match Client.readAuthResponse pending more with
    | (.ok (some userId), rest) => ({ c with phase := .poll userId }, rest)
    | (.ok none, rest) =>
      ({ c with phase := .authentication, cout := c.cout ++ [refusal request] }, rest)
    | (.error _, rest) => ({ c with phase := .threw }, rest)
  | .response type userId =>
    match Client.readResponse pending more with
    | (.error _, rest) => ({ c with phase := .threw }, rest)
    | (.ok response, rest) =>
      match Client.printResult type response with
      | .ok shown => ({ c with phase := .poll userId, cout := c.cout ++ [shown] }, rest)
      | .error _ => ({ c with phase := .threw }, rest)
  | _ => (c, pending)

/-- The connection has been closed: a read throws. -/
def disconnect (c : Terminal) : Terminal :=
  match c.phase with
  | .authResponse _ | .response _ _ => { c with phase := .threw }
  | _ => c

end Terminal

end ForexMarket
