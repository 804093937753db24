import ForexMarket.Lib.Json.Access
import ForexMarket.Model.System

/- The replies of the server (`serializer.cpp`), with the names of requests and fields
   (`common.h`). A reply is the text of a JSON object. What the database answers is a
   parameter: the `User` table holds what `AddUser` put into it, and the two selections
   read it. A selection leaves a table as well, since a name with a quote in it can bring
   statements of its own. The `Offer` and `Deal` tables are written and never read here. -/
namespace ForexMarket

/-! Request types. -/

namespace requests

def registration : Bytes := text "Reg"
def balance : Bytes := text "Balance"
def activeOffers : Bytes := text "Active"
def closedDeals : Bytes := text "Deal"
def regConfirmation : Bytes := text "RegConf"
def postOffer : Bytes := text "PostOffer"
def quotes : Bytes := text "Quotes"
def cancel : Bytes := text "Cancel"
def login : Bytes := text "Log"

end requests

/-! Fields of the JSON objects. -/

namespace jsonField

def type : Bytes := text "TYPE"
def userId : Bytes := text "USER_ID"
def offerId : Bytes := text "OFFER_ID"
def buy : Bytes := text "BUY"
def sell : Bytes := text "SELL"
def buySell : Bytes := text "BUY-SELL"
def price : Bytes := text "PRICE"
def amount : Bytes := text "AMOUNT"
def success : Bytes := text "SUCCESS"
def usd : Bytes := text "USD"
def rub : Bytes := text "RUB"
def username : Bytes := text "USERNAME"
def offerSide : Bytes := text "OFFER_SIDE"
def quote : Bytes := text "QUOTE"
def askQuote : Bytes := text "ASK_QUOTE"
def bidQuote : Bytes := text "BID_QUOTE"
def spread : Bytes := text "SPREAD"
def pwHash : Bytes := text "PW_HASH"

end jsonField

/-- How serving a request can end other than by a reply. -/
inductive Exception where
  | json (e : Json.Exception)
  | market (f : Fault)
  /-- `stoi` does not read what the callback of a query gets. -/
  | stoi
  deriving DecidableEq, Repr

/-- The queries on the `User` table. The callbacks of the two selections call `stoi`. -/
structure Database (δ : Type) where
  usernameExist : δ → Bytes → Except Exception Bool × δ
  addUser : δ → UInt64 → Bytes → UInt64 → δ
  getUserId : δ → Bytes → UInt64 → Except Exception (Option UInt64) × δ

/-- `GetUserIdCallback`: the text of an id is read by `stoi`. -/
def userIdOf (id : UInt64) : Except Exception UInt64 :=
  if id.toNat < 2 ^ 31 then .ok id else .error .stoi

/-- A `User` table as the list of its rows. -/
def userTable : Database (List (UInt64 × Bytes × UInt64)) where
  usernameExist rows username := (.ok (rows.any fun row => row.2.1 = username), rows)
  addUser rows userId username pwHash := rows ++ [(userId, username, pwHash)]
  getUserId rows username pwHash :=
    match rows.find? fun row => row.2 = (username, pwHash) with
    | none => (.ok none, rows)
    | some row => ((userIdOf row.1).map some, rows)

/-- The market of the server and its database. -/
structure Server (δ : Type) where
  market : Market
  db : δ

/-- A `std::string` as the name of a user. -/
def nameOf (s : Bytes) : String := String.ofList (s.map fun b => Char.ofNat b.toNat)

/-- `dump()` of a reply. -/
def replyOf (v : Json) : Except Exception Bytes := v.dumped.mapError .json

/-- A number that may be missing. -/
def nullable : Option Int → Json
  | some n => .ofInt n
  | none => .null

/-- A user id that may be missing. -/
def nullableId : Option UInt64 → Json
  | some n => .ofUInt64 n
  | none => .null

namespace Serializer

open Json (ofMembers ofInt ofUInt64)

section Users

variable {δ : Type} (db : Database δ)

/-- The reply of a registration or a login. -/
def authReply (type : Bytes) (userId : Option UInt64) : Json :=
  ofMembers [(jsonField.type, .string type), (jsonField.success, .bool userId.isSome),
    (jsonField.userId, nullableId userId)]

/-- `RegisterUser`: the constructor of `UserData` stores the row of the new user. -/
def registerUser (s : Server δ) (username : Bytes) (pwHash : UInt64) :
    Except Exception Bytes × Server δ :=
  match db.usernameExist s.db username with
  -- no user was made yet
  | (.error e, table) => (.error e, { s with db := table })
  | (.ok exist, table) =>
    let (userId, market) := s.market.registerUser (nameOf username) exist
    -- the counter is a `uint64_t`
    let userId := userId.map UInt64.ofNat
    let table :=
      match userId with
      | some id => db.addUser table id username pwHash
      | none => table
    (replyOf (authReply requests.regConfirmation userId), { market := market, db := table })

def login (s : Server δ) (username : Bytes) (pwHash : UInt64) :
    Except Exception Bytes × Server δ :=
  match db.getUserId s.db username pwHash with
  | (.error e, table) => (.error e, { s with db := table })
  | (.ok userId, table) => (replyOf (authReply requests.login userId), { s with db := table })

end Users

/-- An offer in the list of active offers. -/
def offerObject (o : OfferView) : Json :=
  ofMembers [(jsonField.offerId, ofUInt64 (.ofNat o.id)), (jsonField.price, ofInt o.price),
    (jsonField.amount, ofUInt64 (.ofNat o.amount))]

/-- A deal in the lists of closed deals. -/
def dealObject (d : DealView) : Json :=
  ofMembers [(jsonField.price, ofInt d.price), (jsonField.amount, ofUInt64 (.ofNat d.amount))]

def activeOffersReply (offers : List OfferView) : Json :=
  ofMembers [(jsonField.type, .string requests.activeOffers),
    (jsonField.buy, .array ((offers.filter fun o => o.type = .BUY).map offerObject)),
    (jsonField.sell, .array ((offers.filter fun o => o.type = .SELL).map offerObject))]

def closedDealsReply (userId : Nat) (deals : List DealView) : Json :=
  ofMembers [(jsonField.type, .string requests.closedDeals),
    (jsonField.buy, .array ((deals.filter fun d =>
      d.buyerId ≠ d.sellerId ∧ d.buyerId = userId).map dealObject)),
    (jsonField.sell, .array ((deals.filter fun d =>
      d.buyerId ≠ d.sellerId ∧ d.buyerId ≠ userId).map dealObject)),
    (jsonField.buySell, .array ((deals.filter fun d => d.buyerId = d.sellerId).map dealObject))]

def balanceReply (b : Balance) : Json :=
  ofMembers [(jsonField.type, .string requests.balance), (jsonField.usd, ofInt b.usd),
    (jsonField.rub, ofInt b.rub)]

def quotesReply (quote : Option Int) (q : AskBidQuotesInfo) : Json :=
  ofMembers [(jsonField.type, .string requests.quotes), (jsonField.quote, nullable quote),
    (jsonField.askQuote, nullable q.askQuote), (jsonField.bidQuote, nullable q.bidQuote),
    (jsonField.spread, nullable q.spread)]

def cancelReply (deleted : Bool) : Json :=
  ofMembers [(jsonField.type, .string requests.cancel), (jsonField.success, .bool deleted)]

/-- The data of a user read through `at`, and the reply made of it. -/
def readUser (s : Market) (userId : Nat) (reply : UserData → Json) : Except Exception Bytes :=
  match s.users.find? userId with
  | none => .error (.market .outOfRange)
  | some d => replyOf (reply d)

def getActiveOffers (s : Market) (userId : Nat) : Except Exception Bytes :=
  readUser s userId fun d => activeOffersReply (s.activeViews d)

def getClosedDeals (s : Market) (userId : Nat) : Except Exception Bytes :=
  readUser s userId fun d => closedDealsReply userId (d.closedDeals.elems.map Deal.view)

def getBalance (s : Market) (userId : Nat) : Except Exception Bytes :=
  readUser s userId fun d => balanceReply d.balance

def getQuotes (s : Market) : Except Exception Bytes × Market :=
  match s.getAskBidQuotes with
  | (.ok q, s') => (replyOf (quotesReply s.quote q), s')
  | (.error f, s') => (.error (.market f), s')

def postOffer (s : Market) (userId : Nat) (type : OfferType) (price : Int) (amount : UInt64) :
    Except Exception Unit × Market :=
  match s.postOffer userId type price amount with
  | (.ok _, s') => (.ok (), s')
  | (.error f, s') => (.error (.market f), s')

def cancelOffer (s : Market) (userId offerId : Nat) : Except Exception Bytes × Market :=
  match s.removeActiveOffer userId offerId with
  | none => (.error (.market .outOfRange), s)
  | some (deleted, s') => (replyOf (cancelReply deleted), s')

end Serializer

end ForexMarket
