import ForexMarket.Model.Ids
import ForexMarket.Model.System

/- The market with its database (`db_manager.cpp`, and the constructors that write to it).
   The constructors of `Offer`, `Deal` and `UserData` insert a row under the id they have
   drawn; nothing else writes, where no name brings SQL of its own. A row is inserted unless
   its id is taken, and a failed insertion is only logged. The deals a call makes are those
   it adds to the record of trades. -/
namespace ForexMarket

/-- A row of the `Offer` table. -/
structure StoredOffer where
  id : Nat
  ownerId : Nat
  /-- `TYPE`: whether it is a BUY. -/
  type : Bool
  amount : UInt64
  price : Int
  deriving DecidableEq, Repr

/-- A row of the `Deal` table. -/
structure StoredDeal where
  id : Nat
  sellerId : Nat
  buyerId : Nat
  amount : UInt64
  price : Int
  deriving DecidableEq, Repr

/-- A row of the `User` table. -/
structure StoredUser where
  id : Nat
  username : String
  pwHash : UInt64
  deriving DecidableEq, Repr

structure Tables where
  offer : KeyTable StoredOffer StoredOffer.id
  deal : KeyTable StoredDeal StoredDeal.id
  user : KeyTable StoredUser StoredUser.id

namespace Tables

def empty : Tables := { offer := .empty, deal := .empty, user := .empty }

def addOffer (db : Tables) (offerId ownerId : Nat) (offerType : OfferType) (amount : UInt64)
    (price : Int) : Tables :=
  let row : StoredOffer :=
    { id := offerId, ownerId := ownerId, type := offerType = .BUY, amount := amount,
      price := price }
  { db with offer := db.offer.insert row }

def addDeal (db : Tables) (dealId sellerId buyerId : Nat) (amount : UInt64) (price : Int) :
    Tables :=
  let row : StoredDeal :=
    { id := dealId, sellerId := sellerId, buyerId := buyerId, amount := amount, price := price }
  { db with deal := db.deal.insert row }

def addUser (db : Tables) (userId : Nat) (username : String) (pwHash : UInt64) : Tables :=
  let row : StoredUser := { id := userId, username := username, pwHash := pwHash }
  { db with user := db.user.insert row }

/-- The ids in each table. -/
def ids (db : Tables) : Table → KeyTable Nat id :=
  Table.pick db.offer.keys db.deal.keys db.user.keys

end Tables

structure Store where
  market : Market
  tables : Tables
  running : Bool

/-- The deals made since. -/
def Market.dealsSince (s s' : Market) : List Deal :=
  (s'.trades.drop s.trades.length).map Trade.deal

namespace Store

/-- A start of the program, or a call; the hash is for the call of `RegisterUser`. -/
inductive Event where
  | start
  | call (op : Op) (pwHash : UInt64)

/-- No run yet, over empty tables. -/
def idle : Store := { market := Market.empty 0 0 0, tables := .empty, running := false }

/-- The tables after a call that takes the market from `s` to `s'`. -/
def record (db : Tables) (s s' : Market) (pwHash : UInt64) : Op → Tables
  | .registerUser username exist => if exist then db else db.addUser s.userId username pwHash
  | .postOffer u type price amount =>
    (s.dealsSince s').foldl
      (fun db deal => db.addDeal deal.id deal.sellerId deal.buyerId deal.amount deal.price)
      (db.addOffer s.offerId u type amount price)
  | _ => db

/-- What the program does with an event, and the reply of a call. -/
def step (s : Store) : Event → Option Reply × Store
  | .start =>
    match seeds fun t => (s.tables.ids t).rows with
    | .ok seed =>
      (none, { s with
        market := Market.empty (seed .offer) (seed .deal) (seed .user), running := true })
    | .error _ => (none, { s with running := false })
  | .call op pwHash =>
    if s.running then
      let r := s.market.step op
      (some r.1, { s with market := r.2, tables := record s.tables s.market r.2 pwHash op })
    else (none, s)

theorem step_call {s : Store} (hrun : s.running = true) (op : Op) (pwHash : UInt64) :
    s.step (.call op pwHash) =
      (some (s.market.step op).1,
        { s with
          market := (s.market.step op).2
          tables := record s.tables s.market (s.market.step op).2 pwHash op }) := by
  rw [step, if_pos hrun]

end Store

end ForexMarket
