import ForexMarket.Model.DBManager
import ForexMarket.Model.Store

/- The tables of offers and deals as the texts of the queries leave them (`AddOffer` and
   `AddDeal` of `db_manager.cpp`). A text that reads as one insertion of numbers inserts
   them; one that reads as a query on `User` is meant leaves these two tables alone; what
   any other text does is a parameter, since a name with a quote in it can bring statements
   of its own. The queries of `GetMaxId` are fixed texts that only read. -/
namespace ForexMarket

namespace DBManager

/-- `std::format` of an integer. -/
def formattedInt (n : Int) : Bytes := Json.dumpInteger n

def addOfferQuery (offerId ownerId : Nat) (offerType : OfferType) (amount : UInt64)
    (price : Int) : Bytes :=
  text "INSERT INTO Offer VALUES(" ++ formattedInt offerId ++ text ", " ++ formattedInt ownerId ++
    text ", " ++ formattedInt (if offerType = .BUY then 1 else 0) ++ text ", " ++
    formattedInt amount.toNat ++ text ", " ++ formattedInt price ++ text ");"

def addDealQuery (dealId sellerId buyerId : Nat) (amount : UInt64) (price : Int) : Bytes :=
  text "INSERT INTO Deal VALUES(" ++ formattedInt dealId ++ text ", " ++ formattedInt sellerId ++
    text ", " ++ formattedInt buyerId ++ text ", " ++ formattedInt amount.toNat ++ text ", " ++
    formattedInt price ++ text ")"

/-- The table and the values of an insertion of numbers. -/
def insertion? (ts : List Sql.Token) : Option (Bytes × List Int) :=
  match ts with
  | .word insert :: .word into :: .word table :: .word values :: .sign bracket :: ts =>
    if insert = text "INSERT" ∧ into = text "INTO" ∧ values = text "VALUES" ∧ bracket = 0x28 then
      match Sql.values? ts with
      | some (row, []) => some (table, row)
      | some (row, [.sign 0x3B]) => some (table, row)
      | _ => none
    else none
  | _ => none

/-- Whether the tokens are those of a query on `User` with its parameters bound. -/
def asksUser (ts : List Sql.Token) : Bool :=
  (Sql.args? usernameExistStatement ts).isSome || (Sql.args? addUserStatement ts).isSome ||
    (Sql.args? getUserIdStatement ts).isSome

/-- What a column keeps of a number: from 2^63 on, the nearest double. -/
def kept (n : Int) : Int := if n < 0 then n else numberOf n.toNat

end DBManager

/-- The values of the row of an offer. -/
def StoredOffer.values (row : StoredOffer) : List Int :=
  [row.id, row.ownerId, if row.type then 1 else 0, row.amount.toNat, row.price]

/-- The values of the row of a deal. -/
def StoredDeal.values (row : StoredDeal) : List Int :=
  [row.id, row.sellerId, row.buyerId, row.amount.toNat, row.price]

/-- The values that the columns keep. -/
def StoredOffer.filed (row : StoredOffer) : List Int := row.values.map DBManager.kept

def StoredDeal.filed (row : StoredDeal) : List Int := row.values.map DBManager.kept

/-- The `Offer` and the `Deal` table, each row by its values. The primary key is the first. -/
structure SqlTables where
  offer : KeyTable (List Int) List.head?
  deal : KeyTable (List Int) List.head?

namespace SqlTables

def empty : SqlTables := { offer := .empty, deal := .empty }

/-- `sqlite3_exec`: an insertion of five values, or another query. -/
def execute (other : SqlTables → Bytes → SqlTables) (file : SqlTables) (query : Bytes) :
    SqlTables :=
  match DBManager.insertion? (Sql.tokens query) with
  | some (table, [a, b, c, d, e]) =>
    let row := [a, b, c, d, e].map DBManager.kept
    if table = text "Offer" then { file with offer := file.offer.insert row }
    else if table = text "Deal" then { file with deal := file.deal.insert row }
    else other file query
  | _ => if DBManager.asksUser (Sql.tokens query) then file else other file query

end SqlTables

/-- The queries of an event. The name a call is given is read back from the bytes it stands for. -/
def Store.queries (s : Store) : Store.Event → List Bytes
  | .start => []
  | .call op pwHash =>
    if s.running then
      let first :=
        match op with
        | .registerUser username exist =>
          DBManager.usernameExistQuery (text username) ::
            if exist then []
            else [DBManager.addUserQuery (.ofNat s.market.userId) (text username) pwHash]
        | .postOffer u type price amount =>
          [DBManager.addOfferQuery s.market.offerId u type amount price]
        | _ => []
      first ++ (s.market.dealsSince (s.market.step op).2).map fun deal =>
        DBManager.addDealQuery deal.id deal.sellerId deal.buyerId deal.amount deal.price
    else []

/-- The program with the file its queries go to. -/
structure Filed where
  store : Store
  file : SqlTables

namespace Filed

inductive Event where
  | store (e : Store.Event)
  | login (username : Bytes) (pwHash : UInt64)

/-- No run yet, over empty tables. -/
def idle : Filed := { store := .idle, file := .empty }

def step (other : SqlTables → Bytes → SqlTables) (s : Filed) : Event → Option Reply × Filed
  | .store e =>
    ((s.store.step e).1,
      { store := (s.store.step e).2
        file := (s.store.queries e).foldl (SqlTables.execute other) s.file })
  | .login username pwHash =>
    (none,
      if s.store.running then
        { s with file := s.file.execute other (DBManager.getUserIdQuery username pwHash) }
      else s)

/-- The starts and calls among the events. -/
def Event.stored : Event → Option Store.Event
  | .store e => some e
  | .login .. => none

/-- The name in an event, if it has one, has no quote and no NUL. -/
def Event.PlainName : Event → Prop
  | .store (.call (.registerUser username _) _) => Sql.Plain (text username)
  | .login username _ => Sql.Plain username
  | _ => True

instance : DecidablePred Event.PlainName
  | .store (.call (.registerUser username _) _) =>
    inferInstanceAs (Decidable (Sql.Plain (text username)))
  | .login username _ => inferInstanceAs (Decidable (Sql.Plain username))
  | .store .start => .isTrue trivial
  | .store (.call (.postOffer ..) _) | .store (.call (.removeOffer ..) _)
  | .store (.call (.depositUSD ..) _) | .store (.call (.depositRUB ..) _)
  | .store (.call (.getUserBalance _) _) | .store (.call (.getActiveOffers _) _)
  | .store (.call (.getClosedDeals _) _) | .store (.call .getQuote _)
  | .store (.call .getAskBidQuotes _) => .isTrue trivial

end Filed

end ForexMarket
