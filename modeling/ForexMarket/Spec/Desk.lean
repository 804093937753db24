import ForexMarket.Model.Exchange
import ForexMarket.Spec.Command
import ForexMarket.Spec.Reference

/- What the server and its clients are for, without messages, sessions and books: a trading
   desk. The request a client makes is answered at once by the reference market and the
   table of users, and the client is told the answer when it goes on. What it prints is made of
   the answer. -/
namespace ForexMarket

/-- The answer to a request: to a registration or a login the id, to the others what the market
answers, and its quote. -/
inductive Answer where
  | auth (userId : Option UInt64)
  | market (quote : Option Int) (reply : Reply)

/-- What a request asks for. -/
def ClientRequest.command : ClientRequest → Command
  | register username pwHash => .register username pwHash
  | login username pwHash => .login username pwHash
  | idOnly type userId =>
    if type = requests.balance then .balance userId
    else if type = requests.activeOffers then .activeOffers userId
    else if type = requests.closedDeals then .closedDeals userId
    else if type = requests.quotes then .quotes
    else .unknown
  | postOffer userId offerSide amount price =>
    .post userId (if offerSide = 1 then .BUY else .SELL) price (.ofInt amount)
  | cancelOffer userId offerId => .cancel userId (.ofInt offerId)

namespace Answer

/-! What is printed of an answer. -/

/-- An `int` in decimal. -/
def intText (n : Int) : Bytes := Json.dumpInteger (Wrap.wrap32 n)

/-- A `uint64_t` in decimal. -/
def natText (n : Nat) : Bytes := Json.dumpInteger (UInt64.ofNat n).toNat

def quoteText : Option Int → Bytes
  | some price => intText price
  | none => text "none"

def line (label : String) (value : Bytes) : Bytes := text label ++ value ++ text "\n"

def offerText (o : OfferView) : Bytes :=
  line "        Offer id: " (natText o.id) ++ line "        Amount  : " (natText o.amount) ++
    line "        Price   : " (intText o.price) ++ text "\n"

def dealText (d : DealView) : Bytes :=
  line "        Amount  : " (natText d.amount) ++ line "        Price   : " (intText d.price) ++
    text "\n"

/-- Some entries under their heading. -/
def listText (heading : String) (entries : List Bytes) : Bytes :=
  if entries.isEmpty then [] else text heading ++ entries.flatten

def quotesText (quote : Option Int) (q : AskBidQuotesInfo) : Bytes :=
  text "Quotes\n" ++ line "    Last Deal Price: " (quoteText quote) ++
    line "    Ask quote      : " (quoteText q.askQuote) ++
    line "    Bid quote      : " (quoteText q.bidQuote) ++
    line "    Spread         : " (quoteText q.spread)

def balanceText (b : Balance) : Bytes :=
  text "Your Balance\n" ++ line "    USD: " (intText b.usd) ++ line "    RUB: " (intText b.rub)

def offersText (l : List OfferView) : Bytes :=
  text "Your Active Offers\n" ++
    listText "     Buy offers:\n" ((l.filter fun o => o.type = .BUY).map offerText) ++
    listText "     Sell offers:\n" ((l.filter fun o => o.type = .SELL).map offerText) ++
    if l.isEmpty then text "You do not have any active offers.\n" else []

/-- The deals of a user: those the user bought in, sold in, and made with themselves. -/
def dealsText (u : Nat) (l : List DealView) : Bytes :=
  text "Your Active Offers\n" ++
    listText "     Buy deals:\n"
      ((l.filter fun d => d.buyerId ≠ d.sellerId ∧ d.buyerId = u).map dealText) ++
    listText "     Sell deals:\n"
      ((l.filter fun d => d.buyerId ≠ d.sellerId ∧ d.buyerId ≠ u).map dealText) ++
    listText "    Buy-Sell deals:\n" ((l.filter fun d => d.buyerId = d.sellerId).map dealText) ++
    if l.isEmpty then text "You do not have any closed deals.\n" else []

def cancelText (deleted : Bool) : Bytes :=
  text (if deleted then "Offer has been canceled successfully.\n"
    else "Unable to cancle offer. Please make sure it is active buy checking active offers list.\n")

/-- What a request of this type prints of its answer. -/
def shown : RequestType → UInt64 → Answer → Option Bytes
  | .postOffer, _, market _ (.posted _) => some (text "Offer was posted.\n")
  | .cancelOffer, _, market _ (.removed deleted) => some (cancelText deleted)
  | .getQuotes, _, market quote (.quotes q) => some (quotesText quote q)
  | .getBalance, _, market _ (.balance b) => some (balanceText b)
  | .getActive, _, market _ (.offers l) => some (offersText l)
  | .getClosed, userId, market _ (.deals l) => some (dealsText userId.toNat l)
  | _, _, _ => none

end Answer

/-- The client goes on with an answer. -/
def Terminal.told (c : Terminal) (answer : Answer) : Terminal :=
  match c.phase, answer with
  | .authResponse _, .auth (some userId) => { c with phase := .poll userId }
  | .authResponse request, .auth none =>
    { c with phase := .authentication, cout := c.cout ++ [refusal request] }
  | .response type userId, answer =>
    match answer.shown type userId with
    | some shown => { c with phase := .poll userId, cout := c.cout ++ [shown] }
    | none => { c with phase := .threw }
  | _, _ => c

structure Desk (δ : Type) where
  market : Reference
  table : δ
  running : Bool
  terminal : Nat → Terminal
  /-- The answers the clients have not been told yet. -/
  answer : Nat → Option Answer

namespace Desk

variable {δ : Type} (db : Database δ)

/-- The answer to a command, where there is one: there is none for a user who is not registered,
and where the query of a registration or a login throws. -/
def answerTo (a : Reference) (table : δ) (c : Command) : Option Answer :=
  match c.call (db.usernameExist table) with
  | some op =>
    match (a.step op).1 with
    | .fault _ => none
    | .registered userId => some (.auth (userId.map UInt64.ofNat))
    | reply => some (.market a.quote reply)
  | none =>
    match Session.queryOf db table c with
    | .ok userId => some (.auth userId)
    | .error _ => none

/-- The market after a command. -/
def marketAfter (a : Reference) (table : δ) (c : Command) : Reference :=
  match c.call (db.usernameExist table) with
  | some op => (a.step op).2
  | none => a

def start (market : Reference) (table : δ) (input : Nat → Bytes) : Desk δ :=
  { market := market, table := table, running := true, terminal := fun k => .start (input k),
    answer := fun _ => none }

/-- One turn, and the request that is made if one is. A request without an answer closes the
desk. -/
def step (hash : Bytes → UInt64) (d : Desk δ) : Turn → Option ClientRequest × Desk δ
  | .send k =>
    match (d.terminal k).prepare hash with
    | (none, c) => (none, { d with terminal := Function.update d.terminal k c })
    | (some request, c) =>
      if d.running then
        let answer := answerTo db d.market d.table request.command
        (some request,
          { market := marketAfter db d.market d.table request.command
            table := Session.tableAfter db d.table d.market.userId request.command
            running := answer.isSome
            terminal := Function.update d.terminal k c
            answer := Function.update d.answer k answer })
      else (some request, { d with terminal := Function.update d.terminal k c })
  | .receive k _ =>
    match d.answer k with
    | some answer =>
      (none,
        { d with
          terminal := Function.update d.terminal k ((d.terminal k).told answer)
          answer := Function.update d.answer k none })
    | none =>
      if d.running then (none, d)
      else
        (none, { d with terminal := Function.update d.terminal k (d.terminal k).disconnect })

end Desk

end ForexMarket
