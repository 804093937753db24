import ForexMarket.Model.UserData

/- The market (`market.h`, `market.cpp`).

   A state holds the members of `Market`, the three static id counters, and the heap
   of `Offer` objects that the pointers lead to. An `OfferQueue` holds `weak_ptr`s,
   the only strong references being the ones in the users' `active_offers_` and the
   local `new_offer` of a running `PostOffer`; `expired` reads the reference count off
   them. A destroyed object keeps its last fields in `heap`, where no `lock` finds it.

   `std::set<OfferQueue, std::less<>>` is ordered by price, and an iterator into it is
   the price of its element. Two reads of freed memory are taken as the code means
   them: a `weak_ptr` just popped as the old entry, a level just erased as an empty
   one. `trades` is a record nothing reads: one entry for each call of `MakeDeal`. -/
namespace ForexMarket

open Wrap

/-- A price level: `offers` is the deque, front first. -/
structure OfferQueue where
  price : Int
  offers : List Nat
  deriving DecidableEq, Repr

abbrev Book := KeySet OfferQueue OfferQueue.price

structure AskBidQuotesInfo where
  askQuote : Option Int
  bidQuote : Option Int
  spread : Option Int
  deriving DecidableEq, Repr

/-- One call of `MakeDeal`: its deal, the offer it is called on and the one it is given. -/
structure Trade where
  deal : Deal
  incoming : Nat
  resting : Nat
  deriving DecidableEq, Repr

/-- How a call can end other than by returning. -/
inductive Fault where
  | outOfRange
  | logicError
  | undefined
  | stuck
  deriving DecidableEq, Repr

structure Market where
  users : KeySet UserData UserData.id
  activeSellOffers : Book
  activeBuyOffers : Book
  quote : Option Int
  heap : KeySet Offer Offer.id
  offerId : Nat
  dealId : Nat
  userId : Nat
  trades : List Trade
  deriving DecidableEq

namespace OfferQueue

def pushFront (q : OfferQueue) (p : Nat) : OfferQueue := { q with offers := p :: q.offers }

def back? (q : OfferQueue) : Option Nat := q.offers.getLast?

def popBack (q : OfferQueue) : OfferQueue := { q with offers := q.offers.dropLast }

@[simp] theorem pushFront_price (q : OfferQueue) (p : Nat) : (q.pushFront p).price = q.price := rfl
@[simp] theorem popBack_price (q : OfferQueue) : q.popBack.price = q.price := rfl

end OfferQueue

namespace Book

/-- `best_offers->offers.pop_back()` at the level of this price. -/
def popBack (b : Book) (price : Int) : Book :=
  b.modify price OfferQueue.popBack OfferQueue.popBack_price

/-- `if (best_offers->offers.empty()) offers.erase(best_offers)`. -/
def eraseIfEmpty (b : Book) (price : Int) : Book :=
  match b.find? price with
  | none => b
  | some q => if q.offers.isEmpty then b.erase price else b

/-- A new offer joins the front of the level of its price, which is made when missing. -/
def add (b : Book) (price : Int) (offer : Nat) : Book :=
  match b.find? price with
  | none => b.insert { price := price, offers := [offer] }
  | some _ => b.modify price (·.pushFront offer) (·.pushFront_price offer)

end Book

namespace Market

/-- A market with no users, offers or deals, the counters seeded. -/
def empty (offerId dealId userId : Nat) : Market :=
  { users := .empty, activeSellOffers := .empty, activeBuyOffers := .empty, quote := none,
    heap := .empty, offerId := offerId, dealId := dealId, userId := userId, trades := [] }

/-- The book that rests offers of this type. -/
def book (s : Market) : OfferType → Book
  | .BUY => s.activeBuyOffers
  | .SELL => s.activeSellOffers

def setBook (s : Market) (t : OfferType) (b : Book) : Market :=
  match t with
  | .BUY => { s with activeBuyOffers := b }
  | .SELL => { s with activeSellOffers := b }

/-- Whether a user's `active_offers_` holds a `shared_ptr` to the offer. -/
def owned (s : Market) (p : Nat) : Bool := s.users.elems.any (fun d => d.activeOffers.contains p)

/-- `weak_ptr::expired`: no `shared_ptr` to the offer is left, neither in a user's set
nor among the running call's locals. -/
def expired (s : Market) (locals : List Nat) (p : Nat) : Bool := !(locals.contains p || s.owned p)

/-- `weak_ptr::lock`, and the object it leads to. -/
def lock (s : Market) (locals : List Nat) (p : Nat) : Option Offer :=
  if s.expired locals p then none else s.heap.find? p

/-- `user_id_to_user_data_.at(user_id)` with a member function that changes it; `none` is
`out_of_range`. -/
def atUser (s : Market) (userId : Nat) (f : UserData → UserData) (hf : ∀ d, (f d).id = d.id) :
    Option Market :=
  match s.users.find? userId with
  | none => none
  | some _ => some { s with users := s.users.modify userId f hf }

/-- `user_id_to_user_data_.at(user_id).RemoveActiveOffer(offer_id)`. -/
def removeActiveOffer (s : Market) (userId offerId : Nat) : Option (Bool × Market) :=
  match s.users.find? userId with
  | none => none
  | some d =>
    let users := s.users.modify userId (fun d => (d.removeActiveOffer offerId).2)
      (fun d => d.removeActiveOffer_id offerId)
    some ((d.removeActiveOffer offerId).1, { s with users := users })

/-- `AddActiveOffer`. -/
def addActiveOffer (s : Market) (offer : Offer) : Market :=
  s.setBook offer.type ((s.book offer.type).add offer.price offer.id)

/-- The updates of `RegisterDeal`, in order; buyer and seller may be one user.
`GetAmount() * GetPrice()` is a product of `size_t`, the price converted. -/
def settle (users : KeySet UserData UserData.id) (deal : Deal) : KeySet UserData UserData.id :=
  let cost := deal.amount * UInt64.ofInt deal.price
  let users := users.modify deal.buyerId (·.depositUSD deal.amount) (·.depositUSD_id _)
  let users := users.modify deal.buyerId (·.withdrawRUB cost) (·.withdrawRUB_id _)
  let users := users.modify deal.sellerId (·.withdrawUSD deal.amount) (·.withdrawUSD_id _)
  let users := users.modify deal.sellerId (·.depositRUB cost) (·.depositRUB_id _)
  let users := users.modify deal.buyerId (·.addDeal deal) (·.addDeal_id _)
  users.modify deal.sellerId (·.addDeal deal) (·.addDeal_id _)

/-- `RegisterDeal`: both `at` lookups come first. -/
def registerDeal (s : Market) (deal : Deal) : Option Market :=
  match s.users.find? deal.buyerId, s.users.find? deal.sellerId with
  | some _, some _ => some { s with users := settle s.users deal }
  | _, _ => none

def updateQuote (s : Market) (deal : Deal) : Market := { s with quote := some deal.price }

/-- `offer->MakeDeal(*best_offer.lock())`, which writes both objects and draws a deal id. -/
def makeDeal (s : Market) (offer other : Offer) : Option (Offer × Deal × Market) :=
  match offer.makeDeal other s.dealId with
  | none => none
  | some (offer', other', deal) =>
    some (other', deal,
      { s with
        heap := (s.heap.store offer').store other'
        dealId := s.dealId + 1
        trades := s.trades ++ [{ deal := deal, incoming := offer.id, resting := other.id }] })

/-- The first lambda of `PostOffer`, for an incoming offer of this type. -/
def borderPricePredicate (type : OfferType) (offers : Book) (price : Int) : Bool :=
  match type with
  | .SELL => offers.last?.any (fun q => q.price ≥ price)
  | .BUY => offers.first?.any (fun q => q.price ≤ price)

/-- The second lambda: the level an incoming offer of this type trades with. -/
def getBestOffers (type : OfferType) (offers : Book) : Option OfferQueue :=
  match type with
  | .SELL => offers.last?
  | .BUY => offers.first?

/-- How a pass of the `while` body of `ProcessOffer` ends. -/
inductive Pass where
  | stop (s : Market)
  | again (s : Market)
  | fault (f : Fault) (s : Market)

section ProcessOffer

variable (border : Book → Int → Bool) (best : Book → Option OfferQueue) (offer : Nat)

/-- The `while` body of `ProcessOffer`. -/
def processPass (s : Market) : Pass :=
  match s.heap.find? offer with
  | none => .fault .undefined s
  | some this =>
    let side := this.type.opposite
    let offers := s.book side
    -- nothing crosses: the offer rests, and `break`
    if offers.isEmpty || !border offers this.price then .stop (s.addActiveOffer this)
    else
      match best offers with
      | none => .fault .undefined s
      | some bestOffers =>
        match bestOffers.back? with
        | none => .fault .undefined s
        | some bestOffer =>
          -- `new_offer` of `PostOffer` is the one local strong reference
          if s.expired [offer] bestOffer then
            .again (s.setBook side
              (((s.book side).popBack bestOffers.price).eraseIfEmpty bestOffers.price))
          else
            match s.lock [offer] bestOffer with
            | none => .fault .undefined s
            | some other =>
              match s.makeDeal this other with
              | none => .fault .logicError s
              | some (other', deal, s₁) =>
                match s₁.registerDeal deal with
                | none => .fault .outOfRange s₁
                | some s₂ =>
                  let s₃ := s₂.updateQuote deal
                  -- the object behind `best_offer.lock()` is `other'` from here on
                  if other'.status = .FULLFILLED then
                    let s₄ := s₃.setBook side ((s₃.book side).popBack bestOffers.price)
                    match s₄.removeActiveOffer other'.ownerId other'.id with
                    | none => .fault .outOfRange s₄
                    | some (_, s₅) =>
                      .again (s₅.setBook side ((s₅.book side).eraseIfEmpty bestOffers.price))
                  else .again s₃

/-- The `while` loop of `ProcessOffer`, bounded by fuel. -/
def processLoop : Nat → Market → Except Fault Unit × Market
  | 0, s => (.error .stuck, s)
  | fuel + 1, s =>
    match s.heap.find? offer with
    | none => (.error .undefined, s)
    | some this =>
      if this.status = .FULLFILLED then (.ok (), s)
      else
        match processPass border best offer s with
        | .stop s' => (.ok (), s')
        | .again s' => processLoop fuel s'
        | .fault f s' => (.error f, s')

/-- The number of entries of a book, live and expired alike. -/
def entries (b : Book) : Nat := (b.elems.map (fun q => q.offers.length)).sum

/-- `ProcessOffer`. A pass that does not leave the loop pops an entry or fills the offer,
so the loop takes one pass more than there are entries, and one to see the fill. -/
def processOffer (s : Market) : Except Fault Unit × Market :=
  match processLoop border best offer (entries s.activeBuyOffers + entries s.activeSellOffers + 1)
    s with
  | (.error f, s') => (.error f, s')
  | (.ok (), s') =>
    match s'.heap.find? offer with
    | none => (.error .undefined, s')
    | some this =>
      if this.status = .FULLFILLED then
        match s'.removeActiveOffer this.ownerId this.id with
        | none => (.error .outOfRange, s')
        | some (_, s'') => (.ok (), s'')
      else (.ok (), s')

end ProcessOffer

/-- `make_shared<Offer>`: the object is on the heap, and its id consumed. -/
def construct (s : Market) (offer : Offer) : Market :=
  { s with heap := s.heap.insert offer, offerId := s.offerId + 1 }

/-- `user_id_to_user_data_.at(user_id).AddOffer(new_offer)`. -/
def addOffer (s : Market) (userId : Nat) (newOffer : Offer) : Option Market :=
  s.atUser userId (·.addOffer newOffer.id) (·.addOffer_id _)

/-- `PostOffer`: the offer is constructed before `at` is tried. -/
def postOffer (s : Market) (userId : Nat) (type : OfferType) (price : Int) (amount : UInt64) :
    Except Fault Nat × Market :=
  let newOffer := Offer.make s.offerId userId type price amount
  match (s.construct newOffer).addOffer userId newOffer with
  | none => (.error .outOfRange, s.construct newOffer)
  | some s₁ =>
    match s₁.processOffer (borderPricePredicate type) (getBestOffers type) newOffer.id with
    | (.error f, s₂) => (.error f, s₂)
    | (.ok (), s₂) => (.ok newOffer.id, s₂)

/-- `RegisterUser`, with what `CreateUser` is told by `UsernameExist`. -/
def registerUser (s : Market) (username : String) (exist : Bool) : Option Nat × Market :=
  if exist then (none, s)
  else (some s.userId,
    { s with users := s.users.insert (.make s.userId username), userId := s.userId + 1 })

/-- The inner `while` of `DetermineQuote`, at the level of this price. -/
def quoteInner (t : OfferType) (price : Int) : Nat → Market → Except Fault (Option Int) × Market
  | 0, s => (.error .stuck, s)
  | fuel + 1, s =>
    match ((s.book t).find? price).bind OfferQueue.back? with
    | none => (.ok none, s)
    | some bestOffer =>
      if s.expired [] bestOffer then
        quoteInner t price fuel (s.setBook t (((s.book t).popBack price).eraseIfEmpty price))
      else
        match s.lock [] bestOffer with
        | none => (.error .undefined, s)
        | some o => (.ok (some o.price), s)

/-- `best_offers` of `DetermineQuote`. -/
def quoteLevel (t : OfferType) (offers : Book) : Option OfferQueue :=
  match t with
  | .SELL => offers.last?
  | .BUY => offers.first?

/-- The outer `while` of `DetermineQuote`. -/
def quoteOuter (t : OfferType) : Nat → Market → Except Fault (Option Int) × Market
  | 0, s => (.error .stuck, s)
  | fuel + 1, s =>
    if (s.book t).isEmpty then (.ok none, s)
    else
      match quoteLevel t (s.book t) with
      | none => (.error .undefined, s)
      | some bestOffers =>
        match quoteInner t bestOffers.price (bestOffers.offers.length + 1) s with
        | (.error f, s') => (.error f, s')
        | (.ok (some q), s') => (.ok (some q), s')
        | (.ok none, s') => quoteOuter t fuel s'

/-- `DetermineQuote`: every round of the outer loop that finds no quote erases a level. -/
def determineQuote (s : Market) (t : OfferType) : Except Fault (Option Int) × Market :=
  quoteOuter t ((s.book t).elems.length + 1) s

/-- The `int` difference of two optional quotes; an overflow wraps. -/
def spreadOf (askQuote bidQuote : Option Int) : Option Int :=
  match askQuote, bidQuote with
  | some ask, some bid => some (wrap32 (bid - ask))
  | _, _ => none

def getAskBidQuotes (s : Market) : Except Fault AskBidQuotesInfo × Market :=
  match s.determineQuote .BUY with
  | (.error f, s₁) => (.error f, s₁)
  | (.ok ask, s₁) =>
    match s₁.determineQuote .SELL with
    | (.error f, s₂) => (.error f, s₂)
    | (.ok bid, s₂) => (.ok { askQuote := ask, bidQuote := bid, spread := spreadOf ask bid }, s₂)

end Market

end ForexMarket
