import ForexMarket.Model.Market

/- The loops of `ProcessOffer` and `DetermineQuote` once more, each read through
   `best_offers` and `best_offer` on its own. `best_offers` is an iterator to a level
   and `best_offer` a reference to an entry of its deque; both are used after the pops
   and erases of the loop. `Access` says what such a read finds, and a read that finds
   nothing is undefined. A level is known by its price and an entry by its offer: a book
   has no two levels of a price and no two entries of an offer, and neither loop puts a
   node into the book it walks. -/
namespace ForexMarket

/-- What a read of `best_offers->offers` and of `best_offer` finds, the first being an iterator to
the level of a price and the second a reference to the entry of an offer there. -/
structure Access where
  level : Market → OfferType → Int → Option (List Nat)
  entry : Market → OfferType → Int → Nat → Option Nat

namespace Access

/-- A node is found as long as it has not been popped or erased. -/
def present : Access where
  level s t price := ((s.book t).find? price).map OfferQueue.offers
  entry s t price p := ((s.book t).find? price).bind fun q => if p ∈ q.offers then some p else none

/-- A removed node is found as it is meant: the entry as it was, the level as an empty one. -/
def kept : Access where
  level s t price := some ((((s.book t).find? price).map OfferQueue.offers).getD [])
  entry _ _ _ p := some p

end Access

/-- What a read or a dereference finds; without it the behaviour is undefined. -/
def found {α : Type} : Option α → Except Fault α
  | some a => .ok a
  | none => .error .undefined

@[simp] theorem found_some {α : Type} (a : α) : found (some a) = .ok a := rfl
@[simp] theorem found_none {α : Type} : found (none : Option α) = .error .undefined := rfl

namespace Market

section Reads

variable (A : Access)

/-- `best_offers->offers.pop_back()`. -/
def popEntry (s : Market) (t : OfferType) (price : Int) : Except Fault Market := do
  let _ ← found (A.level s t price)
  return s.setBook t ((s.book t).popBack price)

/-- `if (best_offers->offers.empty()) offers.erase(best_offers)`. -/
def eraseLevel (s : Market) (t : OfferType) (price : Int) : Except Fault Market := do
  let offers ← found (A.level s t price)
  return if offers.isEmpty then s.setBook t ((s.book t).erase price) else s

/-- `best_offers->offers.back()`, the entry it refers to. -/
def backEntry (s : Market) (t : OfferType) (price : Int) : Except Fault Nat := do
  let offers ← found (A.level s t price)
  found offers.getLast?

/-- `*best_offer.lock()`. -/
def lockEntry (s : Market) (locals : List Nat) (t : OfferType) (price : Int) (p : Nat) :
    Except Fault Offer := do
  let offer ← found (A.entry s t price p)
  found (s.lock locals offer)

section ProcessOffer

variable (border : Book → Int → Bool) (best : Book → Option OfferQueue) (offer : Nat)

/-- The part of the body after `UpdateQuote`. -/
def settleEntry (s : Market) (t : OfferType) (price : Int) (p : Nat) : Except Fault Market := do
  let other ← lockEntry A s [offer] t price p
  if other.status = .FULLFILLED then
    let s₁ ← popEntry A s t price
    let owner ← lockEntry A s₁ [offer] t price p
    let removed ← lockEntry A s₁ [offer] t price p
    match s₁.removeActiveOffer owner.ownerId removed.id with
    | none => .error .outOfRange
    | some (_, s₂) => eraseLevel A s₂ t price
  else return s

/-- The body of the loop, and whether the loop goes on. -/
def processPassAt (s : Market) : Except Fault (Bool × Market) := do
  let this ← found (s.heap.find? offer)
  let side := this.type.opposite
  if (s.book side).isEmpty || !border (s.book side) this.price then
    return (false, s.addActiveOffer this)
  else
    let bestOffers ← found (best (s.book side))
    let p ← backEntry A s side bestOffers.price
    let bestOffer ← found (A.entry s side bestOffers.price p)
    if s.expired [offer] bestOffer then
      let s₁ ← popEntry A s side bestOffers.price
      let s₂ ← eraseLevel A s₁ side bestOffers.price
      return (true, s₂)
    else
      let other ← lockEntry A s [offer] side bestOffers.price p
      match s.makeDeal this other with
      | none => .error .logicError
      | some (_, deal, s₁) =>
        match s₁.registerDeal deal with
        | none => .error .outOfRange
        | some s₂ =>
          let s₃ ← settleEntry A offer (s₂.updateQuote deal) side bestOffers.price p
          return (true, s₃)

/-- The loop, bounded by fuel. -/
def processLoopAt : Nat → Market → Except Fault Market
  | 0, _ => .error .stuck
  | fuel + 1, s => do
    let this ← found (s.heap.find? offer)
    if this.status = .FULLFILLED then return s
    else
      let (goesOn, s₁) ← processPassAt A border best offer s
      if goesOn then processLoopAt fuel s₁ else return s₁

/-- `ProcessOffer`, with the fuel of `processOffer`. -/
def processOfferAt (s : Market) : Except Fault Market := do
  let s₁ ← processLoopAt A border best offer
    (entries s.activeBuyOffers + entries s.activeSellOffers + 1) s
  let this ← found (s₁.heap.find? offer)
  if this.status = .FULLFILLED then
    match s₁.removeActiveOffer this.ownerId this.id with
    | none => .error .outOfRange
    | some (_, s₂) => return s₂
  else return s₁

end ProcessOffer

/-- `PostOffer`: the id of the offer and the market it leaves. -/
def postOfferAt (s : Market) (userId : Nat) (type : OfferType) (price : Int) (amount : UInt64) :
    Except Fault (Nat × Market) := do
  let newOffer := Offer.make s.offerId userId type price amount
  match (s.construct newOffer).addOffer userId newOffer with
  | none => .error .outOfRange
  | some s₁ =>
    let s₂ ← processOfferAt A (borderPricePredicate type) (getBestOffers type) newOffer.id s₁
    return (newOffer.id, s₂)

/-- The inner loop of `DetermineQuote`: the quote, when one is found. -/
def quoteInnerAt (t : OfferType) (price : Int) : Nat → Market → Except Fault (Option Int × Market)
  | 0, _ => .error .stuck
  | fuel + 1, s => do
    let offers ← found (A.level s t price)
    if offers.isEmpty then return (none, s)
    else
      let p ← backEntry A s t price
      let bestOffer ← found (A.entry s t price p)
      if s.expired [] bestOffer then
        let s₁ ← popEntry A s t price
        let s₂ ← eraseLevel A s₁ t price
        quoteInnerAt t price fuel s₂
      else
        let o ← lockEntry A s [] t price p
        -- the condition is read once more, with the quote found
        let _ ← found (A.level s t price)
        return (some o.price, s)

/-- The outer loop. -/
def quoteOuterAt (t : OfferType) : Nat → Market → Except Fault (Option Int × Market)
  | 0, _ => .error .stuck
  | fuel + 1, s =>
    if (s.book t).isEmpty then return (none, s)
    else do
      let bestOffers ← found (quoteLevel t (s.book t))
      let (quote, s₁) ← quoteInnerAt A t bestOffers.price (bestOffers.offers.length + 1) s
      if quote.isSome then return (quote, s₁) else quoteOuterAt t fuel s₁

/-- `DetermineQuote`, with the fuel of `determineQuote`. -/
def determineQuoteAt (s : Market) (t : OfferType) : Except Fault (Option Int × Market) :=
  quoteOuterAt A t ((s.book t).elems.length + 1) s

end Reads

end Market

end ForexMarket
