import ForexMarket.Model.System

/- How often the bodies of the market's loops run: the `while` of `ProcessOffer` and the two
   of `DetermineQuote` are walked once more, and each pass is counted. -/
namespace ForexMarket

namespace Market

section ProcessOffer

variable (border : Book → Int → Bool) (best : Book → Option OfferQueue) (offer : Nat)

/-- The passes of the loop of `ProcessOffer`. -/
def loopPasses : Nat → Market → Nat
  | 0, _ => 0
  | fuel + 1, s =>
    if (s.heap.find? offer).any (fun this => this.status = .FULLFILLED) then 0
    else
      1 +
        match processPass border best offer s with
        | .again s' => loopPasses fuel s'
        | .stop _ => 0
        | .fault _ _ => 0

end ProcessOffer

/-- The passes of the inner loop of `DetermineQuote`. -/
def innerPasses (t : OfferType) (price : Int) : Nat → Market → Nat
  | 0, _ => 0
  | fuel + 1, s =>
    match ((s.book t).find? price).bind OfferQueue.back? with
    | none => 0
    | some bestOffer =>
      1 +
        if s.expired [] bestOffer then
          innerPasses t price fuel (s.setBook t (((s.book t).popBack price).eraseIfEmpty price))
        else 0

/-- The passes of the outer loop of `DetermineQuote`, each with those of the inner one. -/
def outerPasses (t : OfferType) : Nat → Market → Nat
  | 0, _ => 0
  | fuel + 1, s =>
    if (s.book t).isEmpty then 0
    else
      match quoteLevel t (s.book t) with
      | none => 0
      | some bestOffers =>
        1 + innerPasses t bestOffers.price (bestOffers.offers.length + 1) s +
          match quoteInner t bestOffers.price (bestOffers.offers.length + 1) s with
          | (.ok none, s') => outerPasses t fuel s'
          | _ => 0

/-- The passes of `DetermineQuote`. -/
def quotePasses (s : Market) (t : OfferType) : Nat :=
  outerPasses t ((s.book t).elems.length + 1) s

/-- The passes of all loops in one call of the public interface. -/
def passes (s : Market) : Op → Nat
  | .postOffer userId type price amount =>
    let newOffer := Offer.make s.offerId userId type price amount
    match (s.construct newOffer).addOffer userId newOffer with
    | none => 0
    | some s₁ => loopPasses (borderPricePredicate type) (getBestOffers type) newOffer.id
        (entries s₁.activeBuyOffers + entries s₁.activeSellOffers + 1) s₁
  | .getAskBidQuotes => s.quotePasses .BUY + (s.determineQuote .BUY).2.quotePasses .SELL
  | _ => 0

end Market

end ForexMarket
