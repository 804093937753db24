import ForexMarket.Model.System

/- The arithmetic of `RegisterDeal` and of `GetAskBidQuotes`. The calls of `RegisterDeal`
   in a run are listed with the market each is made on, by walking the loop of
   `ProcessOffer` once more; of a call, the four updates of the two balances are looked
   at one by one. -/
namespace ForexMarket

open Wrap

namespace Market

section ProcessOffer

variable (border : Book → Int → Bool) (best : Book → Option OfferQueue) (offer : Nat)

/-- The call of `RegisterDeal` in the `while` body: none where the body ends before it. -/
def passRegisters (s : Market) : List (Market × Deal) :=
  match s.heap.find? offer with
  | none => []
  | some this =>
    let offers := s.book this.type.opposite
    if offers.isEmpty || !border offers this.price then []
    else
      match (best offers).bind OfferQueue.back? with
      | none => []
      | some bestOffer =>
        match s.lock [offer] bestOffer with
        | none => []
        | some other =>
          match s.makeDeal this other with
          | none => []
          | some (_, deal, s₁) => [(s₁, deal)]

/-- The calls of `RegisterDeal` in the loop, in order. -/
def loopRegisters : Nat → Market → List (Market × Deal)
  | 0, _ => []
  | fuel + 1, s =>
    if (s.heap.find? offer).any (fun this => this.status = .FULLFILLED) then []
    else
      passRegisters border best offer s ++
        match processPass border best offer s with
        | .again s' => loopRegisters fuel s'
        | .stop _ => []
        | .fault _ _ => []

end ProcessOffer

/-- The calls of `RegisterDeal` in one call of the public interface. -/
def registers (s : Market) : Op → List (Market × Deal)
  | .postOffer userId type price amount =>
    let newOffer := Offer.make s.offerId userId type price amount
    match (s.construct newOffer).addOffer userId newOffer with
    | none => []
    | some s₁ => loopRegisters (borderPricePredicate type) (getBestOffers type) newOffer.id
        (entries s₁.activeBuyOffers + entries s₁.activeSellOffers + 1) s₁
  | _ => []

/-- `RegisterDeal` of this deal stores four exact integers. -/
def ExactUpdates (s : Market) (deal : Deal) : Prop :=
  ∀ buyer ∈ s.users.find? deal.buyerId, ∀ seller ∈ s.users.find? deal.sellerId,
    let cost := deal.amount * UInt64.ofInt deal.price
    let buyer₁ := buyer.depositUSD deal.amount
    let buyer₂ := buyer₁.withdrawRUB cost
    -- a user who is both parties sells after having bought
    let seller₀ := if deal.sellerId = deal.buyerId then buyer₂ else seller
    let seller₁ := seller₀.withdrawUSD deal.amount
    let seller₂ := seller₁.depositRUB cost
    buyer₁.balance.usd = buyer.balance.usd + deal.amount.toNat ∧
      buyer₂.balance.rub = buyer₁.balance.rub - deal.amount.toNat * deal.price ∧
      seller₁.balance.usd = seller₀.balance.usd - deal.amount.toNat ∧
      seller₂.balance.rub = seller₁.balance.rub + deal.amount.toNat * deal.price

instance (s : Market) (deal : Deal) : Decidable (s.ExactUpdates deal) :=
  inferInstanceAs (Decidable (∀ buyer ∈ s.users.find? deal.buyerId,
    ∀ seller ∈ s.users.find? deal.sellerId, _ ∧ _ ∧ _ ∧ _))

/-- The difference `GetAskBidQuotes` takes, if the call is one and both quotes are there, is an
`int`. -/
def ExactSpread (s : Market) : Op → Prop
  | .getAskBidQuotes =>
    match s.getAskBidQuotes.1 with
    | .ok q => ∀ ask ∈ q.askQuote, ∀ bid ∈ q.bidQuote, Fits32 (bid - ask)
    | .error _ => True
  | _ => True

/-- The calls of `RegisterDeal` in a run, in order. -/
def allRegisters (s : Market) (ops : List Op) : List (Market × Deal) :=
  Machine.gather step registers s ops

end Market

end ForexMarket
