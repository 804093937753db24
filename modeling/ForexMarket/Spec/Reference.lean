import Mathlib.Order.Lex
import Mathlib.Data.Prod.Lex
import ForexMarket.Lib.Select
import ForexMarket.Model.System

/- The market's purpose, stated without its data structures: one list of live offers
   and exact integer accounts. A posted offer repeatedly takes, among the live offers
   of the other type whose price its limit admits, the one of best price and, at that
   price, the oldest; they trade the lesser amount at the resting price; an offer with
   nothing left is deleted; what is left when nothing crosses joins the list. A
   cancelled offer is deleted at once, and a query changes nothing. -/
namespace ForexMarket

open Wrap

/-- A user's position: exact amounts, and the deals the user took part in. -/
structure Account where
  usd : Int
  rub : Int
  deals : List DealView

/-- The account of user `u` after a deal. -/
def Account.afterDeal (x : Account) (u : Nat) (d : DealView) : Account :=
  { usd := x.usd + (if u = d.buyerId then (d.amount : Int) else 0)
      - (if u = d.sellerId then (d.amount : Int) else 0)
    rub := x.rub - (if u = d.buyerId then d.amount * d.price else 0)
      + (if u = d.sellerId then d.amount * d.price else 0)
    deals := if u = d.buyerId ∨ u = d.sellerId then x.deals ++ [d] else x.deals }

/-- One trade: the deal, the offer it was posted by and the resting one. -/
structure TradeView where
  deal : DealView
  incoming : Nat
  resting : Nat
  deriving DecidableEq, Repr

def Trade.view (t : Trade) : TradeView :=
  { deal := t.deal.view, incoming := t.incoming, resting := t.resting }

structure Reference where
  live : KeySet OfferView OfferView.id
  accounts : Nat → Option Account
  quote : Option Int
  offerId : Nat
  dealId : Nat
  userId : Nat
  trades : List TradeView

namespace Reference

/-- No users, no offers, no deals. -/
def empty (offerId dealId userId : Nat) : Reference :=
  { live := .empty, accounts := fun _ => none, quote := none, offerId := offerId,
    dealId := dealId, userId := userId, trades := [] }

/-- Whether an incoming offer of this type and limit may trade at the price. -/
def crosses (type : OfferType) (limit price : Int) : Prop :=
  match type with
  | .BUY => price ≤ limit
  | .SELL => limit ≤ price

instance (type : OfferType) (limit price : Int) : Decidable (crosses type limit price) := by
  cases type <;> exact inferInstanceAs (Decidable (_ ≤ _))

/-- The order in which an incoming offer of this type takes resting ones: lowest price
first for a BUY, highest first for a SELL, oldest first at one price. -/
def rank (type : OfferType) (o : OfferView) : Int ×ₗ Nat :=
  match type with
  | .BUY => toLex (o.price, o.id)
  | .SELL => toLex (-o.price, o.id)

/-- Whether the live offer `o` may trade with the incoming one. -/
def matchable (incoming o : OfferView) : Bool :=
  o.type = incoming.type.opposite ∧ crosses incoming.type incoming.price o.price

/-- The live offer the incoming one trades with first. -/
def best? (a : Reference) (incoming : OfferView) : Option OfferView :=
  Select.best? (matchable incoming) (rank incoming.type) a.live.elems

/-- The accounts after a deal. -/
def settle (accounts : Nat → Option Account) (d : DealView) : Nat → Option Account :=
  fun u => (accounts u).map (·.afterDeal u d)

/-- The deal between the incoming offer and the resting one. -/
def dealOf (a : Reference) (incoming o : OfferView) : DealView :=
  { id := a.dealId
    sellerId := if incoming.type = .SELL then incoming.ownerId else o.ownerId
    buyerId := if incoming.type = .BUY then incoming.ownerId else o.ownerId
    price := o.price
    amount := min incoming.amount o.amount }

/-- The live offers after `amount` of the offer `o` is traded. -/
def consume (live : KeySet OfferView OfferView.id) (o : OfferView) (amount : Nat) :
    KeySet OfferView OfferView.id :=
  if o.amount - amount = 0 then live.erase o.id
  else live.store { o with amount := o.amount - amount }

/-- The record of that trade. -/
def tradeOf (a : Reference) (incoming o : OfferView) : TradeView :=
  { deal := a.dealOf incoming o, incoming := incoming.id, resting := o.id }

/-- One trade of the incoming offer with the resting offer `o`. -/
def trade (a : Reference) (incoming o : OfferView) : Reference :=
  { a with
    live := consume a.live o (min incoming.amount o.amount)
    accounts := settle a.accounts (a.dealOf incoming o)
    quote := some o.price
    dealId := a.dealId + 1
    trades := a.trades ++ [a.tradeOf incoming o] }

/-- The live offers after the reduction of one of them. -/
theorem mem_consume {live : KeySet OfferView OfferView.id} {o v : OfferView} {n : Nat}
    (ho : o ∈ live) : v ∈ consume live o n ↔
      (v ∈ live ∧ v.id ≠ o.id) ∨ (v = { o with amount := o.amount - n } ∧ o.amount - n ≠ 0) := by
  unfold consume
  split
  · next h0 => simp [KeySet.mem_erase, h0]
  · next h0 =>
    rw [KeySet.mem_store]
    have hthere : ∃ c ∈ live, c.id = ({ o with amount := o.amount - n } : OfferView).id :=
      ⟨o, ho, rfl⟩
    simp only [hthere, and_true, h0, ne_eq, not_false_eq_true]

theorem best?_mem {a : Reference} {incoming o : OfferView} (h : a.best? incoming = some o) :
    o ∈ a.live :=
  (Select.best?_mem h).1

/-- A trade that leaves some of the incoming offer deletes the resting one. -/
theorem trade_live_of_lt {a : Reference} {incoming o : OfferView} (h : o.amount < incoming.amount) :
    (a.trade incoming o).live = a.live.erase o.id := by
  have hmin : min incoming.amount o.amount = o.amount := by omega
  simp [trade, consume, hmin]

/-- What is left of the incoming offer after trading with `o`. -/
def remainder (incoming o : OfferView) : OfferView :=
  { incoming with amount := incoming.amount - min incoming.amount o.amount }

theorem lt_of_remainder_ne_zero {incoming o : OfferView} (h : (remainder incoming o).amount ≠ 0) :
    o.amount < incoming.amount := by
  simp only [remainder] at h
  omega

/-- The incoming offer trades with the best live offer until it is filled or none crosses. -/
def matchOffer (a : Reference) (incoming : OfferView) : Reference :=
  match _h : a.best? incoming with
  | none => { a with live := a.live.insert incoming }
  | some o =>
    if _hr : (remainder incoming o).amount = 0 then a.trade incoming o
    else matchOffer (a.trade incoming o) (remainder incoming o)
termination_by a.live.elems.length
decreasing_by
  rw [trade_live_of_lt (lt_of_remainder_ne_zero _hr)]
  exact KeySet.length_erase_lt (best?_mem _h)

theorem matchOffer_of_none {a : Reference} {incoming : OfferView} (h : a.best? incoming = none) :
    a.matchOffer incoming = { a with live := a.live.insert incoming } := by
  rw [matchOffer]
  split
  · rfl
  · next o ho => rw [h] at ho; cases ho

theorem matchOffer_of_some {a : Reference} {incoming o : OfferView}
    (h : a.best? incoming = some o) :
    a.matchOffer incoming =
      if (remainder incoming o).amount = 0 then a.trade incoming o
      else (a.trade incoming o).matchOffer (remainder incoming o) := by
  rw [matchOffer]
  split
  · next hn => rw [h] at hn; cases hn
  · next o' ho' =>
    rw [h] at ho'
    cases ho'
    rfl

/-- The least price of a live BUY offer. -/
def askQuote (a : Reference) : Option Int :=
  ((a.live.elems.filter (fun o => o.type = .BUY)).map OfferView.price).min?

/-- The greatest price of a live SELL offer. -/
def bidQuote (a : Reference) : Option Int :=
  ((a.live.elems.filter (fun o => o.type = .SELL)).map OfferView.price).max?

/-- The account read by `f`. -/
def readUser (a : Reference) (userId : Nat) (f : Account → Reply) : Reply × Reference :=
  match a.accounts userId with
  | none => (.fault .outOfRange, a)
  | some x => (f x, a)

@[simp] theorem readUser_snd (a : Reference) (userId : Nat) (f : Account → Reply) :
    (a.readUser userId f).2 = a := by
  unfold readUser
  cases a.accounts userId <;> rfl

/-- The account changed by `f`. -/
def writeUser (a : Reference) (userId : Nat) (f : Account → Account) : Reply × Reference :=
  match a.accounts userId with
  | none => (.fault .outOfRange, a)
  | some x => (.done, { a with accounts := Function.update a.accounts userId (some (f x)) })

/-- One call. Balances are reported as 32-bit integers. -/
def step (a : Reference) : Op → Reply × Reference
  | .registerUser _ exist =>
    if exist then (.registered none, a)
    else (.registered (some a.userId),
      { a with
        accounts := Function.update a.accounts a.userId (some { usd := 0, rub := 0, deals := [] })
        userId := a.userId + 1 })
  | .depositUSD u amount => a.writeUser u (fun x => { x with usd := x.usd + amount.toNat })
  | .depositRUB u amount => a.writeUser u (fun x => { x with rub := x.rub + amount.toNat })
  | .getUserBalance u =>
    a.readUser u (fun x => .balance { usd := wrap32 x.usd, rub := wrap32 x.rub })
  | .getActiveOffers u =>
    a.readUser u (fun _ => .offers (a.live.elems.filter (fun o => o.ownerId = u)))
  | .getClosedDeals u => a.readUser u (fun x => .deals x.deals)
  | .postOffer u type price amount =>
    let a' := { a with offerId := a.offerId + 1 }
    match a.accounts u with
    | none => (.fault .outOfRange, a')
    | some _ =>
      (.posted a.offerId, a'.matchOffer
        { id := a.offerId, ownerId := u, type := type, price := price, amount := amount.toNat })
  | .removeOffer u id =>
    match a.accounts u with
    | none => (.fault .outOfRange, a)
    | some _ =>
      if (a.live.find? id).any (fun o => o.ownerId = u) then
        (.removed true, { a with live := a.live.erase id })
      else (.removed false, a)
  | .getQuote => (.quote a.quote, a)
  | .getAskBidQuotes =>
    (.quotes { askQuote := a.askQuote, bidQuote := a.bidQuote,
               spread := Market.spreadOf a.askQuote a.bidQuote }, a)

end Reference

end ForexMarket
