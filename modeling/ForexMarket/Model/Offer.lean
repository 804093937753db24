import ForexMarket.Lib.KeySet
import ForexMarket.Lib.Wrap

/- Offers and deals (`offer.h`, `offer.cpp`, `deal.h`, `deal.cpp`).

   Widths: a `size_t` amount is a `UInt64`, with its wrapping subtraction; an `int`
   price is only stored and compared here, so it is an `Int`; a `uint64_t` id is a
   `Nat`, the counters being taken not to wrap. A `shared_ptr<Offer>` or
   `weak_ptr<Offer>` names the object it points to by the offer's id, which the
   constructor makes unique. -/
namespace ForexMarket

inductive OfferType where
  | BUY
  | SELL
  deriving DecidableEq, Repr

/-- The type an offer of this type trades with. -/
def OfferType.opposite : OfferType → OfferType
  | .BUY => .SELL
  | .SELL => .BUY

inductive OfferStatus where
  | ACTIVE
  | FULLFILLED
  deriving DecidableEq, Repr

structure Offer where
  id : Nat
  ownerId : Nat
  type : OfferType
  price : Int
  amount : UInt64
  status : OfferStatus
  deriving DecidableEq, Repr

structure Deal where
  id : Nat
  sellerId : Nat
  buyerId : Nat
  price : Int
  amount : UInt64
  deriving DecidableEq, Repr

/-- The constructor of `Offer`, under the id it draws. -/
def Offer.make (id ownerId : Nat) (type : OfferType) (price : Int) (amount : UInt64) : Offer :=
  { id := id, ownerId := ownerId, type := type, price := price, amount := amount,
    status := .ACTIVE }

/-- `amount_ -= deal_amount`, and `FULLFILLED` when nothing is left. -/
def Offer.reduce (o : Offer) (dealAmount : UInt64) : Offer :=
  let amount := o.amount - dealAmount
  { o with amount := amount, status := if amount = 0 then .FULLFILLED else o.status }

/-- `Offer::MakeDeal`: this offer and the other one after the deal, and the deal under
the id the `Deal` constructor draws; `none` is the `logic_error` for equal types. -/
def Offer.makeDeal (this other : Offer) (dealId : Nat) : Option (Offer × Offer × Deal) :=
  if this.type = other.type then none
  else
    let buyOffer := if this.type = .BUY then this else other
    let sellOffer := if this.type = .SELL then this else other
    let dealAmount := min buyOffer.amount sellOffer.amount
    let dealPrice := if this.type = .SELL then buyOffer.price else sellOffer.price
    some (this.reduce dealAmount, other.reduce dealAmount,
      { id := dealId, sellerId := sellOffer.ownerId, buyerId := buyOffer.ownerId,
        price := dealPrice, amount := dealAmount })

/-! What a deal does, for the offer it is made by and the one it is made with. -/

@[simp] theorem OfferType.opposite_ne (t : OfferType) : t.opposite ≠ t := by cases t <;> decide

theorem OfferType.eq_opposite {t t' : OfferType} (h : t ≠ t') : t' = t.opposite := by
  cases t <;> cases t' <;> first | rfl | exact absurd rfl h

@[simp] theorem Offer.reduce_id (o : Offer) (d : UInt64) : (o.reduce d).id = o.id := rfl
@[simp] theorem Offer.reduce_ownerId (o : Offer) (d : UInt64) :
    (o.reduce d).ownerId = o.ownerId := rfl
@[simp] theorem Offer.reduce_type (o : Offer) (d : UInt64) : (o.reduce d).type = o.type := rfl
@[simp] theorem Offer.reduce_price (o : Offer) (d : UInt64) : (o.reduce d).price = o.price := rfl

/-- The subtraction does not wrap when no more than the amount is taken. -/
theorem Offer.reduce_amount {o : Offer} {d : UInt64} (h : d.toNat ≤ o.amount.toNat) :
    (o.reduce d).amount.toNat = o.amount.toNat - d.toNat :=
  UInt64.toNat_sub_of_le _ _ (UInt64.le_iff_toNat_le.mpr h)

/-- An active offer is fulfilled by a reduction exactly when nothing is left. -/
theorem Offer.reduce_status {o : Offer} {d : UInt64} (ho : o.status = .ACTIVE) :
    (o.reduce d).status = .FULLFILLED ↔ (o.reduce d).amount = 0 := by
  simp only [Offer.reduce]
  split <;> simp_all

theorem Offer.reduce_status_of_ne {o : Offer} {d : UInt64} (h : (o.reduce d).amount ≠ 0) :
    (o.reduce d).status = o.status := by
  simp only [Offer.reduce] at h ⊢
  exact if_neg h

/-- `MakeDeal` between opposite types trades the lesser amount at the other's price. -/
theorem Offer.makeDeal_eq {this other : Offer} (h : other.type = this.type.opposite) (n : Nat) :
    this.makeDeal other n =
      some (this.reduce (min this.amount other.amount), other.reduce (min this.amount other.amount),
        { id := n, sellerId := if this.type = .SELL then this.ownerId else other.ownerId,
          buyerId := if this.type = .BUY then this.ownerId else other.ownerId,
          price := other.price, amount := min this.amount other.amount }) := by
  have hmin : min other.amount this.amount = min this.amount other.amount := by
    apply UInt64.toNat_inj.mp
    simp [UInt64.toNat_min, Nat.min_comm]
  cases ht : this.type <;> simp [Offer.makeDeal, ht, h, OfferType.opposite, hmin]

end ForexMarket
