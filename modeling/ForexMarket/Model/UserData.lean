import ForexMarket.Model.Offer

/- A user's account (`user_data.h`, `user_data.cpp`). `balance_` holds two `int`
   fields, updated from `size_t` operands: the `int` is converted to `size_t`, the
   operation is modulo 2^64, and the result is narrowed back. `active_offers_` is a
   set of `shared_ptr<Offer>` ordered by offer id, `closed_deals_` a set of
   `shared_ptr<Deal>` ordered by deal id; deals are never changed, so the set holds
   their values. -/
namespace ForexMarket

open Wrap

structure Balance where
  usd : Int
  rub : Int
  deriving DecidableEq, Repr

structure UserData where
  id : Nat
  username : String
  balance : Balance
  activeOffers : KeySet Nat (fun p => p)
  closedDeals : KeySet Deal Deal.id
  deriving DecidableEq

namespace UserData

/-- `UserData(username, pw_hash)` under the id the constructor draws. -/
def make (id : Nat) (username : String) : UserData :=
  { id := id, username := username, balance := { usd := 0, rub := 0 },
    activeOffers := .empty, closedDeals := .empty }

def addOffer (d : UserData) (offer : Nat) : UserData :=
  { d with activeOffers := d.activeOffers.insert offer }

def addDeal (d : UserData) (deal : Deal) : UserData :=
  { d with closedDeals := d.closedDeals.insert deal }

/-- `RemoveActiveOffer`: whether the offer was there, and the data without it. -/
def removeActiveOffer (d : UserData) (offerId : Nat) : Bool × UserData :=
  match d.activeOffers.find? offerId with
  | none => (false, d)
  | some p => (true, { d with activeOffers := d.activeOffers.erase p })

def setUsd (d : UserData) (x : Int) : UserData := { d with balance := { d.balance with usd := x } }

def setRub (d : UserData) (x : Int) : UserData := { d with balance := { d.balance with rub := x } }

def depositUSD (d : UserData) (amount : UInt64) : UserData :=
  d.setUsd (narrow (UInt64.ofInt d.balance.usd + amount))

def depositRUB (d : UserData) (amount : UInt64) : UserData :=
  d.setRub (narrow (UInt64.ofInt d.balance.rub + amount))

def withdrawUSD (d : UserData) (amount : UInt64) : UserData :=
  d.setUsd (narrow (UInt64.ofInt d.balance.usd - amount))

def withdrawRUB (d : UserData) (amount : UInt64) : UserData :=
  d.setRub (narrow (UInt64.ofInt d.balance.rub - amount))

/-! Which fields each of them touches. -/

@[simp] theorem addOffer_id (d : UserData) (p : Nat) : (d.addOffer p).id = d.id := rfl
@[simp] theorem addDeal_id (d : UserData) (x : Deal) : (d.addDeal x).id = d.id := rfl
@[simp] theorem setUsd_id (d : UserData) (x : Int) : (d.setUsd x).id = d.id := rfl
@[simp] theorem setRub_id (d : UserData) (x : Int) : (d.setRub x).id = d.id := rfl
theorem depositUSD_id (d : UserData) (a : UInt64) : (d.depositUSD a).id = d.id := by
  rw [depositUSD, setUsd_id]
theorem depositRUB_id (d : UserData) (a : UInt64) : (d.depositRUB a).id = d.id := by
  rw [depositRUB, setRub_id]
theorem withdrawUSD_id (d : UserData) (a : UInt64) : (d.withdrawUSD a).id = d.id := by
  rw [withdrawUSD, setUsd_id]
theorem withdrawRUB_id (d : UserData) (a : UInt64) : (d.withdrawRUB a).id = d.id := by
  rw [withdrawRUB, setRub_id]

/-- `RemoveActiveOffer` answers whether the id was in the set, and erases it. -/
theorem removeActiveOffer_eq (d : UserData) (offerId : Nat) :
    d.removeActiveOffer offerId =
      (d.activeOffers.contains offerId,
        { d with activeOffers := d.activeOffers.erase offerId }) := by
  unfold removeActiveOffer KeySet.contains
  cases h : d.activeOffers.find? offerId with
  | none =>
    have he : d.activeOffers.erase offerId = d.activeOffers := KeySet.erase_of_find?_eq_none h
    simp [he]
  | some p =>
    have hk : p = offerId := (KeySet.find?_eq_some.mp h).2
    simp [hk]

@[simp] theorem removeActiveOffer_id (d : UserData) (p : Nat) :
    (d.removeActiveOffer p).2.id = d.id := by
  rw [removeActiveOffer_eq]

end UserData

end ForexMarket
