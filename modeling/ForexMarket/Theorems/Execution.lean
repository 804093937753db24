import ForexMarket.Model.Store
import ForexMarket.Proofs.Correspondence
import ForexMarket.Spec.Execution

/- Best execution. A post trades as much as it asks for and as may be traded within its limit,
   and pays the least, or is paid the most, that so much can be had for: no other choice of
   resting offers, in whole or in part, does better. -/
namespace ForexMarket

open Reference (matchable)

/-- The live offers that a post of this type and limit may trade with. -/
def Market.crossing (s : Market) (type : OfferType) (price : Int) : List OfferView :=
  s.liveOffers.filter fun v =>
    v.type = type.opposite ∧ Reference.crosses type price v.price

/-- The deals are the best ones for a post of this type, limit and amount: they trade all they can,
and no allocation of as much to the offers there were costs less. -/
structure Market.Best (s : Market) (type : OfferType) (price : Int) (amount : Nat)
    (deals : List Deal) : Prop where
  amount : (deals.map fun d => d.amount.toNat).sum =
    min amount ((s.crossing type price).map OfferView.amount).sum
  cost : ∀ x : OfferView → Nat, (∀ v ∈ s.crossing type price, x v ≤ v.amount) →
    ((s.crossing type price).map x).sum = (deals.map fun d => d.amount.toNat).sum →
      (deals.map fun d => d.amount.toNat * type.cost d.price).sum ≤
        ((s.crossing type price).map fun v => x v * type.cost v.price).sum

variable {s : Market} {a : Reference}

theorem Stands.crossing_perm (h : Stands s a) {o : OfferView} :
    (s.crossing o.type o.price).Perm (a.crossing o) :=
  h.liveOffers_perm.filter (matchable o)

/-- What is posted is executed as well as the offers there are allow. -/
theorem best_execution (h : s.Reachable) {u : Nat} (hu : ∃ d, s.users.find? u = some d)
    (type : OfferType) (price : Int) (amount : UInt64) :
    s.Best type price amount.toNat
      (s.dealsSince (s.step (.postOffer u type price amount)).2) := by
  obtain ⟨a, hs⟩ := h.stands
  obtain ⟨-, ts, a', hs', hm⟩ := hs.posted hu type price amount
  obtain ⟨new, hnew, rfl⟩ := hs.new_trades hs' hm.trades_eq
  have hdeals : s.dealsSince (s.step (.postOffer u type price amount)).2 = new.map Trade.deal := by
    rw [Market.dealsSince, hnew, List.drop_left]
  have hperm := hs.crossing_perm (o := { id := s.offerId, ownerId := u, type := type,
                                         price := price, amount := amount.toNat })
  have htotal : ((new.map Trade.deal).map fun d => d.amount.toNat).sum =
      Reference.tradedTotal (new.map Trade.view) := by
    rw [Reference.tradedTotal, List.map_map, List.map_map]
    rfl
  rw [hdeals]
  constructor
  · rw [htotal, hm.tradedTotal_eq, (hperm.map OfferView.amount).sum_eq]
    rfl
  · intro x hsupply hx
    have hcheapest := hm.cheapest (x := x) (fun v hv => hsupply v (hperm.mem_iff.mpr hv)) (by
      rw [← htotal, ← hx, (hperm.map x).sum_eq]
      rfl)
    rw [List.map_map] at hcheapest
    rw [List.map_map, (hperm.map fun v => (x v : Int) * type.cost v.price).sum_eq]
    exact hcheapest

/-- Of three SELL offers a BUY takes the two cheaper ones. -/
def threeSells : Market :=
  (Market.empty 0 0 0).run [.registerUser "seller" false, .registerUser "buyer" false,
    .postOffer 0 .SELL 9 4, .postOffer 0 .SELL 7 2, .postOffer 0 .SELL 8 3]

theorem threeSells_best :
    threeSells.Best .BUY 10 6
      (threeSells.dealsSince (threeSells.step (.postOffer 1 .BUY 10 6)).2) :=
  best_execution (s := threeSells) ⟨0, 0, 0, _, rfl⟩ (u := 1)
    (Option.isSome_iff_exists.mp (by decide)) .BUY 10 6

end ForexMarket
