import ForexMarket.Proofs.Correspondence
import ForexMarket.Spec.Splitting

/- One offer against two that share its amount: the market that the two posts leave agrees
   with the one that the single post leaves on what every user holds, on the quote, on all
   older offers and on the amount each owner has at each price of each side. -/
namespace ForexMarket

open Wrap
open Reference (Agree Even levelTotal)

namespace Market

/-- The amount that a user's live offers have at a price on a side. -/
def levelTotal (s : Market) (type : OfferType) (price : Int) (u : Nat) : Nat :=
  Reference.levelTotal s.liveOffers type price u

/-- The two markets agree on everything but offers with ids from `k` on, whose total amounts they
agree on. -/
structure AgreeBelow (k : Nat) (s s' : Market) : Prop where
  balance : ∀ v, (s.users.find? v).map UserData.balance = (s'.users.find? v).map UserData.balance
  quote : (s.step .getQuote).1 = (s'.step .getQuote).1
  older : ∀ v : OfferView, v.id < k → (v ∈ s.liveOffers ↔ v ∈ s'.liveOffers)
  totals : ∀ type price v, s.levelTotal type price v = s'.levelTotal type price v

end Market

variable {s s' : Market} {a a' : Reference}

/-- The balance a user holds is the wrap of what the account holds. -/
theorem Stands.balance_eq (h : Stands s a) (v : Nat) :
    (s.users.find? v).map UserData.balance =
      ((a.accounts v).map Account.holdings).map fun x => ⟨wrap32 x.1, wrap32 x.2⟩ := by
  cases hd : s.users.find? v with
  | none => rw [h.sim.account_none hd]; rfl
  | some d =>
    obtain ⟨x, hx, hagrees⟩ := h.sim.account_some hd
    rw [hx, Option.map_some, Option.map_some, Option.map_some]
    have husd := hagrees.usd
    have hrub := hagrees.rub
    cases hb : d.balance with
    | mk usd rub =>
      rw [hb] at husd hrub
      simp only [Account.holdings, ← husd, ← hrub]

theorem Stands.levelTotal_eq (h : Stands s a) (type : OfferType) (price : Int) (v : Nat) :
    s.levelTotal type price v = Reference.levelTotal a.live.elems type price v :=
  Sums.sumWhere_perm h.liveOffers_perm

/-- Markets that stand for references which agree, agree. -/
theorem Stands.agreeBelow (h : Stands s a) (h' : Stands s' a') {k : Nat} (hagree : Agree k a a') :
    Market.AgreeBelow k s s' where
  balance v := by rw [h.balance_eq, h'.balance_eq, hagree.holdings]
  quote := by rw [h.reply_eq, h'.reply_eq, Reference.step, Reference.step, hagree.quote]
  older v hv := by rw [h.mem_liveOffers, h'.mem_liveOffers, hagree.older v hv]
  totals type price v := by rw [h.levelTotal_eq, h'.levelTotal_eq, hagree.totals]

/-- A post of a registered user, in the reference. -/
theorem Reference.step_postOffer {u : Nat} {x : Account} (hx : a.accounts u = some x)
    (type : OfferType) (price : Int) (amount : UInt64) :
    (a.step (.postOffer u type price amount)).2 =
      ({ a with offerId := a.offerId + 1 } : Reference).matchOffer
        { id := a.offerId, ownerId := u, type := type, price := price,
          amount := amount.toNat } := by
  simp only [Reference.step, hx]

/-- An offer, and the same amount posted in two parts. -/
theorem Reference.step_parts (hw : a.WellFormed) {u : Nat} (hu : (a.accounts u).isSome)
    (type : OfferType) (price : Int) {m n : UInt64} (hn : 1 ≤ n.toNat)
    (hsum : m.toNat + n.toNat < 2 ^ 64) :
    Agree a.offerId (a.step (.postOffer u type price (m + n))).2
      ((a.step (.postOffer u type price m)).2.step (.postOffer u type price n)).2 := by
  have hu' : (((a.step (.postOffer u type price m)).2).accounts u).isSome :=
    ((a.step_users _).2 u).mpr (.inl hu)
  obtain ⟨x, hx⟩ := Option.isSome_iff_exists.mp hu
  obtain ⟨y, hy⟩ := Option.isSome_iff_exists.mp hu'
  rw [step_postOffer hy, step_postOffer hx, step_postOffer hx]
  obtain ⟨ts, hmatches⟩ := matchOffer_matches { a with offerId := a.offerId + 1 }
    { id := a.offerId, ownerId := u, type := type, price := price, amount := m.toNat }
  rw [hmatches.counters.1]
  have hamount : (m + n).toNat = m.toNat + n.toNat := by
    rw [UInt64.toNat_add, Nat.mod_eq_of_lt hsum]
  rw [hamount]
  exact agree_parts (a := { a with offerId := a.offerId + 1 })
    (o := { id := a.offerId, ownerId := u, type := type, price := price, amount := m.toNat })
    (j := a.offerId + 1) ⟨rfl, fun _ => rfl, rfl⟩ hn hw.live_lt (Nat.le_refl a.offerId)
    (Nat.lt_succ_self a.offerId)

/-- Splitting an offer makes no difference. -/
theorem splitting_makes_no_difference (hs : s.Reachable) {u : Nat}
    (hu : ∃ d, s.users.find? u = some d) (type : OfferType) (price : Int) {a b : UInt64}
    (hb : 1 ≤ b.toNat) (hsum : a.toNat + b.toNat < 2 ^ 64) :
    Market.AgreeBelow s.offerId (s.step (.postOffer u type price (a + b))).2
      (s.run [.postOffer u type price a, .postOffer u type price b]) := by
  obtain ⟨r, h⟩ := hs.stands
  have hone := h.step (.postOffer u type price (a + b))
  have htwo := (h.step (.postOffer u type price a)).step (.postOffer u type price b)
  rw [h.sim.offerId]
  exact hone.agreeBelow htwo
    (Reference.step_parts h.wf ((h.registered_iff u).mp hu) type price hb hsum)

/-- In the small market, a BUY of 7 at 12 takes all of the SELL at 11 and most of the one at 12; in
parts of 2 and 5 the cut is inside the first. -/
theorem sample_splitting :
    Market.AgreeBelow Market.sample.offerId (Market.sample.step (.postOffer 1 .BUY 12 (2 + 5))).2
      (Market.sample.run [.postOffer 1 .BUY 12 2, .postOffer 1 .BUY 12 5]) :=
  splitting_makes_no_difference (u := 1) (a := 2) (b := 5) Market.sample_reachable ⟨_, rfl⟩ .BUY 12
    (by decide) (by decide)

end ForexMarket
