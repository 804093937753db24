import ForexMarket.Proofs.Updates
import ForexMarket.Theorems.Quotes

/- When the arithmetic of the accounts does not wrap. In a run without deposits every
   balance update of `RegisterDeal` stores the exact integer, and every spread is an
   `int`, exactly when the deals the calls lead to fit one after the other and the live
   prices are never too far apart at a query. Both conditions are read off the reference,
   which has neither machine integers nor balances that wrap. -/
namespace ForexMarket

open Market Wrap
open Reference (DealsFit Undeposited)

namespace Reference

/-- At a quote query, no live SELL offer is 2^31 or more above a live BUY offer. -/
def SpreadFits (a : Reference) : Op → Prop
  | .getAskBidQuotes => ∀ v ∈ a.live, ∀ w ∈ a.live, v.type = .BUY → w.type = .SELL →
      w.price - v.price < 2 ^ 31
  | _ => True

end Reference

variable {s : Market} {a : Reference}

theorem Stands.exactSpread_iff (h : Stands s a) (op : Op) :
    s.ExactSpread op ↔ a.SpreadFits op := by
  cases op with
  | getAskBidQuotes =>
    obtain ⟨s', hquotes⟩ := h.getAskBidQuotes
    have hok := h.quotesOk
    simp only [ExactSpread, hquotes, Reference.SpreadFits]
    constructor
    · intro hfits v hv w hw hvt hwt
      have hvp : v.price ∈ s.livePrices .BUY := h.mem_livePrices.mpr ⟨v, hv, hvt, rfl⟩
      have hwp : w.price ∈ s.livePrices .SELL := h.mem_livePrices.mpr ⟨w, hw, hwt, rfl⟩
      obtain ⟨ask, hask⟩ : ∃ ask, a.askQuote = some ask :=
        Option.ne_none_iff_exists'.mp fun e =>
          Set.notMem_empty v.price (hok.ask_none.mp e ▸ hvp)
      obtain ⟨bid, hbid⟩ : ∃ bid, a.bidQuote = some bid :=
        Option.ne_none_iff_exists'.mp fun e =>
          Set.notMem_empty w.price (hok.bid_none.mp e ▸ hwp)
      have hle := (h.askQuote_least hask).2 hvp
      have hge := (h.bidQuote_greatest hbid).2 hwp
      have hspread := (hfits ask hask bid hbid).2
      omega
    · intro hfits ask hask bid hbid
      obtain ⟨v, hv, hvt, rfl⟩ := h.mem_livePrices.mp (h.askQuote_least hask).1
      obtain ⟨w, hw, hwt, rfl⟩ := h.mem_livePrices.mp (h.bidQuote_greatest hbid).1
      have hlt := hfits v hv w hw hvt hwt
      have hpos := hok.positive v.price w.price hask hbid
      exact ⟨by omega, hlt⟩
  | _ => exact Iff.rfl

/-- In a run without deposits no account update and no spread wraps exactly when the deals of the
reference fit and its live prices are near enough at each query. -/
theorem arithmetic_exact_iff (offerId dealId userId : Nat) (ops : List Op)
    (hops : ops.all Op.served = true) :
    ((∀ e ∈ (Market.empty offerId dealId userId).allRegisters ops, e.1.ExactUpdates e.2) ∧
      Machine.Along Market.step ExactSpread (Market.empty offerId dealId userId) ops) ↔
    (DealsFit []
        (Machine.exec Reference.step (Reference.empty offerId dealId userId) ops).dealList ∧
      Machine.Along Reference.step Reference.SpreadFits
        (Reference.empty offerId dealId userId) ops) := by
  have h := Stands.empty offerId dealId userId
  have hacc : (Reference.empty offerId dealId userId).Undeposited := by
    intro u x hx
    cases hx
  obtain ⟨hbooked, hlist⟩ := allRegisters_spec h hacc hops
  have hnil : (Reference.empty offerId dealId userId).dealList = [] := rfl
  rw [hnil] at hbooked hlist
  rw [hlist, List.nil_append]
  apply and_congr
  · exact hbooked.exact_iff Reference.balancesFit_nil
  · exact Machine.along_iff_of_sim (R := Stands) (fun _ _ op h => h.exactSpread_iff op)
      (fun _ _ op h => h.step op) h ops

instance (a : Reference) (op : Op) : Decidable (a.SpreadFits op) :=
  match op with
  | .getAskBidQuotes => inferInstanceAs (Decidable (∀ v ∈ a.live, ∀ w ∈ a.live, _ → _ → _))
  | .registerUser .. | .depositUSD .. | .depositRUB .. | .getUserBalance _ | .getActiveOffers _
  | .getClosedDeals _ | .postOffer .. | .removeOffer .. | .getQuote => .isTrue trivial

/-- Two users trade with each other, the first one with himself, and both sides of the book are
quoted. -/
def quotedTrades : List Op :=
  [.registerUser "seller" false, .registerUser "buyer" false, .postOffer 0 .SELL 10 4,
    .postOffer 1 .BUY 10 3, .postOffer 0 .BUY 11 5, .postOffer 1 .SELL 12 2, .getAskBidQuotes]

theorem sample_arithmetic_exact :
    ((∀ e ∈ (Market.empty 0 0 0).allRegisters quotedTrades, e.1.ExactUpdates e.2) ∧
      Machine.Along Market.step ExactSpread (Market.empty 0 0 0) quotedTrades) ∧
    ((Market.empty 0 0 0).allRegisters quotedTrades).map (fun e => (e.2.buyerId, e.2.sellerId)) =
      [(1, 0), (0, 0)] ∧
    (Machine.outputs Market.step (Market.empty 0 0 0) quotedTrades).getLast? =
      some (.quotes { askQuote := some 11, bidQuote := some 12, spread := some 1 }) :=
  ⟨(arithmetic_exact_iff 0 0 0 quotedTrades (by decide)).mpr
    ⟨by decide +kernel, by decide +kernel⟩, by decide, by decide⟩

/-- What the client lets a user enter: an amount from 1 to 2^31 - 1 and an `int` price. -/
def Op.entered : Op → Bool
  | .postOffer _ _ price amount => 1 ≤ amount.toNat ∧ amount.toNat < 2 ^ 31 ∧ Fits32 price
  | _ => true

/-- Two users and one deal of the largest amount at the largest price. -/
def largestDeal : List Op :=
  [.registerUser "seller" false, .registerUser "buyer" false,
    .postOffer 0 .SELL 2147483647 2147483647, .postOffer 1 .BUY 2147483647 2147483647]

/-- The cost of the deal is 2^62 - 2^32 + 1, and the RUB stored are -1 and 1. -/
theorem largestDeal_wraps :
    largestDeal.all Op.served = true ∧ largestDeal.all Op.entered = true ∧
      ¬ ∀ e ∈ (Market.empty 0 0 0).allRegisters largestDeal, e.1.ExactUpdates e.2 := by
  decide

end ForexMarket
