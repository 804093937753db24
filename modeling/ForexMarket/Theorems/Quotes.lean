import Mathlib.Order.Bounds.Basic
import ForexMarket.Theorems.Priority

/- What the quote queries return: the least price of the live BUY offers and the greatest
   of the live SELL offers, whatever dead entries the books hold, with a positive spread
   when both are there. An incoming offer takes the live offers of a book from the other
   end, so its first deal is at the quote only where all live offers have one price. -/
namespace ForexMarket

open Reference (crosses)

namespace Market

/-- The prices of the live offers of a type. -/
def livePrices (s : Market) (t : OfferType) : Set Int :=
  {k | ∃ v ∈ s.liveOffers, v.type = t ∧ v.price = k}

/-- `quote` is the price of the book's live offers that an incoming offer reaches last, and
`first` the price it reaches first. -/
def Reaches (s : Market) (t : OfferType) (quote first : Int) : Prop :=
  match t with
  | .BUY => IsLeast (s.livePrices .BUY) quote ∧ IsGreatest (s.livePrices .BUY) first
  | .SELL => IsGreatest (s.livePrices .SELL) quote ∧ IsLeast (s.livePrices .SELL) first

/-- What `GetAskBidQuotes` is to return. -/
structure QuotesOk (s : Market) (q : AskBidQuotesInfo) : Prop where
  ask_none : q.askQuote = none ↔ s.livePrices .BUY = ∅
  ask : ∀ k, q.askQuote = some k → IsLeast (s.livePrices .BUY) k
  bid_none : q.bidQuote = none ↔ s.livePrices .SELL = ∅
  bid : ∀ k, q.bidQuote = some k → IsGreatest (s.livePrices .SELL) k
  spread : q.spread.isSome ↔ q.askQuote.isSome ∧ q.bidQuote.isSome
  positive : ∀ ask bid, q.askQuote = some ask → q.bidQuote = some bid → ask < bid

end Market

open Market

variable {s : Market} {a : Reference} {t : OfferType}

theorem Stands.mem_livePrices (h : Stands s a) {k : Int} :
    k ∈ s.livePrices t ↔ ∃ v ∈ a.live, v.type = t ∧ v.price = k := by
  simp only [livePrices, Set.mem_ofPred_eq, h.mem_liveOffers]

/-- The reference has a quote where it has a live offer of the type. -/
theorem Stands.quoteOf_none (h : Stands s a) : a.quoteOf t = none ↔ s.livePrices t = ∅ := by
  rw [Set.eq_empty_iff_forall_notMem]
  constructor
  · intro hq k hk
    obtain ⟨v, hv, ht, rfl⟩ := h.mem_livePrices.mp hk
    have hmem : v.price ∈ (a.live.elems.filter (fun o => o.type = t)).map OfferView.price :=
      List.mem_map.mpr ⟨v, List.mem_filter.mpr ⟨hv, by simpa using ht⟩, rfl⟩
    have hnil : (a.live.elems.filter (fun o => o.type = t)).map OfferView.price = [] := by
      cases t with
      | BUY => exact List.min?_eq_none_iff.mp hq
      | SELL => exact List.max?_eq_none_iff.mp hq
    rw [hnil] at hmem
    cases hmem
  · intro hempty
    apply Reference.quoteOf_eq_none
    intro v hv ht
    exact hempty v.price (h.mem_livePrices.mpr ⟨v, hv, ht, rfl⟩)

theorem Stands.askQuote_least (h : Stands s a) {k : Int} (hk : a.askQuote = some k) :
    IsLeast (s.livePrices .BUY) k := by
  obtain ⟨hmem, hle⟩ := List.min?_eq_some_iff.mp hk
  obtain ⟨v, hv, rfl⟩ := List.mem_map.mp hmem
  obtain ⟨hv, ht⟩ := List.mem_filter.mp hv
  refine ⟨h.mem_livePrices.mpr ⟨v, hv, by simpa using ht, rfl⟩, ?_⟩
  intro k' hk'
  obtain ⟨w, hw, hwt, rfl⟩ := h.mem_livePrices.mp hk'
  exact hle w.price (List.mem_map.mpr ⟨w, List.mem_filter.mpr ⟨hw, by simpa using hwt⟩, rfl⟩)

theorem Stands.bidQuote_greatest (h : Stands s a) {k : Int} (hk : a.bidQuote = some k) :
    IsGreatest (s.livePrices .SELL) k := by
  obtain ⟨hmem, hle⟩ := List.max?_eq_some_iff.mp hk
  obtain ⟨v, hv, rfl⟩ := List.mem_map.mp hmem
  obtain ⟨hv, ht⟩ := List.mem_filter.mp hv
  refine ⟨h.mem_livePrices.mpr ⟨v, hv, by simpa using ht, rfl⟩, ?_⟩
  intro k' hk'
  obtain ⟨w, hw, hwt, rfl⟩ := h.mem_livePrices.mp hk'
  exact hle w.price (List.mem_map.mpr ⟨w, List.mem_filter.mpr ⟨hw, by simpa using hwt⟩, rfl⟩)

/-- A live BUY price is below a live SELL price. -/
theorem Stands.livePrices_lt (h : Stands s a) {b c : Int} (hb : b ∈ s.livePrices .BUY)
    (hc : c ∈ s.livePrices .SELL) : b < c := by
  obtain ⟨v, hv, hvt, rfl⟩ := h.mem_livePrices.mp hb
  obtain ⟨w, hw, hwt, rfl⟩ := h.mem_livePrices.mp hc
  have hvq := h.in_book hv
  have hwq := h.in_book hw
  rw [hvt] at hvq
  rw [hwt] at hwq
  exact h.inv.uncrossed v.price w.price (List.ne_nil_of_mem hvq) (List.ne_nil_of_mem hwq)

theorem Stands.quotesOk (h : Stands s a) :
    s.QuotesOk { askQuote := a.askQuote, bidQuote := a.bidQuote,
                 spread := spreadOf a.askQuote a.bidQuote } where
  ask_none := h.quoteOf_none (t := .BUY)
  ask _ hk := h.askQuote_least hk
  bid_none := h.quoteOf_none (t := .SELL)
  bid _ hk := h.bidQuote_greatest hk
  spread := by cases a.askQuote <;> cases a.bidQuote <;> simp [spreadOf]
  positive _ _ hask hbid :=
    h.livePrices_lt (h.askQuote_least hask).1 (h.bidQuote_greatest hbid).1

/-- What the call returns. -/
theorem Stands.getAskBidQuotes (h : Stands s a) :
    ∃ s', s.getAskBidQuotes =
      (.ok { askQuote := a.askQuote, bidQuote := a.bidQuote,
             spread := spreadOf a.askQuote a.bidQuote }, s') := by
  obtain ⟨s₁, hask, hi₁, hs₁⟩ := determineQuote_spec .BUY h.inv h.sim
  obtain ⟨s₂, hbid, -⟩ := determineQuote_spec .SELL hi₁ hs₁
  refine ⟨s₂, ?_⟩
  simp only [Market.getAskBidQuotes, hask, hbid]
  rfl

/-- The quotes of every reachable market are the extreme prices of its live offers. -/
theorem quotes_correct (hs : s.Reachable) :
    ∃ q s', s.getAskBidQuotes = (.ok q, s') ∧ s.QuotesOk q := by
  obtain ⟨a, h⟩ := hs.stands
  obtain ⟨s', hquotes⟩ := h.getAskBidQuotes
  exact ⟨_, s', hquotes, h.quotesOk⟩

theorem sample_quotes : ∃ q s', Market.sample.getAskBidQuotes = (.ok q, s') ∧
    Market.sample.QuotesOk q :=
  quotes_correct Market.sample_reachable

/-! The quotes and the first deal. -/

/-- The trades of a call start with the best offer. -/
theorem Reference.Matches.head {a a' : Reference} {o r : OfferView} {ts : List TradeView}
    (h : Matches a o ts a') (hr : a.best? o = some r) : ∃ rest, ts = a.tradeOf o r :: rest := by
  cases h with
  | rest hnone => rw [hr] at hnone; cases hnone
  | fill hbest =>
    rw [hr] at hbest
    cases hbest
    exact ⟨[], rfl⟩
  | more hbest _ _ =>
    rw [hr] at hbest
    cases hbest
    exact ⟨_, rfl⟩

/-- The offer a post takes first has the price that an incoming offer reaches first, and the quote
is the price it reaches last. -/
theorem Stands.reaches (h : Stands s a) {o r : OfferView} (ho : o.type = t.opposite)
    (hr : a.best? o = some r) {k : Int} (hk : a.quoteOf t = some k) : s.Reaches t k r.price := by
  obtain ⟨hlive, hrt, hcross, hbest⟩ := Reference.best?_spec hr
  rw [ho] at hrt hcross hbest
  cases t with
  | BUY =>
    refine ⟨h.askQuote_least hk, h.mem_livePrices.mpr ⟨r, hlive, hrt, rfl⟩, ?_⟩
    intro k' hk'
    obtain ⟨v, hv, hvt, rfl⟩ := h.mem_livePrices.mp hk'
    simp only [OfferType.opposite, crosses, Reference.rank, Prod.Lex.toLex_le_toLex] at hcross hbest
    by_contra hlt
    have hle := hbest v hv hvt (by omega)
    omega
  | SELL =>
    refine ⟨h.bidQuote_greatest hk, h.mem_livePrices.mpr ⟨r, hlive, hrt, rfl⟩, ?_⟩
    intro k' hk'
    obtain ⟨v, hv, hvt, rfl⟩ := h.mem_livePrices.mp hk'
    simp only [OfferType.opposite, crosses, Reference.rank, Prod.Lex.toLex_le_toLex] at hcross hbest
    by_contra hlt
    have hle := hbest v hv hvt (by omega)
    omega

/-- The two prices are one exactly where all live offers of the type have one price. -/
theorem Market.Reaches.eq_iff {quote first : Int} (h : s.Reaches t quote first) :
    first = quote ↔ ∀ v ∈ s.liveOffers, v.type = t → v.price = quote := by
  have hprice : ∀ v ∈ s.liveOffers, v.type = t → v.price ∈ s.livePrices t :=
    fun v hv ht => ⟨v, hv, ht, rfl⟩
  have hfirst : first ∈ s.livePrices t := by
    cases t with
    | BUY => exact h.2.1
    | SELL => exact h.2.1
  constructor
  · rintro rfl v hv ht
    have hv := hprice v hv ht
    cases t with
    | BUY => exact le_antisymm (h.2.2 hv) (h.1.2 hv)
    | SELL => exact le_antisymm (h.1.2 hv) (h.2.2 hv)
  · intro hall
    obtain ⟨v, hv, ht, rfl⟩ := hfirst
    exact hall v hv ht

/-- The quote of a book that has live offers is the price an incoming offer reaches last; every
crossing offer makes its first deal at the price it reaches first. -/
theorem quote_and_first_deal (hs : s.Reachable) (t : OfferType)
    (hlive : ∃ v ∈ s.liveOffers, v.type = t) :
    ∃ quote s', s.determineQuote t = (.ok (some quote), s') ∧
      ∀ u, (∃ d, s.users.find? u = some d) → ∀ price (amount : UInt64), 1 ≤ amount.toNat →
        (∃ v ∈ s.liveOffers, v.type = t ∧ crosses t.opposite price v.price) →
        ∃ x ts, (s.step (.postOffer u t.opposite price amount)).2.trades = s.trades ++ x :: ts ∧
          s.Reaches t quote x.deal.price ∧
          (x.deal.price = quote ↔ ∀ v ∈ s.liveOffers, v.type = t → v.price = quote) := by
  obtain ⟨a, h⟩ := hs.stands
  obtain ⟨s', hquote, -⟩ := determineQuote_spec t h.inv h.sim
  obtain ⟨quote, hq⟩ : ∃ quote, a.quoteOf t = some quote := by
    obtain ⟨v, hv, ht⟩ := hlive
    cases hq : a.quoteOf t with
    | some quote => exact ⟨quote, rfl⟩
    | none =>
      have hempty := h.quoteOf_none.mp hq
      exact absurd (show v.price ∈ s.livePrices t from ⟨v, hv, ht, rfl⟩) (by simp [hempty])
  refine ⟨quote, s', by rw [hquote, hq], ?_⟩
  intro u hu price amount _ hcross
  obtain ⟨-, tsv, a', h', hm⟩ := h.posted hu t.opposite price amount
  -- some live offer qualifies, so the reference takes one first
  obtain ⟨r, hr⟩ : ∃ r, Reference.best? { a with offerId := a.offerId + 1 }
      { id := s.offerId, ownerId := u, type := t.opposite, price := price,
        amount := amount.toNat } = some r := by
    obtain ⟨v, hv, hvt, hvc⟩ := hcross
    refine Option.ne_none_iff_exists'.mp fun hnone => ?_
    have hnot := Select.best?_eq_none.mp hnone v (h.mem_liveOffers.mp hv)
    refine Bool.false_ne_true (hnot.symm.trans (decide_eq_true ⟨?_, hvc⟩))
    rw [hvt]
    cases t <;> rfl
  obtain ⟨rest, rfl⟩ := hm.head hr
  obtain ⟨ts, hts, hview⟩ := h.new_trades h' hm.trades_eq
  obtain ⟨x, ts, rfl, hx, -⟩ := List.map_eq_cons_iff.mp hview
  have hprice : x.deal.price = r.price := congrArg (fun v => v.deal.price) hx
  have hreach : s.Reaches t quote x.deal.price := by
    rw [hprice]
    exact h.reaches rfl hr hq
  exact ⟨x, ts, hts, hreach, hreach.eq_iff⟩

/-- Two BUY offers, at 60 and at 70. -/
def Market.twoBids : Market :=
  (Market.empty 0 0 0).run [.registerUser "seller" false, .registerUser "buyer" false,
    .postOffer 1 .BUY 60 1, .postOffer 1 .BUY 70 1]

theorem Market.twoBids_reachable : Market.twoBids.Reachable := ⟨0, 0, 0, _, rfl⟩

theorem twoBids_quote_and_first_deal :
    ∃ quote s' x ts, Market.twoBids.determineQuote .BUY = (.ok (some quote), s') ∧
      (Market.twoBids.step (.postOffer 0 .SELL 60 1)).2.trades =
        Market.twoBids.trades ++ x :: ts ∧
      Market.twoBids.Reaches .BUY quote x.deal.price := by
  obtain ⟨quote, s', hquote, hpost⟩ := quote_and_first_deal Market.twoBids_reachable .BUY
    ⟨_, List.mem_cons_self, rfl⟩
  obtain ⟨x, ts, hts, hreach, -⟩ := hpost 0 ⟨_, rfl⟩ 60 1 (by decide)
    ⟨_, List.mem_cons_self, rfl, by decide⟩
  exact ⟨quote, s', x, ts, hquote, hts, hreach⟩

/-- The quote is 60, and a SELL at 60 makes its first deal at 70. -/
theorem twoBids_quote_ne_first_deal :
    Market.twoBids.Reachable ∧ (Market.twoBids.determineQuote .BUY).1 = .ok (some 60) ∧
      (Market.twoBids.step (.postOffer 0 .SELL 60 1)).2.trades.map (fun x => x.deal.price) =
        [70] :=
  ⟨Market.twoBids_reachable, by decide, by decide⟩

end ForexMarket
