import ForexMarket.Proofs.Names
import ForexMarket.Spec.Bystander
import ForexMarket.Theorems.Ledger

/- What other users' calls change in the data of a user who stands by, on the market: the
   balance and the closed deals follow the new deals of the user, the active offers lose
   what those deals took, and the name stays. -/
namespace ForexMarket

open Wrap
open Reference (Stood Left Rested usdOf rubOf)

/-- From `s` to `s'` the trades `new` were made, and nothing else happened to user `u`, whose data
was `d` and is `d'`. -/
structure Market.StoodBy (u : Nat) (s s' : Market) (d d' : UserData) (new : List Trade) :
    Prop where
  trades : s'.trades = s.trades ++ new
  username : d'.username = d.username
  usd : d'.balance.usd = wrap32 (d.balance.usd + usdOf u (new.map fun t => t.deal.view))
  rub : d'.balance.rub = wrap32 (d.balance.rub + rubOf u (new.map fun t => t.deal.view))
  closedDeals : d'.closedDeals.elems = d.closedDeals.elems ++
    (new.map Trade.deal).filter (fun x => u = x.buyerId ∨ u = x.sellerId)
  offers : ∀ v, v ∈ s'.activeViews d' ↔ ∃ w ∈ s.activeViews d, Left (new.map Trade.view) w v
  deals : ∀ t ∈ new, t.deal.buyerId = u ∨ t.deal.sellerId = u →
    ∃ w ∈ s.activeViews d, Rested u t.view w

theorem Stands.mem_activeViews {s : Market} {a : Reference} (h : Stands s a) {u : Nat}
    {d : UserData} (hd : s.users.find? u = some d) {v : OfferView} :
    v ∈ s.activeViews d ↔ v ∈ a.live ∧ v.ownerId = u := by
  rw [activeViews_eq h.inv h.sim hd, List.mem_filter, decide_eq_true_eq]
  rfl

/-- A user stands by on the market as on the reference. -/
theorem Stands.stoodBy {s s' : Market} {a a' : Reference} {u : Nat} {d : UserData}
    {ts : List TradeView} (h : Stands s a) (h' : Stands s' a') (hst : Stood u a a' ts)
    (hnames : s.NamesKept s') (hd : s.users.find? u = some d) :
    ∃ d' new, s'.users.find? u = some d' ∧ s.StoodBy u s' d d' new := by
  obtain ⟨new, hnew, hview⟩ := h.new_trades h' hst.trades
  obtain ⟨x, hx, hag⟩ := h.sim.account_some hd
  have haccount := hst.account
  rw [hx, Option.map_some] at haccount
  obtain ⟨d', hd', hname⟩ := hnames u d hd
  obtain ⟨y, hy, hag'⟩ := h'.sim.account_some hd'
  obtain rfl : x.afterDeals u (ts.map TradeView.deal) = y :=
    Option.some.inj (haccount.symm.trans hy)
  obtain ⟨husd, hrub, -⟩ := Reference.afterDeals_eq u x (ts.map TradeView.deal)
  have hdeals : ts.map TradeView.deal = new.map fun t => t.deal.view := by
    rw [← hview, List.map_map]
    rfl
  refine ⟨d', new, hd', hnew, hname, ?_, ?_, ?_, fun v => ?_, fun t ht hparty => ?_⟩
  · rw [hag'.usd, hag.usd, husd, hdeals, wrap32_add]
  · rw [hag'.rub, hag.rub, hrub, hdeals, wrap32_add]
  · rw [h'.deals hd', h.deals hd, hnew, List.map_append, List.filter_append]
  · rw [h'.mem_activeViews hd', hst.offers, hview]
    simp only [h.mem_activeViews hd, and_assoc]
  · obtain ⟨w, hw, hu, hrested⟩ := hst.deals t.view (hview ▸ List.mem_map_of_mem ht) hparty
    exact ⟨w, (h.mem_activeViews hd).mpr ⟨hw, hu⟩, hrested⟩

end ForexMarket
