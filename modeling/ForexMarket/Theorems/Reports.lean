import ForexMarket.Proofs.Messages
import ForexMarket.Spec.Command
import ForexMarket.Theorems.BookInvariant
import ForexMarket.Theorems.Ledger

/- What the server reports to its clients. A client that reads the closed deals of a user
   finds every deal of the user once, under the user's role in it and in the order the
   deals were made, and the balance follows from that reply alone; the active offers are
   the entries of the book that an incoming offer can still meet. -/
namespace ForexMarket

open Sums Wrap
open Reference (bought sold paid earned Undeposited IntPrices)

/-! What a client reads. -/

/-- The document a client receives. -/
def received (r : Except Exception Bytes) : Option Json := r.toOption.bind Json.parse

namespace Report

/-- The objects in an array of the reply. -/
def list (key : Bytes) (reply : Json) : List Json :=
  match reply.at' key with
  | .ok (.array elems) => elems
  | _ => []

/-- A number of an object. -/
def number (key : Bytes) (v : Json) : Int :=
  match v.at' key with
  | .ok (.int n) => n
  | _ => 0

def amount (v : Json) : Int := number jsonField.amount v

def cost (v : Json) : Int := amount v * number jsonField.price v

/-- The USD balance that a list of closed deals comes to. -/
def usd (reply : Json) : Int :=
  ((list jsonField.buy reply).map amount).sum - ((list jsonField.sell reply).map amount).sum

/-- The RUB balance that a list of closed deals comes to. -/
def rub (reply : Json) : Int :=
  ((list jsonField.sell reply).map cost).sum - ((list jsonField.buy reply).map cost).sum

/-- The object of a deal. -/
def deal (d : Deal) : Json :=
  .object [(jsonField.amount, .int d.amount.toNat), (jsonField.price, .int d.price)]

/-- The object of an offer; ids are reported as 64-bit words. -/
def offer (o : OfferView) : Json :=
  .object [(jsonField.amount, .int o.amount), (jsonField.offerId, .int (o.id % 2 ^ 64 : Nat)),
    (jsonField.price, .int o.price)]

end Report

namespace Market

/-- The deals made, in the order they were made. -/
def dealsMade (s : Market) : List Deal := s.trades.map Trade.deal

/-- The deals a user is a party of. -/
def dealsWith (s : Market) (u : Nat) : List Deal :=
  s.dealsMade.filter fun d => d.buyerId = u ∨ d.sellerId = u

/-- An entry of the book leads to the offer, and has not expired. -/
def Tradable (s : Market) (o : OfferView) : Prop :=
  ∃ q ∈ s.book o.type, q.price = o.price ∧ o.id ∈ q.offers ∧
    ∃ x, s.lock [] o.id = some x ∧ x.view = o

/-- The reply lists the deals of the user, each once and under the user's role. -/
structure DealsListed (s : Market) (u : Nat) (reply : Json) (buys sells both : List Deal) :
    Prop where
  buy : Report.list jsonField.buy reply = buys.map Report.deal
  sell : Report.list jsonField.sell reply = sells.map Report.deal
  buy_sell : Report.list jsonField.buySell reply = both.map Report.deal
  all : (buys ++ sells ++ both).Perm (s.dealsWith u)
  once : (s.dealsWith u).Pairwise (fun d d' => d.id < d'.id)
  buyer : ∀ d ∈ buys, d.buyerId = u ∧ d.sellerId ≠ u
  seller : ∀ d ∈ sells, d.sellerId = u ∧ d.buyerId ≠ u
  both_roles : ∀ d ∈ both, d.buyerId = u ∧ d.sellerId = u
  ordered : ∀ l ∈ [buys, sells, both], l.Sublist s.dealsMade

/-- The reply lists the offers of the user that can still be traded, each once and under its
type. -/
structure OffersListed (s : Market) (u : Nat) (reply : Json) (buys sells : List OfferView) :
    Prop where
  buy : Report.list jsonField.buy reply = buys.map Report.offer
  sell : Report.list jsonField.sell reply = sells.map Report.offer
  once : ∀ l ∈ [buys, sells], l.Pairwise (fun o o' => o.id < o'.id)
  buys_iff : ∀ o, o ∈ buys ↔ o.type = .BUY ∧ o.ownerId = u ∧ s.Tradable o
  sells_iff : ∀ o, o ∈ sells ↔ o.type = .SELL ∧ o.ownerId = u ∧ s.Tradable o

/-- The reports on a user agree with the market and with each other. -/
def ReportsAgree (s : Market) (u : Nat) : Prop :=
  ∃ deals balance offers,
    received (Serializer.getClosedDeals s u) = some deals ∧
    received (Serializer.getBalance s u) = some balance ∧
    received (Serializer.getActiveOffers s u) = some offers ∧
    (∃ buys sells both, s.DealsListed u deals buys sells both) ∧
    balance.at' jsonField.usd = .ok (.int (wrap32 (Report.usd deals))) ∧
    balance.at' jsonField.rub = .ok (.int (wrap32 (Report.rub deals))) ∧
    ∃ buys sells, s.OffersListed u offers buys sells

end Market

/-! The lists of a reply. -/

theorem received_replyOf {v : Json} (h : v.Writable) (hd : v.Delimited) :
    received (replyOf v) = some v := by
  obtain ⟨d, hv, hreply⟩ := replyOf_document h hd
  rw [hreply, ← hv]
  exact d.parse_bytes

theorem ofInt_of_fits {n : Int} (h : Fits32 n) : Json.ofInt n = .int n :=
  congrArg Json.int (wrap32_eq_self_iff.mpr h)

theorem dealObject_view {d : Deal} (h : Fits32 d.price) :
    Serializer.dealObject d.view = Report.deal d := by
  have hobject : Serializer.dealObject d.view = .object
      [(jsonField.amount, .ofUInt64 (.ofNat d.view.amount)),
        (jsonField.price, .ofInt d.view.price)] := rfl
  rw [hobject, Deal.view, ofInt_of_fits h, UInt64.ofNat_toNat]
  rfl

theorem offerObject_eq {o : OfferView} (h : Fits32 o.price) (ha : o.amount < 2 ^ 64) :
    Serializer.offerObject o = Report.offer o := by
  have hobject : Serializer.offerObject o = .object
      [(jsonField.amount, .ofUInt64 (.ofNat o.amount)),
        (jsonField.offerId, .ofUInt64 (.ofNat o.id)), (jsonField.price, .ofInt o.price)] := rfl
  rw [hobject, ofInt_of_fits h, Json.ofUInt64, Json.ofUInt64, UInt64.toNat_ofNat',
    UInt64.toNat_ofNat', Nat.mod_eq_of_lt ha]
  rfl


/-! The server keeps to such markets. -/

/-- The market stands for a reference where nothing was deposited and every price is an `int`. -/
structure StandsFor (s : Market) (a : Reference) : Prop extends Stands s a where
  undeposited : a.Undeposited
  prices : a.IntPrices

section Served

variable {δ : Type} (db : Database δ) {s : Server δ} {a : Reference}

/-- Serving a request keeps it. -/
theorem StandsFor.serve (h : StandsFor s.market a) (request : Json) :
    ∃ a', StandsFor (Session.serve db s request).2.market a' := by
  rw [Session.serve_eq]
  cases hc : Session.commandOf request with
  | error e => exact ⟨a, h⟩
  | ok c =>
    rw [Session.attempt_ok, Session.execute_market]
    cases hop : c.call (db.usernameExist s.db) with
    | none => exact ⟨a, h⟩
    | some op =>
      obtain ⟨hserved, hprice⟩ := Session.call_bounded hc hop
      exact ⟨_, h.step op, h.undeposited.move h.wf (a.step_moves op) hserved,
        h.prices.move (a.step_moves op) hprice⟩

/-- So does a run of the server, from an empty market on. -/
theorem StandsFor.run (offerId dealId userId : Nat) (table : δ) (requests : List Json) :
    ∃ a, StandsFor (Machine.exec (Session.serve db)
      { market := Market.empty offerId dealId userId, db := table } requests).market a := by
  apply Machine.exec_inv (I := fun s : Server δ => ∃ a, StandsFor s.market a)
  · exact fun s request ⟨a, h⟩ => h.serve db request
  · refine ⟨_, Stands.empty offerId dealId userId, ?_, Reference.IntPrices.empty _ _ _⟩
    intro u x hx
    cases hx

end Served

/-! The deals of a user. -/

namespace StandsFor

variable {s : Market} {a : Reference} {u : Nat} {d : UserData}

theorem dealList_eq (h : StandsFor s a) : a.dealList = s.dealsMade.map Deal.view := by
  rw [Reference.dealList, ← h.sim.trades, Market.dealsMade, List.map_map, List.map_map]
  rfl

theorem price_fits (h : StandsFor s a) {x : Deal} (hx : x ∈ s.dealsMade) : Fits32 x.price := by
  obtain ⟨t, ht, rfl⟩ := List.mem_map.mp hx
  exact h.prices.trades t.view (h.sim.trades ▸ List.mem_map_of_mem ht)

theorem closedDeals (h : StandsFor s a) (hd : s.users.find? u = some d) :
    d.closedDeals.elems = s.dealsWith u := by
  rw [h.deals hd]
  apply List.filter_congr
  intro x _
  simp only [eq_comm]

/-- The deals the reply lists in one of its arrays. -/
theorem listed (h : StandsFor s a) (hd : s.users.find? u = some d) {p : DealView → Prop}
    {q : Deal → Prop} [DecidablePred p] [DecidablePred q]
    (hpq : ∀ x, x.buyerId = u ∨ x.sellerId = u → (p x.view ↔ q x))
    (hq : ∀ x, q x → x.buyerId = u ∨ x.sellerId = u) :
    ((d.closedDeals.elems.map Deal.view).filter (fun x => p x)).map Serializer.dealObject =
      (s.dealsMade.filter (fun x => q x)).map Report.deal := by
  have hpick : (s.dealsWith u).filter ((fun x => decide (p x)) ∘ Deal.view) =
      s.dealsMade.filter (fun x => q x) := by
    rw [Market.dealsWith, List.filter_filter]
    apply List.filter_congr
    intro x _
    rw [Bool.eq_iff_iff, Bool.and_eq_true]
    simp only [Function.comp_apply, decide_eq_true_eq]
    exact ⟨fun hx => (hpq x hx.2).mp hx.1, fun hx => ⟨(hpq x (hq x hx)).mpr hx, hq x hx⟩⟩
  rw [h.closedDeals hd, List.filter_map, hpick, List.map_map]
  apply List.map_congr_left
  intro x hx
  exact dealObject_view (h.price_fits (List.mem_filter.mp hx).1)

theorem dealsListed (h : StandsFor s a) (hd : s.users.find? u = some d) :
    s.DealsListed u (Serializer.closedDealsReply u (d.closedDeals.elems.map Deal.view))
      (s.dealsMade.filter fun x => x.buyerId = u ∧ x.sellerId ≠ u)
      (s.dealsMade.filter fun x => x.sellerId = u ∧ x.buyerId ≠ u)
      (s.dealsMade.filter fun x => x.buyerId = u ∧ x.sellerId = u) where
  buy := by
    apply h.listed hd
    · intro x hx
      simp only [Deal.view]
      omega
    · omega
  sell := by
    apply h.listed hd
    · intro x hx
      simp only [Deal.view]
      omega
    · omega
  buy_sell := by
    apply h.listed hd
    · intro x hx
      simp only [Deal.view]
      omega
    · omega
  all := by
    simpa only [Market.dealsWith, Bool.decide_or, Bool.decide_and, decide_not] using
      filter_roles_perm (fun x : Deal => x.buyerId = u) (fun x => x.sellerId = u) s.dealsMade
  once := by
    rw [← h.closedDeals hd]
    exact d.closedDeals.sorted
  buyer x hx := by simpa using (List.mem_filter.mp hx).2
  seller x hx := by simpa using (List.mem_filter.mp hx).2
  both_roles x hx := by simpa using (List.mem_filter.mp hx).2
  ordered := by
    simp

/-! The balance of a user. -/

/-- Summed over the objects of some deals, a quantity is that of the deals. -/
theorem sum_report {f : Json → Int} {g : DealView → Int}
    (hfg : ∀ x : Deal, f (Report.deal x) = g x.view) (p : DealView → Bool) :
    (((s.dealsMade.filter fun x => p x.view).map Report.deal).map f).sum =
      sumWhere p g (s.dealsMade.map Deal.view) := by
  have hview : (s.dealsMade.filter fun x => p x.view).map Deal.view =
      (s.dealsMade.map Deal.view).filter p := by
    rw [List.filter_map]
    rfl
  rw [sumWhere, ← hview, List.map_map, List.map_map]
  apply congrArg List.sum
  apply List.map_congr_left
  intro x _
  exact hfg x

/-- What the user bought less what the user sold is what the reply says, deals with oneself left
out. -/
theorem sum_roles {f : Json → Int} {g : DealView → Int}
    (hfg : ∀ x : Deal, f (Report.deal x) = g x.view) (u : Nat) :
    (((s.dealsMade.filter fun x => x.buyerId = u ∧ x.sellerId ≠ u).map Report.deal).map f).sum -
      (((s.dealsMade.filter fun x => x.sellerId = u ∧ x.buyerId ≠ u).map Report.deal).map f).sum =
    sumWhere (fun x => x.buyerId = u) g (s.dealsMade.map Deal.view) -
      sumWhere (fun x => x.sellerId = u) g (s.dealsMade.map Deal.view) := by
  have hbuy := sum_report (s := s) hfg fun x => x.buyerId = u ∧ x.sellerId ≠ u
  have hsell := sum_report (s := s) hfg fun x => x.sellerId = u ∧ x.buyerId ≠ u
  rw [sumWhere_sub]
  simp only [Bool.decide_and, decide_not] at hbuy hsell ⊢
  exact congrArg₂ (· - ·) hbuy hsell

/-- The account holds what the reply comes to. -/
theorem account_eq (h : StandsFor s a) (hd : s.users.find? u = some d) :
    ∃ x, a.accounts u = some x ∧
      x.usd = Report.usd (Serializer.closedDealsReply u (d.closedDeals.elems.map Deal.view)) ∧
      x.rub = Report.rub (Serializer.closedDealsReply u (d.closedDeals.elems.map Deal.view)) := by
  obtain ⟨x, hx, -⟩ := h.sim.account_some hd
  obtain ⟨husd, hrub⟩ := h.undeposited u x hx
  have hl := h.dealsListed hd
  have hamount := sum_roles (s := s) (f := Report.amount) (g := fun d => (d.amount : Int))
    (fun _ => rfl) u
  have hcost := sum_roles (s := s) (f := Report.cost) (g := fun d => d.amount * d.price)
    (fun _ => rfl) u
  refine ⟨x, hx, ?_, ?_⟩
  · rw [husd, h.dealList_eq, Report.usd, hl.buy, hl.sell, hamount]
    rfl
  · rw [hrub, h.dealList_eq, Report.rub, hl.buy, hl.sell, ← neg_sub, hcost, neg_sub]
    rfl

theorem balance_eq (h : StandsFor s a) (hd : s.users.find? u = some d) {deals : Json}
    (hdeals : deals = Serializer.closedDealsReply u (d.closedDeals.elems.map Deal.view)) :
    (Serializer.balanceReply d.balance).at' jsonField.usd =
        .ok (.int (wrap32 (Report.usd deals))) ∧
      (Serializer.balanceReply d.balance).at' jsonField.rub =
        .ok (.int (wrap32 (Report.rub deals))) := by
  obtain ⟨x, hx, husd, hrub⟩ := h.account_eq hd
  obtain ⟨y, hy, hag⟩ := h.sim.account_some hd
  obtain rfl : x = y := Option.some.inj (hx.symm.trans hy)
  have hat : (Serializer.balanceReply d.balance).at' jsonField.usd = .ok (.ofInt d.balance.usd) ∧
      (Serializer.balanceReply d.balance).at' jsonField.rub = .ok (.ofInt d.balance.rub) :=
    ⟨rfl, rfl⟩
  rw [hat.1, hat.2, hag.usd, hag.rub, ofInt_of_fits (fits32_wrap32 _),
    ofInt_of_fits (fits32_wrap32 _), hdeals, husd, hrub]
  exact ⟨rfl, rfl⟩

/-! The offers of a user. -/

/-- The offers that can still be traded are the live ones. -/
theorem tradable_iff (h : StandsFor s a) {o : OfferView} : s.Tradable o ↔ o ∈ a.live := by
  constructor
  · rintro ⟨q, hq, -, hp, x, hlock, rfl⟩
    have hexp : s.expired [] x.view.id = false := by
      cases he : s.expired [] x.view.id with
      | false => rfl
      | true => simp [Market.lock, he] at hlock
    rw [Market.lock, hexp] at hlock
    obtain ⟨v, hv⟩ := Market.expired_iff.mp hexp
    have hx := (KeySet.find?_eq_some.mp hlock).1
    have hown : s.Owns v x.id := hv
    refine (h.sim.live x.view).mpr ⟨x, hx, rfl, ?_, by simp⟩
    rw [h.inv.owner hx hown]
    exact hown
  · intro ho
    obtain ⟨x, hx, rfl, hown, -⟩ := (h.sim.live o).mp ho
    obtain ⟨q, hq, hprice, hoffers⟩ := Book.mem_of_queue (h.in_book ho)
    have hlive : s.expired [] x.id = false := Market.expired_iff.mpr ⟨_, hown⟩
    refine ⟨q, hq, hprice, ?_, x, ?_, rfl⟩
    · rw [hoffers]
      exact h.in_book ho
    · rw [Market.lock, show x.view.id = x.id from rfl, hlive]
      exact KeySet.find?_of_mem hx

theorem offersListed (h : StandsFor s a) (hd : s.users.find? u = some d) :
    s.OffersListed u (Serializer.activeOffersReply (s.activeViews d))
      ((s.activeViews d).filter fun o => o.type = .BUY)
      ((s.activeViews d).filter fun o => o.type = .SELL) := by
  have hviews := activeViews_eq h.inv h.sim hd
  have hobject : ∀ o ∈ s.activeViews d, Serializer.offerObject o = Report.offer o := by
    intro o ho
    rw [hviews] at ho
    have hlive := (List.mem_filter.mp ho).1
    obtain ⟨x, -, rfl, -⟩ := (h.sim.live o).mp hlive
    exact offerObject_eq (h.prices.live _ hlive) x.amount.toNat_lt
  have hmap : ∀ p : OfferView → Bool, ((s.activeViews d).filter p).map Serializer.offerObject =
      ((s.activeViews d).filter p).map Report.offer := fun p =>
    List.map_congr_left fun o ho => hobject o (List.mem_filter.mp ho).1
  have hsorted : (s.activeViews d).Pairwise (fun o o' => o.id < o'.id) := by
    rw [hviews]
    exact a.live.sorted.filter _
  have hiff : ∀ (t : OfferType) (o : OfferView),
      o ∈ (s.activeViews d).filter (fun o => o.type = t) ↔
        o.type = t ∧ o.ownerId = u ∧ s.Tradable o := by
    intro t o
    rw [List.mem_filter, hviews, List.mem_filter, h.tradable_iff, KeySet.mem_def]
    simp only [decide_eq_true_eq]
    tauto
  constructor
  case buy => exact hmap _
  case sell => exact hmap _
  case once =>
    intro l hl
    simp only [List.mem_cons, List.not_mem_nil, or_false] at hl
    rcases hl with rfl | rfl
    · exact hsorted.filter _
    · exact hsorted.filter _
  case buys_iff => exact hiff .BUY
  case sells_iff => exact hiff .SELL

/-- The three reports on a registered user. -/
theorem reportsAgree (h : StandsFor s a) (hd : s.users.find? u = some d) : s.ReportsAgree u := by
  have hread : ∀ {reply : UserData → Json}, (reply d).Writable → (reply d).Delimited →
      received (Serializer.readUser s u reply) = some (reply d) := by
    intro reply hw hdel
    simp only [Serializer.readUser, hd]
    exact received_replyOf hw hdel
  obtain ⟨husd, hrub⟩ := h.balance_eq hd rfl
  exact ⟨_, _, _, hread (Serializer.writable_closedDealsReply _ _) trivial,
    hread (Serializer.writable_balanceReply _) trivial,
    hread (Serializer.writable_activeOffersReply _) trivial,
    ⟨_, _, _, h.dealsListed hd⟩, husd, hrub, _, _, h.offersListed hd⟩

end StandsFor

/-- In every run of the server the reports on each registered user agree with the market and with
each other. -/
theorem reports_agree {δ : Type} (db : Database δ) (offerId dealId userId : Nat) (table : δ)
    (requests : List Json) (u : Nat)
    (hu : ((Machine.exec (Session.serve db)
      { market := Market.empty offerId dealId userId, db := table }
      requests).market.users.find? u).isSome) :
    (Machine.exec (Session.serve db)
      { market := Market.empty offerId dealId userId, db := table }
      requests).market.ReportsAgree u := by
  obtain ⟨a, h⟩ := StandsFor.run db offerId dealId userId table requests
  obtain ⟨d, hd⟩ := Option.isSome_iff_exists.mp hu
  exact h.reportsAgree hd

/-- Two users register and make one deal, in which the second buys part of what the first sells. -/
def oneDeal : List Json :=
  [(ClientRequest.register (text "seller") 1).toJson,
    (ClientRequest.register (text "buyer") 2).toJson,
    (ClientRequest.postOffer 0 0 5 10).toJson, (ClientRequest.postOffer 1 1 3 10).toJson]

theorem oneDeal_reports_agree :
    (Machine.exec (Session.serve userTable) { market := Market.empty 0 0 0, db := [] }
      oneDeal).market.ReportsAgree 1 :=
  reports_agree userTable 0 0 0 [] oneDeal 1 (by decide +kernel)

end ForexMarket
