import ForexMarket.Proofs.Correspondence

/- Reconciliation of the accounts: each balance is the wrap of the exact integer the
   deposits and the user's deals come to, the deals a user holds are exactly those the
   user is a party of, and over all users each currency adds up to what was deposited. -/
namespace ForexMarket

open Sums Wrap
open Reference (bought sold paid earned depositedTo)

/-- The deals of a user, as their getters report them. -/
def UserData.dealViews (d : UserData) : List DealView := d.closedDeals.elems.map Deal.view

/-- The state agrees with the deposits of the history that led to it. -/
structure Market.Reconciled (h : History) (s : Market) : Prop where
  usd : ∀ u d, s.users.find? u = some d → d.balance.usd =
    wrap32 (depositedTo u h.depositsUSD + bought u d.dealViews - sold u d.dealViews)
  rub : ∀ u d, s.users.find? u = some d → d.balance.rub =
    wrap32 (depositedTo u h.depositsRUB - paid u d.dealViews + earned u d.dealViews)
  deals : ∀ u d, s.users.find? u = some d → d.closedDeals.elems =
    (s.trades.map Trade.deal).filter (fun x => u = x.buyerId ∨ u = x.sellerId)
  parties : ∀ t ∈ s.trades, (∃ d, s.users.find? t.deal.buyerId = some d) ∧
    ∃ d, s.users.find? t.deal.sellerId = some d
  total_usd : (s.users.elems.map (fun d => d.balance.usd)).sum ≡
    (h.depositsUSD.map Prod.snd).sum [ZMOD 2 ^ 32]
  total_rub : (s.users.elems.map (fun d => d.balance.rub)).sum ≡
    (h.depositsRUB.map Prod.snd).sum [ZMOD 2 ^ 32]

variable {s : Market} {a : Reference} {h : History}

/-- The deals a user holds are the trades the user is a party of. -/
theorem Stands.deals (hs : Stands s a) {u : Nat} {d : UserData} (hd : s.users.find? u = some d) :
    d.closedDeals.elems =
      (s.trades.map Trade.deal).filter (fun x => u = x.buyerId ∨ u = x.sellerId) := by
  obtain ⟨x, hx, hag⟩ := hs.sim.account_some hd
  refine List.map_injective_iff.mpr (fun _ _ => Deal.view_inj) ?_
  have hview : a.trades.map TradeView.deal = (s.trades.map Trade.deal).map Deal.view := by
    rw [← hs.sim.trades, List.map_map, List.map_map]
    rfl
  rw [hag.deals, hs.wf.deals u x hx, hview, List.filter_map]
  rfl

/-- The sum over the users of what their accounts hold is what was deposited to them. -/
theorem sum_accounts {U : List Nat} (hU : U.Nodup) {l : List (Nat × Int)} (ds : List DealView)
    (hl : ∀ e ∈ l, e.1 ∈ U) (hb : ∀ d ∈ ds, d.buyerId ∈ U) (hs : ∀ d ∈ ds, d.sellerId ∈ U)
    (f : DealView → Int) :
    (U.map (fun u => depositedTo u l + sumWhere (fun d => d.buyerId = u) f ds
      - sumWhere (fun d => d.sellerId = u) f ds)).sum = (l.map Prod.snd).sum := by
  have hdep := sum_classes Prod.fst (f := Prod.snd) hU hl
  have hbuy := sum_classes DealView.buyerId (f := f) hU hb
  have hsell := sum_classes DealView.sellerId (f := f) hU hs
  have hsplit : (U.map (fun u => depositedTo u l + sumWhere (fun d => d.buyerId = u) f ds
      - sumWhere (fun d => d.sellerId = u) f ds)).sum =
      (U.map (fun u => depositedTo u l)).sum
      + (U.map (fun u => sumWhere (fun d => d.buyerId = u) f ds)).sum
      - (U.map (fun u => sumWhere (fun d => d.sellerId = u) f ds)).sum := by
    clear hdep hbuy hsell hU hl hb hs
    induction U with
    | nil => rfl
    | cons u U ih => simp only [List.map_cons, List.sum_cons, ih]; omega
  rw [hsplit, hbuy, hsell, ← hdep]
  unfold depositedTo
  omega

/-- A balance that holds the wrap of what the deposits and all deals come to, for each user, adds
up to the deposits. -/
theorem Stands.total (hs : Stands s a) {l : List (Nat × Int)}
    (hl : ∀ e ∈ l, (a.accounts e.1).isSome) (f : DealView → Int) {balance : UserData → Int}
    (hb : ∀ d ∈ s.users, balance d = wrap32 (depositedTo d.id l
      + sumWhere (fun x => x.buyerId = d.id) f (a.trades.map TradeView.deal)
      - sumWhere (fun x => x.sellerId = d.id) f (a.trades.map TradeView.deal))) :
    (s.users.elems.map balance).sum ≡ (l.map Prod.snd).sum [ZMOD 2 ^ 32] := by
  -- deposits and deals are of registered users, so the sum over the users misses none
  have hmem : ∀ u, (a.accounts u).isSome → u ∈ s.users.elems.map UserData.id := by
    intro u hu
    obtain ⟨d, hd⟩ := (hs.registered_iff u).mpr hu
    obtain ⟨hd, hid⟩ := KeySet.find?_eq_some.mp hd
    exact List.mem_map.mpr ⟨d, hd, hid⟩
  have hnodup : (s.users.elems.map UserData.id).Nodup :=
    List.pairwise_map.mpr (s.users.sorted.imp fun h => h.ne)
  have hsum := sum_accounts hnodup (a.trades.map TradeView.deal)
    (fun e he => hmem _ (hl e he))
    (fun d hd => by
      obtain ⟨t, ht, rfl⟩ := List.mem_map.mp hd
      exact hmem _ (hs.wf.trade_party t ht).1)
    (fun d hd => by
      obtain ⟨t, ht, rfl⟩ := List.mem_map.mp hd
      exact hmem _ (hs.wf.trade_party t ht).2) f
  rw [List.map_map] at hsum
  rw [← hsum, List.map_congr_left hb]
  exact sum_wrap32 _ _

/-- Over the deals of a user or over all deals, what that user is a party of sums to the same. -/
theorem Stands.sumWhere_deals (hs : Stands s a) {u : Nat} {d : UserData}
    (hd : s.users.find? u = some d) {p : DealView → Bool}
    (hp : ∀ x, p x = true → u = x.buyerId ∨ u = x.sellerId) (f : DealView → Int) :
    sumWhere p f d.dealViews = sumWhere p f (a.trades.map TradeView.deal) := by
  obtain ⟨x, hx, hag⟩ := hs.sim.account_some hd
  rw [UserData.dealViews, hag.deals, hs.wf.deals u x hx]
  exact sumWhere_filter (fun y hy => decide_eq_true (hp y hy)) _

theorem Stands.sum_bought (hs : Stands s a) {u : Nat} {d : UserData}
    (hd : s.users.find? u = some d) (f : DealView → Int) :
    sumWhere (fun x => x.buyerId = u) f d.dealViews =
      sumWhere (fun x => x.buyerId = u) f (a.trades.map TradeView.deal) :=
  hs.sumWhere_deals hd (fun _ hx => .inl (of_decide_eq_true hx).symm) f

theorem Stands.sum_sold (hs : Stands s a) {u : Nat} {d : UserData}
    (hd : s.users.find? u = some d) (f : DealView → Int) :
    sumWhere (fun x => x.sellerId = u) f d.dealViews =
      sumWhere (fun x => x.sellerId = u) f (a.trades.map TradeView.deal) :=
  hs.sumWhere_deals hd (fun _ hx => .inr (of_decide_eq_true hx).symm) f

theorem Stands.usd (hs : Stands s a) (hl : a.Ledger h) {u : Nat} {d : UserData}
    (hd : s.users.find? u = some d) : d.balance.usd =
      wrap32 (depositedTo u h.depositsUSD + bought u d.dealViews - sold u d.dealViews) := by
  obtain ⟨x, hx, hag⟩ := hs.sim.account_some hd
  rw [hag.usd, UserData.dealViews, hag.deals, (hl.balanced u x hx).usd]

theorem Stands.rub (hs : Stands s a) (hl : a.Ledger h) {u : Nat} {d : UserData}
    (hd : s.users.find? u = some d) : d.balance.rub =
      wrap32 (depositedTo u h.depositsRUB - paid u d.dealViews + earned u d.dealViews) := by
  obtain ⟨x, hx, hag⟩ := hs.sim.account_some hd
  rw [hag.rub, UserData.dealViews, hag.deals, (hl.balanced u x hx).rub]

theorem Stands.reconciled (hs : Stands s a) (hl : a.Ledger h) : s.Reconciled h where
  usd _ _ hd := hs.usd hl hd
  rub _ _ hd := hs.rub hl hd
  deals _ _ hd := hs.deals hd
  parties := by
    intro t ht
    have hview : t.view ∈ a.trades := by
      rw [← hs.sim.trades]
      exact List.mem_map_of_mem ht
    obtain ⟨hb, hse⟩ := hs.wf.trade_party _ hview
    exact ⟨(hs.registered_iff _).mpr hb, (hs.registered_iff _).mpr hse⟩
  total_usd := by
    apply hs.total hl.usd_to (fun x => (x.amount : Int))
    intro d hd
    have hfind := KeySet.find?_of_mem hd
    rw [hs.usd hl hfind, bought, sold, hs.sum_bought hfind, hs.sum_sold hfind]
  total_rub := by
    -- what a buyer pays is a negative amount received
    apply hs.total hl.rub_to (fun x => -(x.amount * x.price))
    intro d hd
    have hfind := KeySet.find?_of_mem hd
    rw [hs.rub hl hfind, paid, earned, hs.sum_bought hfind, hs.sum_sold hfind, sumWhere_neg,
      sumWhere_neg, ← sub_eq_add_neg, sub_neg_eq_add]

/-- Every market is reconciled with the history of the calls that led to it. -/
theorem run_reconciled (offerId dealId userId : Nat) (ops : List Op) :
    ((Market.empty offerId dealId userId).run ops).Reconciled
      (Machine.history Market.step (Market.empty offerId dealId userId) ops) := by
  let s₀ := Market.empty offerId dealId userId
  have hinv : ∃ a, Stands (s₀.run ops) a ∧ a.Ledger ([] ++ Machine.history Market.step s₀ ops) :=
    Machine.exec_inv_history (I := fun h s => ∃ a, Stands s a ∧ a.Ledger h)
      (fun h s op ⟨a, hs, hl⟩ _ => ⟨_, hs.step op, hl.move hs.wf (hs.moves op)⟩)
      ⟨_, Stands.empty offerId dealId userId, Reference.Ledger.empty offerId dealId userId⟩
      (Machine.along_true _ ops)
  obtain ⟨a, hs, hl⟩ := hinv
  exact hs.reconciled hl

end ForexMarket
