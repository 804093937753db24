import ForexMarket.Proofs.Correspondence

/- Price-time priority: which resting offers a posted offer trades with, at what prices
   and in what order, and what it leaves of the others. -/
namespace ForexMarket

open Reference (crosses)

/-- A resting offer at `price` under `id` comes before one at `price'` under `id'` for an
incoming offer of the type. -/
def Before (type : OfferType) (price : Int) (id : Nat) (price' : Int) (id' : Nat) : Prop :=
  match type with
  | .BUY => price < price' ∨ price = price' ∧ id < id'
  | .SELL => price' < price ∨ price = price' ∧ id < id'

/-- The live offer that a post of this type and limit trades with first. -/
structure Market.Takes (s : Market) (type : OfferType) (price : Int) (r : OfferView) : Prop where
  live : r ∈ s.liveOffers
  opposite : r.type = type.opposite
  within : crosses type price r.price
  first : ∀ v ∈ s.liveOffers, v.type = type.opposite → crosses type price v.price → v.id ≠ r.id →
    Before type r.price r.id v.price v.id

/-- The entry leads to an offer that was live in `s` and that none of the trades consumed. -/
def untouched (s : Market) (ts : List Trade) (p : Nat) : Bool :=
  s.liveOffers.any (fun v => v.id = p) && ts.all (fun t => t.resting ≠ p)

/-- The trades `ts` that a post of this type and limit makes from `s`, leaving `s'`. -/
structure PriceTime (type : OfferType) (price : Int) (s s' : Market) (ts : List Trade) : Prop where
  trades : s'.trades = s.trades ++ ts
  dealIds : ts.Pairwise (fun t t' => t.deal.id < t'.deal.id)
  limit : ∀ t ∈ ts, crosses type price t.deal.price ∧
    ∃ r ∈ s.liveOffers, r.id = t.resting ∧ r.type = type.opposite ∧ r.price = t.deal.price
  order : ts.Pairwise (fun t t' => Before type t.deal.price t.resting t'.deal.price t'.resting)
  exhausted : ∀ t ∈ ts, ∀ v ∈ s.liveOffers, v.type = type.opposite →
    Before type v.price v.id t.deal.price t.resting → ∀ w ∈ s'.liveOffers, w.id ≠ v.id
  kept : ∀ v ∈ s.liveOffers, (∀ t ∈ ts, t.resting ≠ v.id) → v ∈ s'.liveOffers
  rank : ∀ t k, ((s'.book t).queue k).filter (untouched s ts) =
    ((s.book t).queue k).filter (untouched s ts)

theorem before_iff {type : OfferType} {v : OfferView} {t : TradeView} :
    Before type v.price v.id t.deal.price t.resting ↔
      Reference.rank type v < Reference.tradeRank type t := by
  cases type with
  | BUY => simp only [Before, Reference.rank, Reference.tradeRank, Prod.Lex.toLex_lt_toLex]
  | SELL =>
    simp only [Before, Reference.rank, Reference.tradeRank, Prod.Lex.toLex_lt_toLex]
    omega

theorem before_iff_rank {type : OfferType} {v w : OfferView} :
    Before type v.price v.id w.price w.id ↔ Reference.rank type v < Reference.rank type w := by
  cases type with
  | BUY => simp only [Before, Reference.rank, Prod.Lex.toLex_lt_toLex]
  | SELL =>
    simp only [Before, Reference.rank, Prod.Lex.toLex_lt_toLex]
    omega

/-- It is the offer the reference takes. -/
theorem takes_iff {s : Market} {a : Reference} (h : Stands s a) (incoming r : OfferView) :
    s.Takes incoming.type incoming.price r ↔ a.best? incoming = some r := by
  constructor
  · intro ht
    have hmatch : Reference.matchable incoming r = true := decide_eq_true ⟨ht.opposite, ht.within⟩
    refine Select.best?_eq_some (h.mem_liveOffers.mp ht.live) hmatch ?_
    intro v hv hm hne
    have hm := of_decide_eq_true hm
    have hid : v.id ≠ r.id := fun e => hne (KeySet.key_inj hv (h.mem_liveOffers.mp ht.live) e)
    exact before_iff_rank.mp (ht.first v (h.mem_liveOffers.mpr hv) hm.1 hm.2 hid)
  · intro hbest
    obtain ⟨hr, hm⟩ := Select.best?_mem hbest
    have hm := of_decide_eq_true hm
    refine ⟨h.mem_liveOffers.mpr hr, hm.1, hm.2, ?_⟩
    intro v hv hvt hvc hid
    have hle := Select.best?_le hbest (h.mem_liveOffers.mp hv) (decide_eq_true ⟨hvt, hvc⟩)
    have hne : Reference.rank incoming.type r ≠ Reference.rank incoming.type v :=
      fun e => hid (Reference.rank_inj e).symm
    exact before_iff_rank.mpr (lt_of_le_of_ne hle hne)

theorem before_of_tradeRank {type : OfferType} {t t' : TradeView}
    (h : Reference.tradeRank type t < Reference.tradeRank type t') :
    Before type t.deal.price t.resting t'.deal.price t'.resting := by
  cases type with
  | BUY => simpa only [Before, Reference.tradeRank, Prod.Lex.toLex_lt_toLex] using h
  | SELL =>
    simp only [Before, Reference.tradeRank, Prod.Lex.toLex_lt_toLex] at h ⊢
    omega

/-- Descending lists with the same members are equal. -/
theorem eq_of_desc {l l' : List Nat} (hl : l.Pairwise (fun p p' => p' < p))
    (hl' : l'.Pairwise (fun p p' => p' < p)) (h : ∀ p, p ∈ l ↔ p ∈ l') : l = l' := by
  have hperm : l.Perm l' := (List.perm_ext_iff_of_nodup (hl.imp fun h => h.ne')
    (hl'.imp fun h => h.ne')).mpr h
  exact hperm.eq_of_pairwise (fun p p' _ _ h h' => absurd h h'.not_gt) hl hl'

/-- Entries that stay live and untouched keep their places in the levels. -/
theorem rank_kept {s s' : Market} {a a' : Reference} {ts : List Trade} (h : Stands s a)
    (h' : Stands s' a')
    (hkept : ∀ v ∈ s.liveOffers, (∀ t ∈ ts, t.resting ≠ v.id) → v ∈ s'.liveOffers)
    (t : OfferType) (k : Int) :
    ((s'.book t).queue k).filter (untouched s ts) =
      ((s.book t).queue k).filter (untouched s ts) := by
  apply eq_of_desc (((h'.inv.book t).desc k).filter _) (((h.inv.book t).desc k).filter _)
  intro p
  simp only [List.mem_filter]
  apply and_congr_left
  intro hp
  simp only [untouched, Bool.and_eq_true, List.any_eq_true, List.all_eq_true,
    decide_eq_true_eq] at hp
  obtain ⟨⟨v, hv, rfl⟩, hnot⟩ := hp
  have hv' := h'.mem_liveOffers.mp (hkept v hv hnot)
  have hv := h.mem_liveOffers.mp hv
  refine ⟨fun hq => ?_, fun hq => ?_⟩
  · obtain ⟨rfl, rfl⟩ := h'.of_in_book hv' hq
    exact h.in_book hv
  · obtain ⟨rfl, rfl⟩ := h.of_in_book hv hq
    exact h'.in_book hv'

/-- Every post by a registered user trades in price-time priority within its limit. -/
theorem post_priceTime {s : Market} (hs : s.Reachable) {u : Nat}
    (hu : ∃ d, s.users.find? u = some d) (type : OfferType) (price : Int) (amount : UInt64) :
    ∃ ts, PriceTime type price s (s.step (.postOffer u type price amount)).2 ts := by
  obtain ⟨a, h⟩ := hs.stands
  obtain ⟨-, tsv, a', h', hm⟩ := h.posted hu type price amount
  obtain ⟨ts, hts, hview⟩ := h.new_trades h' hm.trades_eq
  have hfresh : ∀ v ∈ a.live, v.id ≠ s.offerId := by
    rw [h.sim.offerId]
    exact h.wf.fresh
  have hmem : ∀ t ∈ ts, t.view ∈ tsv := fun t ht => hview ▸ List.mem_map_of_mem ht
  have hkept : ∀ v ∈ s.liveOffers, (∀ t ∈ ts, t.resting ≠ v.id) →
      v ∈ (s.step (.postOffer u type price amount)).2.liveOffers := by
    intro v hv hnot
    refine h'.mem_liveOffers.mpr (hm.kept (h.mem_liveOffers.mp hv) ?_)
    rw [← hview]
    intro tv htv
    obtain ⟨t, ht, rfl⟩ := List.mem_map.mp htv
    exact hnot t ht
  refine ⟨ts, hts, ?_, ?_, ?_, ?_, hkept, rank_kept h h' hkept⟩
  · have hids : (tsv.map (fun t => t.deal.id)).Pairwise (· < ·) := by
      rw [hm.dealIds]
      exact List.pairwise_lt_range'
    rw [← hview, List.map_map] at hids
    exact List.pairwise_map.mp hids
  · intro t ht
    obtain ⟨-, r, hr, hid, hrt, hprice, hcross, -⟩ := hm.resting _ (hmem t ht)
    exact ⟨hcross, r, h.mem_liveOffers.mpr hr, hid, hrt, hprice⟩
  · have hranks := hm.ranks
    rw [← hview] at hranks
    exact (List.pairwise_map.mp hranks).imp before_of_tradeRank
  · intro t ht v hv hvt hbefore w hw
    exact hm.better_gone hfresh _ (hmem t ht) v (h.mem_liveOffers.mp hv) hvt
      (before_iff.mp hbefore) w (h'.mem_liveOffers.mp hw)

/-- Two SELL offers and one cancelled in between, taken in turn by a BUY. -/
theorem sample_priceTime :
    ∃ ts, PriceTime .BUY 12 Market.sample (Market.sample.step (.postOffer 1 .BUY 12 9)).2 ts :=
  post_priceTime Market.sample_reachable ⟨_, rfl⟩ .BUY 12 9

end ForexMarket
