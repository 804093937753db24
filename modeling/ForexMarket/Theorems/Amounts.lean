import ForexMarket.Proofs.Correspondence

/- Conservation of amounts, in one call and over runs, and the absence of empty trades:
   it holds in exactly the runs in which no registered user posts an amount of 0, which
   the server does not check. -/
namespace ForexMarket

open Sums
open Reference (sideTotal tradedTotal)

namespace Market

/-- The amounts of the deals made. -/
def dealTotal (ts : List Trade) : Nat := tradedTotal (ts.map Trade.view)

/-- The remaining amount of the offer under `p`, nothing when it is not live. -/
def remaining (s : Market) (p : Nat) : Nat :=
  sumWhere (fun o => o.id = p) OfferView.amount s.liveOffers

/-- What a call does to the amounts: `ts` are the trades that a post of `amount` under `id` makes
from `s`, leaving `s'`. -/
structure Conserves (type : OfferType) (id : Nat) (amount : UInt64) (s s' : Market)
    (ts : List Trade) : Prop where
  trades : s'.trades = s.trades ++ ts
  incoming : dealTotal ts + s'.remaining id = amount.toNat
  opposite : dealTotal ts + sideTotal s'.liveOffers type.opposite =
    sideTotal s.liveOffers type.opposite
  same_side : ∀ v ∈ s.liveOffers, v.type = type → v ∈ s'.liveOffers

/-- The amount of type `t` that a call from `s` posts. -/
def postedAmount (t : OfferType) (s : Market) (op : Op) : Nat :=
  Reference.postedAmount t (op, (s.step op).1)

/-- The remaining amount that an offer of type `t` has when a call from `s` cancels it. -/
def cancelledAmount (t : OfferType) (s : Market) (op : Op) : Nat :=
  Reference.cancelledAmount t s.liveOffers (op, (s.step op).1)

/-- The amount of type `t` posted in a run. -/
def totalPosted (t : OfferType) (s : Market) (ops : List Op) : Nat :=
  Machine.total step (postedAmount t) s ops

/-- The amount of type `t` cancelled in a run. -/
def totalCancelled (t : OfferType) (s : Market) (ops : List Op) : Nat :=
  Machine.total step (cancelledAmount t) s ops

end Market

open Market

variable {s : Market} {a : Reference}

theorem remaining_eq (live : KeySet OfferView OfferView.id) (p : Nat) :
    sumWhere (fun o => o.id = p) OfferView.amount live.elems = Reference.remaining live p := by
  cases hf : live.find? p with
  | none =>
    have hnone := KeySet.find?_eq_none.mp hf
    rw [Reference.remaining_of_not_live hnone]
    exact sumWhere_of_none fun v hv => decide_eq_false (hnone v hv)
  | some v =>
    obtain ⟨hv, rfl⟩ := KeySet.find?_eq_some.mp hf
    rw [Reference.remaining_of_mem hv, sumWhere_perm (KeySet.perm_erase hv), sumWhere_cons,
      sumWhere_of_none]
    · simp
    · exact fun w hw => decide_eq_false (KeySet.mem_erase.mp hw).2

theorem Stands.remaining (h : Stands s a) (p : Nat) :
    s.remaining p = Reference.remaining a.live p := by
  rw [Market.remaining, sumWhere_perm h.liveOffers_perm, remaining_eq]

theorem Stands.sideTotal (h : Stands s a) (t : OfferType) :
    Reference.sideTotal s.liveOffers t = Reference.sideTotal a.live.elems t :=
  Reference.sideTotal_perm h.liveOffers_perm t

/-- The deals of a post take their amounts from the other side, and leave the posted offer the
rest of its own. -/
theorem post_conserves (hs : s.Reachable) {u : Nat} (hu : ∃ d, s.users.find? u = some d)
    (type : OfferType) (price : Int) (amount : UInt64) :
    ∃ ts, Conserves type s.offerId amount s (s.step (.postOffer u type price amount)).2 ts := by
  obtain ⟨a, h⟩ := hs.stands
  obtain ⟨-, tsv, a', h', hm⟩ := h.posted hu type price amount
  obtain ⟨ts, hts, rfl⟩ := h.new_trades h' hm.trades_eq
  have hfresh : ∀ v ∈ a.live, v.id ≠ s.offerId := by
    rw [h.sim.offerId]
    exact h.wf.fresh
  refine ⟨ts, hts, ?_, ?_, ?_⟩
  · -- every trade of the call is the posted offer's
    have htaken := hm.taken hfresh s.offerId
    have hall : Reference.takenFrom s.offerId (ts.map Trade.view) = dealTotal ts := by
      rw [Reference.takenFrom, sumWhere, List.filter_eq_self.mpr]
      · rfl
      · intro t ht
        exact decide_eq_true (.inl (hm.resting t ht).1)
    rw [hall, if_pos rfl, Reference.remaining_of_not_live hfresh, Nat.zero_add] at htaken
    rw [h'.remaining]
    exact htaken
  · rw [h.sideTotal, h'.sideTotal]
    exact (hm.totals hfresh).1
  · intro v hv hvt
    refine h'.mem_liveOffers.mpr (hm.kept (h.mem_liveOffers.mp hv) fun t ht hid => ?_)
    obtain ⟨-, r, hr, hrid, hrt, -⟩ := hm.resting t ht
    have hvr : r = v := KeySet.key_inj hr (h.mem_liveOffers.mp hv) (hrid.trans hid)
    rw [hvr, hvt] at hrt
    exact OfferType.opposite_ne type hrt.symm

/-- One call moves amounts from what it posts to what is traded, live or cancelled. -/
theorem step_conserves (h : Stands s a) (op : Op) (t : OfferType) :
    dealTotal (s.step op).2.trades + sideTotal (s.step op).2.liveOffers t
        + Market.cancelledAmount t s op =
      dealTotal s.trades + sideTotal s.liveOffers t + Market.postedAmount t s op := by
  have hamounts := (h.moves op).amounts h.wf t
  rw [← (h.step op).sim.trades, ← h.sim.trades, ← h.sideTotal, ← (h.step op).sideTotal] at hamounts
  have hcancel : Reference.cancelledAmount t a.live.elems (op, (s.step op).1) =
      Market.cancelledAmount t s op := by
    simp only [Market.cancelledAmount, Reference.cancelledAmount]
    cases History.cancelledOf (op, (s.step op).1) with
    | none => rfl
    | some p => exact (sumWhere_perm h.liveOffers_perm).symm
  rw [hcancel] at hamounts
  exact hamounts

/-- In a run from an empty market what was posted is traded, live or cancelled. -/
theorem run_conserves (offerId dealId userId : Nat) (ops : List Op) (t : OfferType) :
    dealTotal ((Market.empty offerId dealId userId).run ops).trades
        + sideTotal ((Market.empty offerId dealId userId).run ops).liveOffers t
        + totalCancelled t (Market.empty offerId dealId userId) ops =
      totalPosted t (Market.empty offerId dealId userId) ops := by
  have hrun := Machine.exec_balance (I := fun s => ∃ a, Stands s a)
    (m := fun s => dealTotal s.trades + sideTotal s.liveOffers t)
    (fun s op ⟨a, h⟩ => ⟨_, h.step op⟩) (fun s op ⟨a, h⟩ => step_conserves h op t)
    ⟨_, Stands.empty offerId dealId userId⟩ ops
  have hzero : dealTotal (Market.empty offerId dealId userId).trades +
      sideTotal (Market.empty offerId dealId userId).liveOffers t = 0 := rfl
  rw [hzero, Nat.zero_add] at hrun
  exact hrun

/-- Amounts are conserved by every post, and over every run separately for BUY and SELL. -/
theorem amounts_conserved :
    (∀ s : Market, s.Reachable → ∀ u, (∃ d, s.users.find? u = some d) → ∀ type price amount,
      ∃ ts, Conserves type s.offerId amount s (s.step (.postOffer u type price amount)).2 ts) ∧
    ∀ offerId dealId userId ops t,
      totalPosted t (Market.empty offerId dealId userId) ops =
        dealTotal ((Market.empty offerId dealId userId).run ops).trades
          + sideTotal ((Market.empty offerId dealId userId).run ops).liveOffers t
          + totalCancelled t (Market.empty offerId dealId userId) ops := by
  refine ⟨fun s hs u hu type price amount => post_conserves hs hu type price amount, ?_⟩
  exact fun offerId dealId userId ops t => (run_conserves offerId dealId userId ops t).symm

/-! Empty trades. -/

namespace Market

/-- No deal was made of amount 0, and no active offer has a remaining amount of 0. -/
def NoEmptyTrades (s : Market) : Prop :=
  (∀ t ∈ s.trades, 1 ≤ t.deal.amount.toNat) ∧ ∀ v ∈ s.liveOffers, 1 ≤ v.amount

/-- The call changes the quote, if it does, to the price of a deal of positive amount it makes. -/
def QuoteByDeal (s : Market) (op : Op) : Prop :=
  (s.step op).2.quote ≠ s.quote → ∃ ts, (s.step op).2.trades = s.trades ++ ts ∧
    ∃ t ∈ ts, 1 ≤ t.deal.amount.toNat ∧ (s.step op).2.quote = some t.deal.price

instance (s : Market) : Decidable s.NoEmptyTrades := inferInstanceAs (Decidable (_ ∧ _))

/-- The call is not a post of amount 0 by a registered user. -/
def PostsPositive (s : Market) : Op → Prop
  | .postOffer u _ _ amount => (∃ d, s.users.find? u = some d) → 1 ≤ amount.toNat
  | _ => True

end Market

theorem Stands.positive_iff (h : Stands s a) : s.NoEmptyTrades ↔ a.Positive := by
  refine ⟨fun ⟨htrades, hlive⟩ => ⟨fun v hv => hlive v (h.mem_liveOffers.mpr hv), ?_⟩,
    fun ⟨hlive, htrades⟩ => ⟨?_, fun v hv => hlive v (h.mem_liveOffers.mp hv)⟩⟩
  · intro t ht
    rw [← h.sim.trades] at ht
    obtain ⟨x, hx, rfl⟩ := List.mem_map.mp ht
    exact htrades x hx
  · intro t ht
    exact htrades t.view (by rw [← h.sim.trades]; exact List.mem_map_of_mem ht)

theorem Stands.postsPositive_iff (h : Stands s a) (op : Op) : s.PostsPositive op ↔ a.PostOk op := by
  cases op with
  | postOffer u type price amount =>
    simp only [Market.PostsPositive, Reference.PostOk, h.registered_iff]
  | _ => exact Iff.rfl

/-- One call keeps trades from being empty exactly when it is no post of amount 0. -/
theorem step_noEmptyTrades_iff (h : Stands s a) (hp : s.NoEmptyTrades) (op : Op) :
    (s.step op).2.NoEmptyTrades ↔ s.PostsPositive op := by
  have hpos := h.positive_iff.mp hp
  rw [(h.step op).positive_iff, h.postsPositive_iff]
  refine ⟨fun hpos' => ?_, fun hok => hpos.move (h.moves op) hok⟩
  by_contra hbad
  exact Reference.not_positive_of_not_postOk h.wf (h.moves op) hbad hpos'

/-- With positive amounts the quote moves with a deal of positive amount. -/
theorem step_quoteByDeal (h : Stands s a) (op : Op) (hp : (s.step op).2.NoEmptyTrades) :
    s.QuoteByDeal op := by
  intro hq
  rw [(h.step op).sim.quote, h.sim.quote] at hq
  obtain ⟨tsv, htrades, t, ht, hprice⟩ := (h.moves op).quote hq
  obtain ⟨ts, hts, rfl⟩ := h.new_trades (h.step op) htrades
  obtain ⟨x, hx, rfl⟩ := List.mem_map.mp ht
  refine ⟨ts, hts, x, hx, hp.1 x ?_, (h.step op).sim.quote.trans hprice⟩
  rw [hts]
  exact List.mem_append_right _ hx

/-- A run never has an empty trade, in any of its states and at any of its calls, exactly when no
registered user posts an amount of 0 in it. -/
theorem noEmptyTrades_iff (offerId dealId userId : Nat) (ops : List Op) :
    ((∀ pre, pre <+: ops → ((Market.empty offerId dealId userId).run pre).NoEmptyTrades) ∧
      Machine.Along Market.step QuoteByDeal (Market.empty offerId dealId userId) ops) ↔
      Machine.Along Market.step PostsPositive (Market.empty offerId dealId userId) ops := by
  have hstands : ∀ pre, ∃ a, Stands ((Market.empty offerId dealId userId).run pre) a :=
    fun pre => ⟨_, (Stands.empty offerId dealId userId).run pre⟩
  refine ⟨fun ⟨hp, _⟩ => ?_, fun hok => ?_⟩
  · apply (Machine.along_iff _ _).mpr
    intro pre op hpre
    obtain ⟨a, h⟩ := hstands pre
    have hbefore := hp pre ((List.prefix_append pre [op]).trans hpre)
    have hafter := hp (pre ++ [op]) hpre
    rw [Market.run, Machine.exec_concat] at hafter
    exact (step_noEmptyTrades_iff h hbefore op).mp hafter
  · have hall : ∀ pre, pre <+: ops →
        ((Market.empty offerId dealId userId).run pre).NoEmptyTrades := by
      intro pre ⟨post, hpre⟩
      rw [← hpre] at hok
      have hrun := Machine.exec_inv_along (I := fun s => (∃ a, Stands s a) ∧ s.NoEmptyTrades)
        (fun s op ⟨⟨a, h⟩, hp⟩ hop =>
          ⟨⟨_, h.step op⟩, (step_noEmptyTrades_iff h hp op).mpr hop⟩)
        ⟨⟨_, Stands.empty offerId dealId userId⟩,
          (Stands.empty _ _ _).positive_iff.mpr (Reference.Positive.empty _ _ _)⟩
        ((Machine.along_append _ pre post).mp hok).1
      exact hrun.2
    refine ⟨hall, (Machine.along_iff _ _).mpr fun pre op hpre => ?_⟩
    obtain ⟨a, h⟩ := hstands pre
    apply step_quoteByDeal h op
    have hafter := hall (pre ++ [op]) hpre
    rwa [Market.run, Machine.exec_concat] at hafter

theorem Market.sampleOps_positive :
    Machine.Along Market.step PostsPositive (Market.empty 0 0 0) Market.sampleOps := by
  simp only [Market.sampleOps, Machine.Along, PostsPositive, true_and, and_true]
  exact ⟨fun _ => by decide, fun _ => by decide, fun _ => by decide, fun _ => by decide⟩

/-- Two users registered through the server, a SELL offer, and a BUY of amount 0 that crosses it. -/
def emptyBuy : List Op :=
  [.registerUser "seller" false, .registerUser "buyer" false, .postOffer 0 .SELL 10 5,
    .postOffer 1 .BUY 12 0]

/-- The post of amount 0 makes a deal of amount 0, which sets the quote. -/
theorem emptyBuy_trades :
    emptyBuy.all Op.served = true ∧ ¬ ((Market.empty 0 0 0).run emptyBuy).NoEmptyTrades ∧
      ((Market.empty 0 0 0).run emptyBuy).quote = some 10 := by
  decide

end ForexMarket
