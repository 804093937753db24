import ForexMarket.Model.Store
import ForexMarket.Proofs.Correspondence
import ForexMarket.Spec.Comparisons
import ForexMarket.Spec.Merging
import ForexMarket.Spec.Mirror

/- Runs compared. A run on the other side of the market is the mirror image of the run
   (`market_mirrored`); the queries, though they drop dead entries from the books, change
   no later answer (`queries_transparent`); a limit only decides where the deals of a post
   stop (`limit_cuts_deals`); a cancellation that arrives just before or just after a post
   that does not take its offer makes no difference (`cancel_interchangeable`); and users
   who keep one account get the deals of several (`accounts_merged`). -/
namespace ForexMarket

open Reference (depositedTo entriesOf usdEntries rubEntries)
open Reference.Merged (mergeEntry)
open Wrap

/-- Calls that only ask. -/
def Op.isQuery : Op → Bool
  | .getUserBalance .. | .getActiveOffers .. | .getClosedDeals .. | .getQuote
  | .getAskBidQuotes => true
  | _ => false

namespace Market

/-- The trades a call makes. -/
def tradesOf (s : Market) (op : Op) : List Trade := (s.step op).2.trades.drop s.trades.length

/-- In either order the two calls get the same answers, and the market left answers every list of
calls the same. -/
def Interchangeable (s : Market) (op op' : Op) : Prop :=
  (∃ r r', Machine.outputs step s [op, op'] = [r, r'] ∧
      Machine.outputs step s [op', op] = [r', r]) ∧
    ∀ ops, Machine.outputs step (s.run [op, op']) ops = Machine.outputs step (s.run [op', op]) ops

end Market

variable {s : Market} {a : Reference}

theorem Reference.Mirrored.empty (offerId dealId userId : Nat) :
    Mirrored (.empty offerId dealId userId) (.empty offerId dealId userId) :=
  ⟨rfl, fun _ => .none, rfl, rfl, rfl, rfl, fun v hv => absurd hv (KeySet.not_mem_empty v)⟩

/-- The market is the same in the mirror: BUY for SELL at the negative price. -/
theorem market_mirrored (offerId dealId userId : Nat) (ops : List Op) :
    Machine.outputs Market.step (Market.empty offerId dealId userId) (ops.map Op.mirror) =
      (Machine.outputs Market.step (Market.empty offerId dealId userId) ops).map Reply.mirror := by
  have h := Stands.empty offerId dealId userId
  rw [h.outputs_eq, h.outputs_eq]
  exact Machine.outputs_map_of_sim (R := Reference.Mirrored) (fun _ _ op h => (h.step op).1)
    (fun _ _ op h => (h.step op).2) (.empty offerId dealId userId) ops

/-! Queries. -/

theorem Reference.step_query {op : Op} (h : op.isQuery = true) : (a.step op).2 = a := by
  cases op with
  | getUserBalance | getActiveOffers | getClosedDeals => exact readUser_snd a _ _
  | getQuote | getAskBidQuotes => rfl
  | _ => cases h

/-- Queries may be left out of a run, and no other answer changes. -/
theorem queries_transparent (h : s.Reachable) (calls : List (Op × Bool))
    (hcalls : ∀ c ∈ calls, c.2 = false → c.1.isQuery = true) :
    Machine.marked Market.step s calls =
      Machine.outputs Market.step s ((calls.filter Prod.snd).map Prod.fst) := by
  obtain ⟨a, hs⟩ := h.stands
  refine Machine.marked_eq_outputs (R := fun s t => ∃ a, Stands s a ∧ Stands t a)
    ?_ ?_ ?_ ⟨a, hs, hs⟩ calls fun op hop => hcalls (op, false) hop rfl
  · rintro s t op ⟨a, hs, ht⟩
    rw [hs.reply_eq, ht.reply_eq]
  · rintro s t op ⟨a, hs, ht⟩
    exact ⟨_, hs.step op, ht.step op⟩
  · rintro s t op ⟨a, hs, ht⟩ hop
    refine ⟨a, ?_, ht⟩
    have hquery := hs.step op
    rwa [Reference.step_query hop] at hquery

/-- The small market asked for its quotes, which drops the dead entry of the offer 1. -/
theorem sample_queries_transparent :
    Machine.marked Market.step Market.sample
        [(.getAskBidQuotes, false), (.postOffer 1 .BUY 11 2, true), (.getQuote, false),
          (.getActiveOffers 0, true)] =
      Machine.outputs Market.step Market.sample
        [.postOffer 1 .BUY 11 2, .getActiveOffers 0] :=
  queries_transparent Market.sample_reachable
    [(.getAskBidQuotes, false), (.postOffer 1 .BUY 11 2, true), (.getQuote, false),
      (.getActiveOffers 0, true)] (by decide)

/-! Limits. -/

theorem Stands.tradesOf (h : Stands s a) (op : Op) :
    (s.tradesOf op).map Trade.view = a.tradesOf op := by
  rw [Market.tradesOf, Reference.tradesOf, List.map_drop, (h.step op).sim.trades,
    ← h.sim.trades, List.length_map]

/-- A post at a tighter limit makes the deals of the looser one up to the first price out of its
limit. -/
theorem limit_cuts_deals (h : s.Reachable) (u : Nat) (type : OfferType) {p q : Int}
    (hp : Reference.crosses type q p) (amount : UInt64) :
    s.dealsSince (s.step (.postOffer u type p amount)).2 =
      (s.dealsSince (s.step (.postOffer u type q amount)).2).takeWhile
        fun d => Reference.crosses type p d.price := by
  obtain ⟨a, hs⟩ := h.stands
  have hviews : (s.tradesOf (.postOffer u type p amount)).map Trade.view =
      ((s.tradesOf (.postOffer u type q amount)).takeWhile
        fun t => Reference.crosses type p t.deal.price).map Trade.view := by
    rw [hs.tradesOf, Reference.tradesOf_within hp, ← hs.tradesOf, List.takeWhile_map]
    rfl
  have htrades := List.map_injective_iff.mpr Trade.view_injective hviews
  show (s.tradesOf _).map Trade.deal = ((s.tradesOf _).map Trade.deal).takeWhile _
  rw [htrades, List.takeWhile_map]
  rfl

theorem sample_limit_cuts_deals :
    Market.sample.dealsSince (Market.sample.step (.postOffer 1 .BUY 11 9)).2 =
      (Market.sample.dealsSince (Market.sample.step (.postOffer 1 .BUY 12 9)).2).takeWhile
        fun d => Reference.crosses .BUY 11 d.price :=
  limit_cuts_deals Market.sample_reachable 1 .BUY (p := 11) (q := 12) (by decide) 9

/-! Cancellations. -/

/-- A cancellation and a post that does not trade with the offer may change places. -/
theorem cancel_interchangeable (h : s.Reachable) (u v : Nat) (type : OfferType) (price : Int)
    (amount : UInt64) {i : Nat} (hi : i ≠ s.offerId)
    (hquiet : ∀ t ∈ s.tradesOf (.postOffer u type price amount), t.resting ≠ i) :
    s.Interchangeable (.postOffer u type price amount) (.removeOffer v i) := by
  obtain ⟨a, hs⟩ := h.stands
  have hquiet' : ∀ t ∈ a.tradesOf (.postOffer u type price amount), t.resting ≠ i := by
    rw [← hs.tradesOf]
    intro x hx
    obtain ⟨t, ht, rfl⟩ := List.mem_map.mp hx
    exact hquiet t ht
  rw [hs.sim.offerId] at hi
  obtain ⟨hremove, hpost⟩ := Reference.cancel_post v hi hquiet'
  constructor
  · refine ⟨_, _, hs.outputs_eq _, ?_⟩
    rw [hs.outputs_eq]
    simp only [Machine.outputs, hremove, hpost]
  · intro ops
    rw [(hs.run _).outputs_eq, (hs.run _).outputs_eq]
    simp only [Machine.exec_cons, Machine.exec_nil, hremove]

/-- A BUY at 11 takes the offer 2 and leaves the offer 0, which its owner cancels. -/
theorem sample_cancel_interchangeable :
    Market.sample.Interchangeable (.postOffer 1 .BUY 11 9) (.removeOffer 0 0) :=
  cancel_interchangeable Market.sample_reachable 1 0 .BUY 11 9 (by decide) (by decide)

/-! Accounts kept as one. -/

namespace Market

/-- The user of the call is registered if the account is, and cancels no offer that somebody else
has posted through it. -/
def Apart (f : Nat → Nat) (s : Market) : Op → Prop
  | .postOffer u .. | .depositUSD u _ | .depositRUB u _ =>
    (s.users.find? (f u)).isSome = (s.users.find? u).isSome
  | .removeOffer u i =>
    (s.users.find? (f u)).isSome = (s.users.find? u).isSome ∧
      ∀ v ∈ s.liveOffers, v.id = i → f v.ownerId = f u → v.ownerId = u
  | _ => True

instance (f : Nat → Nat) (s : Market) : (op : Op) → Decidable (s.Apart f op)
  | .postOffer .. | .depositUSD .. | .depositRUB .. => inferInstanceAs (Decidable (_ = _))
  | .removeOffer .. => inferInstanceAs (Decidable (_ = _ ∧ ∀ _ ∈ _, _))
  | .registerUser .. | .getUserBalance _ | .getActiveOffers _ | .getClosedDeals _ | .getQuote
  | .getAskBidQuotes => .isTrue trivial

/-- In `t` every user of `s` has traded through the account that `f` names: the deals are the same,
with the parties under their new names, and so is every answer that is not about one account, and
an account holds what the accounts of its users add up to. -/
structure MergedInto (f : Nat → Nat) (s t : Market) : Prop where
  deals : t.trades.map (fun x => x.deal.view) = s.trades.map fun x => x.deal.view.merge f
  offers : t.liveOffers.Perm (s.liveOffers.map (OfferView.merge f))
  answers : ∀ op, op.isPrivate = false → s.Apart f op → (t.step (op.merge f)).1 = (s.step op).1
  usd : ∀ d ∈ t.users, d.balance.usd =
    wrap32 ((s.users.elems.filter (f ·.id = d.id)).map fun e => e.balance.usd).sum
  rub : ∀ d ∈ t.users, d.balance.rub =
    wrap32 ((s.users.elems.filter (f ·.id = d.id)).map fun e => e.balance.rub).sum

end Market

variable {f : Nat → Nat}

theorem Stands.apart_iff (h : Stands s a) (op : Op) : s.Apart f op ↔ a.Apart f op := by
  cases op with
  | _ => simp only [Market.Apart, Reference.Apart, h.isSome_eq, h.mem_liveOffers]

/-- The balances of those who trade through `v` add up to what the entries make of it. -/
theorem Stands.sum_balances (h : Stands s a) {l : List (Nat × Int)}
    (hl : ∀ e ∈ l, (a.accounts e.1).isSome) {balance : UserData → Int}
    (hb : ∀ d ∈ s.users, balance d = wrap32 (depositedTo d.id l)) (v : Nat) :
    ((s.users.elems.filter (f ·.id = v)).map balance).sum ≡
      depositedTo v (l.map (mergeEntry f)) [ZMOD 2 ^ 32] := by
  have hmem : ∀ e ∈ l, e.1 ∈ s.users.elems.map UserData.id := by
    intro e he
    obtain ⟨d, hd⟩ := (h.registered_iff e.1).mpr (hl e he)
    obtain ⟨hd, hid⟩ := KeySet.find?_eq_some.mp hd
    exact List.mem_map.mpr ⟨d, hd, hid⟩
  have hnodup : (s.users.elems.map UserData.id).Nodup :=
    List.pairwise_map.mpr (s.users.sorted.imp fun h => h.ne)
  have hsum := Reference.sum_depositedTo (f := f) hnodup hmem v
  rw [List.filter_map, List.map_map] at hsum
  rw [← hsum, List.map_congr_left fun d hd => hb d (List.mem_filter.mp hd).1]
  exact sum_wrap32 _ _

/-- A balance is the wrap of what the entries of the account come to. -/
theorem Stands.balance (h : Stands s a) {l : History} (hl : a.Ledger l) {d : UserData}
    (hd : d ∈ s.users) :
    d.balance.usd = wrap32 (depositedTo d.id (entriesOf l.depositsUSD usdEntries a)) ∧
      d.balance.rub = wrap32 (depositedTo d.id (entriesOf l.depositsRUB rubEntries a)) := by
  obtain ⟨x, hx, hag⟩ := h.sim.account_some (KeySet.find?_of_mem hd)
  obtain ⟨husd, hrub⟩ := hl.entries h.wf hx
  rw [hag.usd, hag.rub, husd, hrub]
  exact ⟨rfl, rfl⟩

/-- A market that stands for the merged reference is the merged market. -/
theorem Stands.mergedInto {t : Market} {b : Reference} {h h' : History} (hs : Stands s a)
    (ht : Stands t b) (hm : Reference.Merged f a b) (hl : a.Ledger h) (hl' : b.Ledger h')
    (husd : h'.depositsUSD = h.depositsUSD.map (mergeEntry f))
    (hrub : h'.depositsRUB = h.depositsRUB.map (mergeEntry f)) : Market.MergedInto f s t where
  deals := by
    have hviews := congrArg (List.map TradeView.deal) hm.trades
    rw [← hs.sim.trades, ← ht.sim.trades] at hviews
    simp only [List.map_map] at hviews
    exact hviews
  offers := by
    refine ht.liveOffers_perm.trans ?_
    rw [hm.live]
    exact (hs.liveOffers_perm.map _).symm
  answers op hop hapart := by
    rw [ht.reply_eq, hs.reply_eq]
    exact (hm.step hs.wf ((hs.apart_iff op).mp hapart)).1 hop
  usd d hd := by
    have hregistered : ∀ e ∈ entriesOf h.depositsUSD usdEntries a, (a.accounts e.1).isSome :=
      hs.wf.registered hl.usd_to (by simp [usdEntries])
    rw [(ht.balance hl' hd).1, husd, hm.entriesOf fun _ => rfl]
    exact wrap32_congr (hs.sum_balances hregistered (fun e he => (hs.balance hl he).1) d.id).symm
  rub d hd := by
    have hregistered : ∀ e ∈ entriesOf h.depositsRUB rubEntries a, (a.accounts e.1).isSome :=
      hs.wf.registered hl.rub_to (by simp [rubEntries])
    rw [(ht.balance hl' hd).2, hrub, hm.entriesOf fun _ => rfl]
    exact wrap32_congr (hs.sum_balances hregistered (fun e he => (hs.balance hl he).2) d.id).symm

/-- Where the users trade through other accounts, their own or shared ones, the market makes the
same deals and gives the same answers, and each account holds what the accounts would have held
that are now one. -/
theorem accounts_merged (f : Nat → Nat) (offerId dealId userId : Nat) (ops : List Op)
    (hapart : Machine.Along Market.step (Market.Apart f) (Market.empty offerId dealId userId) ops) :
    Market.MergedInto f ((Market.empty offerId dealId userId).run ops)
      ((Market.empty offerId dealId userId).run (ops.map (Op.merge f))) := by
  have hempty := Stands.empty offerId dealId userId
  have hapart' : Machine.Along Reference.step (Reference.Apart f)
      (Reference.empty offerId dealId userId) ops :=
    (Machine.along_iff_of_sim (R := Stands) (fun _ _ op h => h.apart_iff op)
      (fun _ _ op h => h.step op) hempty ops).mp hapart
  obtain ⟨hm, husd, hrub⟩ :=
    (Reference.Merged.empty f offerId dealId userId).run hempty.wf hapart'
  have hs := hempty.run ops
  have ht := hempty.run (ops.map (Op.merge f))
  have hl := Reference.ledger_run offerId dealId userId ops
  have hl' := Reference.ledger_run offerId dealId userId (ops.map (Op.merge f))
  exact hs.mergedInto ht hm hl hl' husd hrub

/-- The users 0 and 2 trade through one account, at last with each other. -/
def sampleNames (u : Nat) : Nat := if u = 2 then 0 else u

def sampleMerged : List Op :=
  [.registerUser "first" false, .registerUser "other" false, .registerUser "second" false,
    .depositUSD 2 100, .postOffer 2 .SELL 10 4, .postOffer 2 .SELL 12 3, .postOffer 1 .BUY 10 1,
    .removeOffer 2 1, .postOffer 0 .BUY 11 5]

theorem sample_accounts_merged :
    Market.MergedInto sampleNames ((Market.empty 0 0 0).run sampleMerged)
      ((Market.empty 0 0 0).run (sampleMerged.map (Op.merge sampleNames))) :=
  accounts_merged sampleNames 0 0 0 sampleMerged (by decide)

end ForexMarket
