import ForexMarket.Spec.Trades

/- The laws of the reference over runs. `Moves` says once what a call can do; each law
   is kept by every move: the offers and trades are about ids already drawn and users
   already there (`WellFormed`), the accounts are the deposits and the deals
   (`Ledger`), and each posted offer is live, filled or cancelled (`Lifecycle`). -/
namespace ForexMarket

open Sums

namespace Reference

/-- A reply that records neither a deposit, nor a posted offer, nor a cancelled one. -/
def quiet : Reply → Bool
  | .done | .posted _ | .removed true => false
  | _ => true

def isPost : Op → Bool
  | .postOffer .. => true
  | _ => false

def registers : Op → Bool
  | .registerUser _ false => true
  | _ => false

/-- A call from `a` with its answer and the reference after it. -/
inductive Moves (a : Reference) : Op → Reply → Reference → Prop where
  | stay {op : Op} {r : Reply} (hr : quiet r = true) (hop : isPost op = false) : Moves a op r a
  | register (username : String) :
      Moves a (.registerUser username false) (.registered (some a.userId))
        { a with
          accounts := Function.update a.accounts a.userId (some { usd := 0, rub := 0, deals := [] })
          userId := a.userId + 1 }
  | depositUSD {u : Nat} {x : Account} (amount : UInt64) (hx : a.accounts u = some x) :
      Moves a (.depositUSD u amount) .done
        { a with
          accounts := Function.update a.accounts u (some { x with usd := x.usd + amount.toNat }) }
  | depositRUB {u : Nat} {x : Account} (amount : UInt64) (hx : a.accounts u = some x) :
      Moves a (.depositRUB u amount) .done
        { a with
          accounts := Function.update a.accounts u (some { x with rub := x.rub + amount.toNat }) }
  | lost {u : Nat} (type : OfferType) (price : Int) (amount : UInt64) (hx : a.accounts u = none) :
      Moves a (.postOffer u type price amount) (.fault .outOfRange)
        { a with offerId := a.offerId + 1 }
  | post {u : Nat} {x : Account} {ts : List TradeView} {a' : Reference} (type : OfferType)
      (price : Int) (amount : UInt64) (hx : a.accounts u = some x)
      (h : Matches { a with offerId := a.offerId + 1 }
        { id := a.offerId, ownerId := u, type := type, price := price, amount := amount.toNat }
        ts a') :
      Moves a (.postOffer u type price amount) (.posted a.offerId) a'
  | cancel {v : OfferView} (hv : v ∈ a.live) :
      Moves a (.removeOffer v.ownerId v.id) (.removed true) { a with live := a.live.erase v.id }

theorem step_moves (a : Reference) (op : Op) : Moves a op (a.step op).1 (a.step op).2 := by
  cases op with
  | registerUser username exist =>
    cases exist with
    | true => exact .stay rfl rfl
    | false => exact .register username
  | depositUSD u amount =>
    cases hx : a.accounts u with
    | none => simp only [step, writeUser, hx]; exact .stay rfl rfl
    | some x => simp only [step, writeUser, hx]; exact .depositUSD amount hx
  | depositRUB u amount =>
    cases hx : a.accounts u with
    | none => simp only [step, writeUser, hx]; exact .stay rfl rfl
    | some x => simp only [step, writeUser, hx]; exact .depositRUB amount hx
  | getUserBalance u =>
    cases hx : a.accounts u <;> simp only [step, readUser, hx] <;> exact .stay rfl rfl
  | getActiveOffers u =>
    cases hx : a.accounts u <;> simp only [step, readUser, hx] <;> exact .stay rfl rfl
  | getClosedDeals u =>
    cases hx : a.accounts u <;> simp only [step, readUser, hx] <;> exact .stay rfl rfl
  | postOffer u type price amount =>
    cases hx : a.accounts u with
    -- the id is drawn before the poster is looked up
    | none => simp only [step, hx]; exact .lost type price amount hx
    | some x =>
      simp only [step, hx]
      obtain ⟨ts, hts⟩ := matchOffer_matches { a with offerId := a.offerId + 1 }
        { id := a.offerId, ownerId := u, type := type, price := price, amount := amount.toNat }
      exact .post type price amount hx hts
  | removeOffer u i =>
    cases hx : a.accounts u with
    | none => simp only [step, hx]; exact .stay rfl rfl
    | some x =>
      simp only [step, hx]
      split
      · next h =>
        obtain ⟨v, hfind, hu⟩ := (Option.any_eq_true _ _).mp h
        obtain ⟨hv, rfl⟩ := KeySet.find?_eq_some.mp hfind
        obtain rfl : v.ownerId = u := of_decide_eq_true hu
        exact .cancel hv
      · exact .stay rfl rfl
  | getQuote => exact .stay rfl rfl
  | getAskBidQuotes => exact .stay rfl rfl

/-- A post draws an offer id whether or not it is accepted, and no other call does. -/
theorem Moves.offerId {a a' : Reference} {op : Op} {r : Reply} (hm : Moves a op r a') :
    a'.offerId = if isPost op then a.offerId + 1 else a.offerId := by
  cases hm with
  | stay hr hop => rw [hop]; rfl
  | post type price amount hx h => exact h.counters.1
  | _ => rfl

/-- A post makes deals under the next ids, and no other call makes one. -/
theorem Moves.deals {a a' : Reference} {op : Op} {r : Reply} (hm : Moves a op r a') :
    ∃ ts, a'.trades = a.trades ++ ts ∧
      ts.map (fun t => t.deal.id) = List.range' a.dealId ts.length ∧
      a'.dealId = a.dealId + ts.length ∧ (isPost op = false → ts = []) := by
  cases hm with
  | post type price amount hx h =>
    exact ⟨_, h.trades_eq, h.dealIds, h.dealId_eq, nofun⟩
  | _ => exact ⟨[], (List.append_nil _).symm, rfl, rfl, fun _ => rfl⟩

/-! Ids and users. -/

/-- What is live or traded has an id already drawn and a registered owner; the deals of an
account are the trades its user is a party of. -/
structure WellFormed (a : Reference) : Prop where
  live_lt : ∀ v ∈ a.live, v.id < a.offerId
  live_owner : ∀ v ∈ a.live, (a.accounts v.ownerId).isSome
  account_lt : ∀ u, (a.accounts u).isSome → u < a.userId
  trade_lt : ∀ t ∈ a.trades, t.incoming < a.offerId ∧ t.resting < a.offerId
  trade_party : ∀ t ∈ a.trades,
    (a.accounts t.deal.buyerId).isSome ∧ (a.accounts t.deal.sellerId).isSome
  deals : ∀ u x, a.accounts u = some x →
    x.deals = (a.trades.map TradeView.deal).filter (fun d => u = d.buyerId ∨ u = d.sellerId)

theorem isSome_update {f : Nat → Option Account} {u : Nat} {x y : Account} (hx : f u = some x)
    (v : Nat) : (Function.update f u (some y) v).isSome = (f v).isSome := by
  rw [Function.update_apply]
  split
  · next hv => rw [hv, hx]; rfl
  · rfl

/-- A call leaves the users there are, and no others. -/
theorem Matches.registered {a a' : Reference} {o : OfferView} {ts : List TradeView}
    (h : Matches a o ts a') (u : Nat) : (a'.accounts u).isSome = (a.accounts u).isSome := by
  induction h with
  | rest h => rfl
  | fill h hfull => simp [trade, settle]
  | more h hleft hrest ih => rw [ih]; simp [trade, settle]

/-- A registration adds the user of the next id, and no other call adds or removes one. -/
theorem step_users (a : Reference) (op : Op) :
    (a.step op).2.userId = (if registers op then a.userId + 1 else a.userId) ∧
      ∀ v, ((a.step op).2.accounts v).isSome ↔
        (a.accounts v).isSome ∨ (registers op = true ∧ v = a.userId) := by
  have hsame : ∀ v, (a.accounts v).isSome ↔
      (a.accounts v).isSome ∨ (false = true ∧ v = a.userId) := by simp
  have hwrite : ∀ u f, (a.writeUser u f).2.userId = a.userId ∧
      ∀ v, ((a.writeUser u f).2.accounts v).isSome = (a.accounts v).isSome := by
    intro u f
    unfold writeUser
    cases hx : a.accounts u with
    | none => exact ⟨rfl, fun _ => rfl⟩
    | some x => exact ⟨rfl, fun v => isSome_update hx v⟩
  cases op with
  | registerUser username exist =>
    cases exist with
    | true => exact ⟨rfl, hsame⟩
    | false =>
      refine ⟨rfl, fun v => ?_⟩
      simp only [step, registers, Bool.false_eq_true, if_false, Function.update_apply]
      by_cases hv : v = a.userId
      · simp [hv]
      · simp [hv]
  | depositUSD u amount =>
    exact ⟨(hwrite _ _).1, fun v => by rw [step, (hwrite _ _).2]; exact hsame v⟩
  | depositRUB u amount =>
    exact ⟨(hwrite _ _).1, fun v => by rw [step, (hwrite _ _).2]; exact hsame v⟩
  | getUserBalance u => rw [step, readUser_snd]; exact ⟨rfl, hsame⟩
  | getActiveOffers u => rw [step, readUser_snd]; exact ⟨rfl, hsame⟩
  | getClosedDeals u => rw [step, readUser_snd]; exact ⟨rfl, hsame⟩
  | postOffer u type price amount =>
    cases hx : a.accounts u with
    | none => simp only [step, hx]; exact ⟨rfl, hsame⟩
    | some x =>
      simp only [step, hx]
      obtain ⟨ts, hts⟩ := matchOffer_matches { a with offerId := a.offerId + 1 }
        { id := a.offerId, ownerId := u, type := type, price := price, amount := amount.toNat }
      exact ⟨hts.counters.2, fun v => by rw [hts.registered]; exact hsame v⟩
  | removeOffer u i =>
    cases hx : a.accounts u with
    | none => simp only [step, hx]; exact ⟨rfl, hsame⟩
    | some x =>
      simp only [step, hx]
      split
      · exact ⟨rfl, hsame⟩
      · exact ⟨rfl, hsame⟩
  | getQuote => exact ⟨rfl, hsame⟩
  | getAskBidQuotes => exact ⟨rfl, hsame⟩

/-- What a deal keeps of each account, a call keeps. -/
theorem Matches.accounts_inv {P : Nat → Account → Prop}
    (hP : ∀ u x d, P u x → P u (x.afterDeal u d)) {a a' : Reference} {o : OfferView}
    {ts : List TradeView} (h : Matches a o ts a') (ha : ∀ u x, a.accounts u = some x → P u x) :
    ∀ u x, a'.accounts u = some x → P u x := by
  -- one trade keeps it
  have htrade : ∀ {a : Reference} {o r : OfferView}, (∀ u x, a.accounts u = some x → P u x) →
      ∀ u x, (a.trade o r).accounts u = some x → P u x := by
    intro a o r ha u x hx
    obtain ⟨y, hy, rfl⟩ := Option.map_eq_some_iff.mp hx
    exact hP u y _ (ha u y hy)
  induction h with
  | rest h => exact ha
  | fill h hfull => exact htrade ha
  | more h hleft hrest ih => exact ih (htrade ha)

/-- A call adds its deals to the accounts of their parties. -/
theorem Matches.deals {a a' : Reference} {o : OfferView} {ts : List TradeView}
    (h : Matches a o ts a')
    (ha : ∀ u x, a.accounts u = some x → x.deals =
      (a.trades.map TradeView.deal).filter (fun d => u = d.buyerId ∨ u = d.sellerId)) :
    ∀ u x, a'.accounts u = some x → x.deals =
      (a'.trades.map TradeView.deal).filter (fun d => u = d.buyerId ∨ u = d.sellerId) := by
  have htrade : ∀ {a : Reference} {o r : OfferView},
      (∀ u x, a.accounts u = some x → x.deals =
        (a.trades.map TradeView.deal).filter (fun d => u = d.buyerId ∨ u = d.sellerId)) →
      ∀ u x, (a.trade o r).accounts u = some x → x.deals =
        ((a.trade o r).trades.map TradeView.deal).filter
          (fun d => u = d.buyerId ∨ u = d.sellerId) := by
    intro a o r ha u x hx
    obtain ⟨y, hy, rfl⟩ := Option.map_eq_some_iff.mp hx
    simp only [trade, List.map_append, List.filter_append, ← ha u y hy, Account.afterDeal]
    by_cases hu : u = (a.dealOf o r).buyerId ∨ u = (a.dealOf o r).sellerId
    · simp [hu, tradeOf]
    · simp [hu, tradeOf]
  induction h with
  | rest h => exact ha
  | fill h hfull => exact htrade ha
  | more h hleft hrest ih => exact ih (htrade ha)

namespace WellFormed

theorem empty (i j k : Nat) : WellFormed (Reference.empty i j k) where
  live_lt := fun v hv => absurd hv (KeySet.not_mem_empty v)
  live_owner := fun v hv => absurd hv (KeySet.not_mem_empty v)
  account_lt := fun u hu => by simp [Reference.empty] at hu
  trade_lt := fun t ht => by simp [Reference.empty] at ht
  trade_party := fun t ht => by simp [Reference.empty] at ht
  deals := fun u x hx => by simp [Reference.empty] at hx

variable {a a' : Reference}

/-- An offer just constructed is new. -/
theorem fresh (h : WellFormed a) : ∀ v ∈ a.live, v.id ≠ a.offerId :=
  fun v hv => (h.live_lt v hv).ne

theorem update (h : WellFormed a) {u : Nat} {x y : Account} (hx : a.accounts u = some x)
    (hy : y.deals = x.deals) :
    WellFormed { a with accounts := Function.update a.accounts u (some y) } := by
  have hsome := fun v => isSome_update (y := y) hx v
  refine ⟨h.live_lt, fun v hv => ?_, fun v hv => ?_, h.trade_lt, fun t ht => ?_, fun v z hz => ?_⟩
  · rw [hsome]; exact h.live_owner v hv
  · rw [hsome] at hv; exact h.account_lt v hv
  · rw [hsome, hsome]; exact h.trade_party t ht
  · simp only [Function.update_apply] at hz
    split at hz
    · next hv => rw [← Option.some.inj hz, hy, hv]; exact h.deals u x hx
    · exact h.deals v z hz

/-- A new user is a party of no trade. -/
theorem deals_eq_nil (h : WellFormed a) :
    (a.trades.map TradeView.deal).filter
      (fun d => a.userId = d.buyerId ∨ a.userId = d.sellerId) = [] := by
  apply List.filter_eq_nil_iff.mpr
  intro d hd
  obtain ⟨t, ht, rfl⟩ := List.mem_map.mp hd
  have hb := h.account_lt _ (h.trade_party t ht).1
  have hs := h.account_lt _ (h.trade_party t ht).2
  simp only [decide_eq_true_eq]
  omega

theorem register (h : WellFormed a) :
    WellFormed { a with
      accounts := Function.update a.accounts a.userId (some { usd := 0, rub := 0, deals := [] })
      userId := a.userId + 1 } := by
  -- the users afterwards are those there were and the new one
  have hsome : ∀ v, (Function.update a.accounts a.userId
      (some { usd := 0, rub := 0, deals := [] }) v).isSome = true ↔
      v = a.userId ∨ (a.accounts v).isSome := by
    intro v
    rw [Function.update_apply]
    by_cases hv : v = a.userId
    · simp [hv]
    · simp [hv]
  constructor
  case live_lt => exact h.live_lt
  case live_owner => exact fun v hv => (hsome _).mpr (.inr (h.live_owner v hv))
  case account_lt =>
    intro v hv
    rcases (hsome v).mp hv with rfl | hv
    · exact Nat.lt_succ_self _
    · exact (h.account_lt v hv).trans (Nat.lt_succ_self _)
  case trade_lt => exact h.trade_lt
  case trade_party =>
    intro t ht
    exact ⟨(hsome _).mpr (.inr (h.trade_party t ht).1),
      (hsome _).mpr (.inr (h.trade_party t ht).2)⟩
  case deals =>
    intro v z hz
    simp only [Function.update_apply] at hz
    split at hz
    · next hv =>
      rw [← Option.some.inj hz, hv]
      exact h.deals_eq_nil.symm
    · exact h.deals v z hz

/-- What a post leaves live is the posted offer or was live, and it trades with what was live. -/
theorem post (h : WellFormed a) {u : Nat} {x : Account} {ts : List TradeView} {type : OfferType}
    {price : Int} {amount : Nat} (hx : a.accounts u = some x)
    (hm : Matches { a with offerId := a.offerId + 1 }
      { id := a.offerId, ownerId := u, type := type, price := price, amount := amount } ts a') :
    WellFormed a' := by
  obtain ⟨hoid, huid⟩ := hm.counters
  have hreg := hm.registered
  have howner : (a.accounts u).isSome := by rw [hx]; rfl
  constructor
  case live_lt =>
    intro v hv
    obtain ⟨w, hw, hid, -⟩ := hm.origin hv
    rw [hoid, hid]
    rcases hw with rfl | hw
    · exact Nat.lt_succ_self _
    · exact (h.live_lt w hw).trans (Nat.lt_succ_self _)
  case live_owner =>
    intro v hv
    obtain ⟨w, hw, -, hu, -⟩ := hm.origin hv
    rw [hreg, hu]
    rcases hw with rfl | hw
    · exact howner
    · exact h.live_owner w hw
  case account_lt =>
    intro v hv
    rw [hreg] at hv
    rw [huid]
    exact h.account_lt v hv
  case trade_lt =>
    intro t ht
    rw [hm.trades_eq] at ht
    rw [hoid]
    rcases List.mem_append.mp ht with ht | ht
    · exact ⟨(h.trade_lt t ht).1.trans (Nat.lt_succ_self _),
        (h.trade_lt t ht).2.trans (Nat.lt_succ_self _)⟩
    · obtain ⟨hin, w, hw, hid, -⟩ := hm.resting t ht
      rw [hin, ← hid]
      exact ⟨Nat.lt_succ_self _, (h.live_lt w hw).trans (Nat.lt_succ_self _)⟩
  case trade_party =>
    intro t ht
    rw [hm.trades_eq] at ht
    rw [hreg, hreg]
    rcases List.mem_append.mp ht with ht | ht
    · exact h.trade_party t ht
    · -- the parties are the owners of the posted and of the resting offer
      obtain ⟨-, w, hw, -, -, -, -, -, hb, hs⟩ := hm.resting t ht
      rw [hb, hs]
      constructor
      · split
        · exact howner
        · exact h.live_owner w hw
      · split
        · exact howner
        · exact h.live_owner w hw
  case deals => exact hm.deals h.deals

theorem move {op : Op} {r : Reply} (h : WellFormed a) (hm : Moves a op r a') : WellFormed a' := by
  cases hm with
  | stay hr hop => exact h
  | depositUSD amount hx => exact h.update hx rfl
  | depositRUB amount hx => exact h.update hx rfl
  | register username => exact h.register
  | lost type price amount hx =>
    exact ⟨fun v hv => (h.live_lt v hv).trans (Nat.lt_succ_self _), h.live_owner, h.account_lt,
      fun t ht => ⟨(h.trade_lt t ht).1.trans (Nat.lt_succ_self _),
        (h.trade_lt t ht).2.trans (Nat.lt_succ_self _)⟩, h.trade_party, h.deals⟩
  | cancel hv =>
    exact ⟨fun w hw => h.live_lt w (KeySet.mem_erase.mp hw).1,
      fun w hw => h.live_owner w (KeySet.mem_erase.mp hw).1, h.account_lt, h.trade_lt,
      h.trade_party, h.deals⟩
  | post type price amount hx hm => exact h.post hx hm

end WellFormed

/-! The ledger. -/

/-- What the user bought in the deals, in USD. -/
def bought (u : Nat) (ds : List DealView) : Int :=
  sumWhere (fun d => d.buyerId = u) (fun d => (d.amount : Int)) ds

/-- What the user sold in the deals, in USD. -/
def sold (u : Nat) (ds : List DealView) : Int :=
  sumWhere (fun d => d.sellerId = u) (fun d => (d.amount : Int)) ds

/-- What the user paid in the deals, in RUB. -/
def paid (u : Nat) (ds : List DealView) : Int :=
  sumWhere (fun d => d.buyerId = u) (fun d => d.amount * d.price) ds

/-- What the user was paid in the deals, in RUB. -/
def earned (u : Nat) (ds : List DealView) : Int :=
  sumWhere (fun d => d.sellerId = u) (fun d => d.amount * d.price) ds

/-- What was deposited to the user. -/
def depositedTo (u : Nat) (l : List (Nat × Int)) : Int := sumWhere (fun e => e.1 = u) Prod.snd l

theorem depositedTo_nil (u : Nat) : depositedTo u [] = 0 := rfl

theorem depositedTo_append (u : Nat) (l l' : List (Nat × Int)) :
    depositedTo u (l ++ l') = depositedTo u l + depositedTo u l' :=
  sumWhere_append ..

theorem depositedTo_singleton (u : Nat) (n : Int) : depositedTo u [(u, n)] = n := by
  simp [depositedTo, sumWhere_cons]

/-- Nothing was deposited to a user there is no deposit for. -/
theorem depositedTo_of_none {u : Nat} {l : List (Nat × Int)} (h : ∀ e ∈ l, e.1 ≠ u) :
    depositedTo u l = 0 :=
  sumWhere_of_none fun e he => decide_eq_false (h e he)

/-- The account holds what was deposited and what its deals moved. -/
structure Balanced (usd rub : Int) (u : Nat) (x : Account) : Prop where
  usd : x.usd = usd + bought u x.deals - sold u x.deals
  rub : x.rub = rub - paid u x.deals + earned u x.deals

theorem Balanced.afterDeal {usd rub : Int} {u : Nat} {x : Account} (h : Balanced usd rub u x)
    (d : DealView) : Balanced usd rub u (x.afterDeal u d) := by
  -- the user buys, sells, does both in a self-trade, or is no party of the deal
  have hb : u = d.buyerId ↔ d.buyerId = u := eq_comm
  have hs : u = d.sellerId ↔ d.sellerId = u := eq_comm
  have husd := h.usd
  have hrub := h.rub
  refine ⟨?_, ?_⟩
  · simp only [Account.afterDeal, hb, hs]
    by_cases hbuy : d.buyerId = u <;> by_cases hsell : d.sellerId = u <;>
      simp [hbuy, hsell, bought, sold, sumWhere_append, sumWhere_cons] at husd ⊢ <;> omega
  · simp only [Account.afterDeal, hb, hs]
    by_cases hbuy : d.buyerId = u <;> by_cases hsell : d.sellerId = u <;>
      simp [hbuy, hsell, paid, earned, sumWhere_append, sumWhere_cons] at hrub ⊢ <;> omega

/-- Every account is balanced, and deposits went to registered users. -/
structure Ledger (h : History) (a : Reference) : Prop where
  balanced : ∀ u x, a.accounts u = some x →
    Balanced (depositedTo u h.depositsUSD) (depositedTo u h.depositsRUB) u x
  usd_to : ∀ e ∈ h.depositsUSD, (a.accounts e.1).isSome
  rub_to : ∀ e ∈ h.depositsRUB, (a.accounts e.1).isSome

theorem depositUSDOf_quiet {op : Op} {r : Reply} (hr : quiet r = true) :
    History.depositUSDOf (op, r) = none := by
  cases r <;> first | rfl | cases hr

theorem depositRUBOf_quiet {op : Op} {r : Reply} (hr : quiet r = true) :
    History.depositRUBOf (op, r) = none := by
  cases r <;> first | rfl | cases hr

theorem postedOf_quiet {op : Op} {r : Reply} (hr : quiet r = true) :
    History.postedOf (op, r) = none := by
  cases r <;> first | rfl | cases hr

theorem cancelledOf_quiet {op : Op} {r : Reply} (hr : quiet r = true) :
    History.cancelledOf (op, r) = none := by
  cases r with
  | removed b => cases b <;> first | rfl | cases hr
  | _ => rfl

namespace Ledger

variable {h : History} {a a' : Reference}

theorem empty (i j k : Nat) : Ledger [] (Reference.empty i j k) where
  balanced := fun u x hx => by simp [Reference.empty] at hx
  usd_to := fun e he => by simp [History.depositsUSD] at he
  rub_to := fun e he => by simp [History.depositsRUB] at he

/-- A call that deposits nothing and keeps the balances. -/
theorem keep {op : Op} {r : Reply} (hl : Ledger h a)
    (husd : History.depositUSDOf (op, r) = none) (hrub : History.depositRUBOf (op, r) = none)
    (hbal : ∀ u x, a'.accounts u = some x →
      Balanced (depositedTo u h.depositsUSD) (depositedTo u h.depositsRUB) u x)
    (hreg : ∀ u, (a.accounts u).isSome → (a'.accounts u).isSome) :
    Ledger (h ++ [(op, r)]) a' := by
  have husd : History.depositsUSD (h ++ [(op, r)]) = h.depositsUSD := by
    simp [History.depositsUSD, husd]
  have hrub : History.depositsRUB (h ++ [(op, r)]) = h.depositsRUB := by
    simp [History.depositsRUB, hrub]
  refine ⟨?_, ?_, ?_⟩
  · rw [husd, hrub]
    exact hbal
  · rw [husd]
    exact fun e he => hreg _ (hl.usd_to e he)
  · rw [hrub]
    exact fun e he => hreg _ (hl.rub_to e he)

/-- A call that deposits to one user, in either currency. -/
theorem deposit (hl : Ledger h a) {e : Op × Reply} {u : Nat} {x : Account}
    (hx : a.accounts u = some x) (usd rub : List (Nat × Int))
    (husd : History.depositsUSD (h ++ [e]) = h.depositsUSD ++ usd)
    (hrub : History.depositsRUB (h ++ [e]) = h.depositsRUB ++ rub)
    (husdTo : ∀ e ∈ usd, e.1 = u) (hrubTo : ∀ e ∈ rub, e.1 = u) :
    Ledger (h ++ [e]) { a with
      accounts := Function.update a.accounts u (some { x with
        usd := x.usd + depositedTo u usd, rub := x.rub + depositedTo u rub }) } := by
  have hregistered : ∀ e : Nat × Int, e.1 = u → (a.accounts e.1).isSome := by
    intro e he
    rw [he, hx]
    rfl
  refine ⟨?_, ?_, ?_⟩
  · intro v y hy
    rw [husd, hrub, depositedTo_append, depositedTo_append]
    simp only [Function.update_apply] at hy
    split at hy
    · next hv =>
      have hb := hl.balanced u x hx
      have husd := hb.usd
      have hrub := hb.rub
      rw [← Option.some.inj hy, hv]
      constructor
      · dsimp only
        omega
      · dsimp only
        omega
    · next hv =>
      -- nothing was deposited to another user
      rw [depositedTo_of_none fun e he ev => hv (ev.symm.trans (husdTo e he)),
        depositedTo_of_none fun e he ev => hv (ev.symm.trans (hrubTo e he)), add_zero, add_zero]
      exact hl.balanced v y hy
  · intro e he
    rw [isSome_update hx]
    rw [husd] at he
    cases List.mem_append.mp he with
    | inl he => exact hl.usd_to e he
    | inr he => exact hregistered e (husdTo e he)
  · intro e he
    rw [isSome_update hx]
    rw [hrub] at he
    cases List.mem_append.mp he with
    | inl he => exact hl.rub_to e he
    | inr he => exact hregistered e (hrubTo e he)

/-- No deposit went to a user who registers now. -/
theorem register (hl : Ledger h a) (hw : WellFormed a) (username : String) :
    Ledger (h ++ [(.registerUser username false, .registered (some a.userId))]) { a with
      accounts := Function.update a.accounts a.userId (some { usd := 0, rub := 0, deals := [] })
      userId := a.userId + 1 } := by
  have hold : ∀ v, (a.accounts v).isSome → v ≠ a.userId := fun v hv => (hw.account_lt v hv).ne
  apply hl.keep rfl rfl
  · intro u x hx
    simp only [Function.update_apply] at hx
    split at hx
    · next hu =>
      rw [← Option.some.inj hx, hu, depositedTo_of_none fun e he => hold _ (hl.usd_to e he),
        depositedTo_of_none fun e he => hold _ (hl.rub_to e he)]
      exact ⟨rfl, rfl⟩
    · exact hl.balanced u x hx
  · intro u hu
    simp only [Function.update_apply]
    split
    · rfl
    · exact hu

theorem move {op : Op} {r : Reply} (hl : Ledger h a) (hw : WellFormed a) (hm : Moves a op r a') :
    Ledger (h ++ [(op, r)]) a' := by
  cases hm with
  | stay hr hop =>
    exact hl.keep (depositUSDOf_quiet hr) (depositRUBOf_quiet hr) hl.balanced fun u hu => hu
  | lost type price amount hx => exact hl.keep rfl rfl hl.balanced fun u hu => hu
  | cancel hv => exact hl.keep rfl rfl hl.balanced fun u hu => hu
  | post type price amount hx hm =>
    apply hl.keep rfl rfl
    · exact hm.accounts_inv (fun u x d hb => hb.afterDeal d) hl.balanced
    · intro u hu
      rw [hm.registered]
      exact hu
  | register username => exact hl.register hw username
  | @depositUSD u x amount hx =>
    have husd : History.depositsUSD (h ++ [(.depositUSD u amount, .done)]) =
        h.depositsUSD ++ [(u, (amount.toNat : Int))] := by
      simp [History.depositsUSD, History.depositUSDOf]
    have hrub : History.depositsRUB (h ++ [(.depositUSD u amount, .done)]) =
        h.depositsRUB ++ [] := by
      simp [History.depositsRUB, History.depositRUBOf]
    have hdeposit := hl.deposit hx _ _ husd hrub (by simp) (by simp)
    rwa [depositedTo_singleton, depositedTo_nil, add_zero] at hdeposit
  | @depositRUB u x amount hx =>
    have husd : History.depositsUSD (h ++ [(.depositRUB u amount, .done)]) =
        h.depositsUSD ++ [] := by
      simp [History.depositsUSD, History.depositUSDOf]
    have hrub : History.depositsRUB (h ++ [(.depositRUB u amount, .done)]) =
        h.depositsRUB ++ [(u, (amount.toNat : Int))] := by
      simp [History.depositsRUB, History.depositRUBOf]
    have hdeposit := hl.deposit hx _ _ husd hrub (by simp) (by simp)
    rwa [depositedTo_singleton, depositedTo_nil, add_zero] at hdeposit

end Ledger

/-- The quote changes only to the price of a trade of the call. -/
theorem Moves.quote {a a' : Reference} {op : Op} {r : Reply} (hm : Moves a op r a')
    (hq : a'.quote ≠ a.quote) :
    ∃ ts, a'.trades = a.trades ++ ts ∧ ∃ t ∈ ts, a'.quote = some t.deal.price := by
  cases hm with
  | @post u x ts _ type price amount hx hm =>
    refine ⟨ts, hm.trades_eq, ?_⟩
    have heq := hm.quote_eq
    cases hl : ts.getLast? with
    | none => rw [hl] at heq; exact absurd heq hq
    | some t =>
      rw [hl] at heq
      exact ⟨t, List.mem_of_mem_getLast? hl, heq⟩
  | _ => exact absurd rfl hq

/-! The amounts. -/

/-- The amount of type `t` that a call posts. -/
def postedAmount (t : OfferType) (e : Op × Reply) : Nat :=
  (History.postedOf e).elim 0 fun v => if v.type = t then v.amount else 0

/-- The amount of type `t` that a call cancels, of the live offers before it. -/
def cancelledAmount (t : OfferType) (live : List OfferView) (e : Op × Reply) : Nat :=
  (History.cancelledOf e).elim 0 fun p =>
    sumWhere (fun o => o.id = p ∧ o.type = t) OfferView.amount live

theorem cancelledAmount_of_mem {live : KeySet OfferView OfferView.id} {v : OfferView}
    (hv : v ∈ live) (t : OfferType) :
    sumWhere (fun o => o.id = v.id ∧ o.type = t) OfferView.amount live.elems =
      if v.type = t then v.amount else 0 := by
  rw [sumWhere_perm (KeySet.perm_erase hv), sumWhere_cons, sumWhere_of_none, add_zero]
  · simp
  · intro w hw
    have hne : w.id ≠ v.id := (KeySet.mem_erase.mp hw).2
    simp [hne]

/-- What is posted is traded, stays live, or is cancelled. -/
theorem Moves.amounts {a a' : Reference} {op : Op} {r : Reply} (hm : Moves a op r a')
    (hw : WellFormed a) (t : OfferType) :
    tradedTotal a'.trades + sideTotal a'.live.elems t + cancelledAmount t a.live.elems (op, r) =
      tradedTotal a.trades + sideTotal a.live.elems t + postedAmount t (op, r) := by
  cases hm with
  | stay hr hop =>
    simp only [cancelledAmount, postedAmount, cancelledOf_quiet hr, postedOf_quiet hr,
      Option.elim_none]
  | register username => rfl
  | depositUSD amount hx => rfl
  | depositRUB amount hx => rfl
  | lost type price amount hx => rfl
  | @cancel v hv =>
    have hpost : postedAmount t (.removeOffer v.ownerId v.id, .removed true) = 0 := rfl
    have hcancel : cancelledAmount t a.live.elems (.removeOffer v.ownerId v.id, .removed true) =
        if v.type = t then v.amount else 0 := cancelledAmount_of_mem hv t
    rw [hpost, hcancel, sideTotal_erase hv t]
    dsimp only
    omega
  | @post u x ts _ type price amount hx hm =>
    have hpost : postedAmount t (.postOffer u type price amount, .posted a.offerId) =
        if type = t then amount.toNat else 0 := rfl
    have hcancel : cancelledAmount t a.live.elems
        (.postOffer u type price amount, .posted a.offerId) = 0 := rfl
    have htrades : a'.trades = a.trades ++ ts := hm.trades_eq
    have htotals := hm.totals fun v hv => (hw.live_lt v hv).ne
    have hopp : tradedTotal ts + sideTotal a'.live.elems type.opposite =
      sideTotal a.live.elems type.opposite := htotals.1
    have hown : tradedTotal ts + sideTotal a'.live.elems type =
      sideTotal a.live.elems type + amount.toNat := htotals.2
    rw [hpost, hcancel, htrades, tradedTotal_append]
    by_cases ht : type = t
    · rw [if_pos ht, ← ht]
      omega
    · rw [if_neg ht, OfferType.eq_opposite ht]
      omega

end Reference

end ForexMarket
