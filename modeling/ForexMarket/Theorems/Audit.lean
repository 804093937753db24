import ForexMarket.Theorems.Atomicity
import ForexMarket.Theorems.Ledger

/- What the insertions of offers and deals leave behind. Over all runs none is refused, so
   each table holds, in order, the rows of all that was constructed (`offers_journal`,
   `deals_journal`); whoever a deal names was registered before it, and so was the owner of an
   offer, unless it was posted for a user who is not registered (`references_kept`); and from
   the deals that a run has recorded, with what was deposited in it, the accounts of the run can
   be replayed (`accounts_replayed`). -/
namespace ForexMarket

open Wrap
open Reference (bought sold paid earned depositedTo)

/-- The row a deal is recorded in. -/
def Deal.row (d : Deal) : StoredDeal :=
  { id := d.id, sellerId := d.sellerId, buyerId := d.buyerId, amount := d.amount,
    price := d.price }

/-- The deal a row records, as its getters report it. -/
def StoredDeal.view (r : StoredDeal) : DealView :=
  { id := r.id, sellerId := r.sellerId, buyerId := r.buyerId, price := r.price,
    amount := r.amount.toNat }

/-- The deals of a call are one insertion after the other. -/
theorem Tables.addDeals_eq (db : Tables) (deals : List Deal) :
    deals.foldl (fun db deal =>
        db.addDeal deal.id deal.sellerId deal.buyerId deal.amount deal.price) db =
      { db with deal := (deals.map Deal.row).foldl KeyTable.insert db.deal } := by
  induction deals generalizing db with
  | nil => rfl
  | cons deal deals ih =>
    rw [List.foldl_cons, ih]
    rfl

/-- The quote is the price of the last deal. -/
theorem Reference.Moves.quote_last {a a' : Reference} {op : Op} {r : Reply}
    (hm : a.Moves op r a') (h : a.quote = a.trades.getLast?.map fun t => t.deal.price) :
    a'.quote = a'.trades.getLast?.map fun t => t.deal.price := by
  cases hm with
  | post type price amount hx hm =>
    rw [hm.quote_eq, hm.trades_eq, List.getLast?_append, h, Option.map_or]
  | _ => exact h

namespace Store

/-! What is written. -/

/-- The row of an offer that is posted, whoever posts it. -/
def offerRows (s : Store) : Event → List StoredOffer
  | .call (.postOffer u type price amount) _ =>
    if s.running then
      [{ id := s.market.offerId, ownerId := u, type := type = .BUY, amount := amount,
         price := price }]
    else []
  | _ => []

/-- The rows of the deals that are made. -/
def dealRows (s : Store) : Event → List StoredDeal
  | .start => []
  | .call op _ =>
    if s.running then (s.market.dealsSince (s.market.step op).2).map Deal.row else []

/-- The user a call registered. -/
def registeredBy : Option Reply → List Nat
  | some (.registered (some id)) => [id]
  | _ => []

/-- The id of a user who is registered. -/
def userIds (s : Store) : Event → List Nat
  | .start => []
  | .call op pwHash => registeredBy (s.step (.call op pwHash)).1

/-- The tables hold what they held and what an event writes. -/
structure Wrote (s : Store) (e : Event) (db : Tables) : Prop where
  offer : db.offer.rows = s.tables.offer.rows ++ s.offerRows e
  deal : db.deal.rows = s.tables.deal.rows ++ s.dealRows e

/-- What holds in every history, if the users registered in it are these: the stored ids have all
been drawn, and whoever is named in the `Deal` table or registered in the run is one of the
users. -/
structure Recorded (l : List Nat) (s : Store) : Prop where
  reachable : s.market.Reachable
  offer_lt : s.running = true → ∀ row ∈ s.tables.offer.rows, row.id < s.market.offerId
  deal_lt : s.running = true → ∀ row ∈ s.tables.deal.rows, row.id < s.market.dealId
  offer_ids : s.tables.offer.rows.Pairwise fun row row' => row.id < row'.id
  deal_ids : s.tables.deal.rows.Pairwise fun row row' => row.id < row'.id
  parties : ∀ row ∈ s.tables.deal.rows, row.sellerId ∈ l ∧ row.buyerId ∈ l
  users : s.running = true → ∀ u, (s.market.users.find? u).isSome → u ∈ l

variable {l : List Nat} {s : Store}

theorem Recorded.idle : Recorded [] idle where
  reachable := ⟨0, 0, 0, [], rfl⟩
  offer_lt h := by cases h
  deal_lt h := by cases h
  offer_ids := .nil
  deal_ids := .nil
  parties row h := by cases h
  users h := by cases h

/-- Rows are written in a run only. -/
theorem running_of_offerRows {e : Event} {row : StoredOffer} (h : row ∈ s.offerRows e) :
    s.running = true := by
  by_contra hstopped
  cases e with
  | start => cases h
  | call op pwHash => cases op <;> simp [offerRows, hstopped] at h

theorem running_of_dealRows {e : Event} {row : StoredDeal} (h : row ∈ s.dealRows e) :
    s.running = true := by
  by_contra hstopped
  cases e with
  | start => cases h
  | call op pwHash => simp [dealRows, hstopped] at h

/-- A post writes one row, under the next id. -/
theorem offerRows_ids (s : Store) (e : Event) :
    (s.offerRows e).Pairwise (fun row row' => row.id < row'.id) ∧
      ∀ row ∈ s.offerRows e, row.id = s.market.offerId := by
  cases e with
  | start => exact ⟨.nil, fun row hrow => by cases hrow⟩
  | call op pwHash =>
    cases op with
    | postOffer u type price amount =>
      rw [offerRows]
      split
      · exact ⟨List.pairwise_singleton _ _, fun row hrow => by rw [List.mem_singleton.mp hrow]⟩
      · exact ⟨.nil, fun row hrow => by cases hrow⟩
    | _ => exact ⟨.nil, fun row hrow => by cases hrow⟩

/-- The rows of the deals are written under the next ids. -/
theorem Recorded.dealRows_ids (h : s.Recorded l) (e : Event) :
    (s.dealRows e).Pairwise (fun row row' => row.id < row'.id) ∧
      ∀ row ∈ s.dealRows e,
        s.market.dealId ≤ row.id ∧ row.id < (s.step e).2.market.dealId := by
  cases e with
  | start => exact ⟨.nil, fun row hrow => by cases hrow⟩
  | call op pwHash =>
    rw [dealRows]
    split
    · next hrun =>
      obtain ⟨a, hs⟩ := h.reachable.stands
      obtain ⟨hids, hcount, -⟩ := hs.dealsSince op
      refine ⟨List.pairwise_map.mpr ?_, fun row hrow => ?_⟩
      · exact List.pairwise_map.mp (hids ▸ List.pairwise_lt_range')
      · obtain ⟨deal, hdeal, rfl⟩ := List.mem_map.mp hrow
        rw [step_call hrun, hcount]
        exact List.mem_range'_1.mp (hids ▸ List.mem_map_of_mem hdeal)
    · exact ⟨.nil, fun row hrow => by cases hrow⟩

/-- No insertion is refused. -/
theorem Recorded.wrote_call (h : s.Recorded l) (hrun : s.running = true) (op : Op)
    (pwHash : UInt64) : s.Wrote (.call op pwHash)
      (record s.tables s.market (s.market.step op).2 pwHash op) := by
  obtain ⟨a, hs⟩ := h.reachable.stands
  have hnone : Reference.isPost op = false → s.dealRows (.call op pwHash) = [] := by
    intro hop
    rw [dealRows, if_pos hrun, (hs.dealsSince op).2.2 hop, List.map_nil]
  cases op with
  | postOffer u type price amount =>
    obtain ⟨hsorted, hnew⟩ := h.dealRows_ids (.call (.postOffer u type price amount) pwHash)
    rw [record, Tables.addDeals_eq]
    constructor
    · rw [offerRows, if_pos hrun]
      apply KeyTable.rows_insert_of_free
      exact KeyTable.free_iff.mpr fun row hrow => (h.offer_lt hrun row hrow).ne
    · have hrows : ((s.market.dealsSince
          (s.market.step (.postOffer u type price amount)).2).map Deal.row) =
          s.dealRows (.call (.postOffer u type price amount) pwHash) := by
        rw [dealRows, if_pos hrun]
      rw [hrows]
      refine KeyTable.rows_foldl_insert ?_ fun row hrow => KeyTable.free_iff.mpr fun old hold => ?_
      · exact List.pairwise_map.mpr (hsorted.imp fun hlt => hlt.ne)
      · exact ((h.deal_lt hrun old hold).trans_le (hnew row hrow).1).ne
  | registerUser username exist =>
    constructor
    · simp only [offerRows, List.append_nil]
      cases exist <;> rfl
    · rw [hnone rfl, List.append_nil]
      cases exist <;> rfl
  | _ => exact ⟨(List.append_nil _).symm, by rw [hnone rfl]; exact (List.append_nil _).symm⟩

/-- An event writes its rows and nothing else. -/
theorem Recorded.wrote (h : s.Recorded l) (e : Event) : s.Wrote e (s.step e).2.tables := by
  cases e with
  | start =>
    have hsame : (s.step .start).2.tables = s.tables := by
      rw [step]
      split <;> rfl
    rw [hsame]
    exact ⟨(List.append_nil _).symm, (List.append_nil _).symm⟩
  | call op pwHash =>
    cases hrun : s.running with
    | true =>
      rw [step_call hrun]
      exact h.wrote_call hrun op pwHash
    | false =>
      have hoffer : s.offerRows (.call op pwHash) = [] := by
        cases op <;> simp [offerRows, hrun]
      have hdeal : s.dealRows (.call op pwHash) = [] := by simp [dealRows, hrun]
      simp only [step, hrun, Bool.false_eq_true, if_false]
      exact ⟨by rw [hoffer, List.append_nil], by rw [hdeal, List.append_nil]⟩

/-! The invariant. -/

/-- Whoever is registered after an event was so before, or has been registered by it. -/
theorem Recorded.users_step (h : s.Recorded l) (e : Event)
    (hrun : (s.step e).2.running = true) (u : Nat)
    (hu : ((s.step e).2.market.users.find? u).isSome) : u ∈ l ++ s.userIds e := by
  cases e with
  | start =>
    rw [step] at hrun hu
    split at hrun
    · next seed hseed =>
      rw [hseed] at hu
      cases hu
    · cases hrun
  | call op pwHash =>
    cases hbefore : s.running with
    | false => simp only [step, hbefore, Bool.false_eq_true, if_false] at hrun
    | true =>
      obtain ⟨a, hs⟩ := h.reachable.stands
      rw [step_call hbefore] at hu
      rcases ((hs.step_users op).2 u).mp hu with hu | ⟨hreg, rfl⟩
      · exact List.mem_append_left _ (h.users hbefore u hu)
      · apply List.mem_append_right
        rw [userIds, step_call hbefore]
        cases op with
        | registerUser username exist =>
          cases exist with
          | true => cases hreg
          | false => exact List.mem_singleton_self _
        | _ => cases hreg

/-- The deals that are made are of users who are registered. -/
theorem Recorded.made (h : s.Recorded l) {e : Event} {row : StoredDeal}
    (hrow : row ∈ s.dealRows e) :
    row.sellerId ∈ l ++ s.userIds e ∧ row.buyerId ∈ l ++ s.userIds e := by
  have hrun := running_of_dealRows hrow
  have hnamed := h.users_step e
  cases e with
  | start => cases hrow
  | call op pwHash =>
    obtain ⟨a, hs⟩ := h.reachable.stands
    rw [dealRows, if_pos hrun, Market.dealsSince, List.map_map] at hrow
    obtain ⟨t, ht, rfl⟩ := List.mem_map.mp hrow
    have hparty := (hs.step op).wf.trade_party t.view (by
      rw [← (hs.step op).sim.trades]
      exact List.mem_map_of_mem (List.mem_of_mem_drop ht))
    rw [← (hs.step op).isSome_eq, ← (hs.step op).isSome_eq] at hparty
    rw [step_call hrun] at hnamed
    exact ⟨hnamed hrun _ hparty.2, hnamed hrun _ hparty.1⟩

/-- The counters of a run are past the ids in the tables. -/
theorem Recorded.counters_step (h : s.Recorded l) (e : Event)
    (hrun : (s.step e).2.running = true) :
    (∀ row ∈ s.tables.offer.rows ++ s.offerRows e, row.id < (s.step e).2.market.offerId) ∧
      ∀ row ∈ s.tables.deal.rows ++ s.dealRows e, row.id < (s.step e).2.market.dealId := by
  have hdeal := (h.dealRows_ids e).2
  have hoffer := (s.offerRows_ids e).2
  cases e with
  | start =>
    rw [step] at hrun ⊢
    split at hrun
    · next seed hseed =>
      have hlt : ∀ t, ∀ id ∈ (s.tables.ids t).rows, id < seed t :=
        fun t => (getMaxId_ok (seeds_ok hseed t)).2
      rw [offerRows, dealRows, List.append_nil, List.append_nil]
      · exact ⟨fun row hrow => hlt .offer _ (List.mem_map_of_mem hrow),
          fun row hrow => hlt .deal _ (List.mem_map_of_mem hrow)⟩
      · intro _ _ _ _ _ h
        cases h
    · cases hrun
  | call op pwHash =>
    cases hbefore : s.running with
    | false => simp only [step, hbefore, Bool.false_eq_true, if_false] at hrun
    | true =>
      obtain ⟨a, hs⟩ := h.reachable.stands
      refine ⟨fun row hrow => ?_, fun row hrow => ?_⟩
      · rw [step_call hbefore, hs.step_offerId op]
        rcases List.mem_append.mp hrow with hold | hnew
        · have hlt := h.offer_lt hbefore row hold
          split <;> omega
        · have hpost : Reference.isPost op = true := by
            cases op with
            | postOffer u type price amount => rfl
            | _ => cases hnew
          rw [hpost, hoffer row hnew]
          exact Nat.lt_succ_self _
      · rcases List.mem_append.mp hrow with hold | hnew
        · have hlt := h.deal_lt hbefore row hold
          rw [step_call hbefore, (hs.dealsSince op).2.1]
          omega
        · exact (hdeal row hnew).2

theorem Recorded.step (h : s.Recorded l) (e : Event) :
    (s.step e).2.Recorded (l ++ s.userIds e) := by
  have hwrote := h.wrote e
  have hcounters := h.counters_step e
  rw [← hwrote.offer, ← hwrote.deal] at hcounters
  refine
    { reachable := reachable_step h.reachable e
      offer_lt := fun hrun => (hcounters hrun).1
      deal_lt := fun hrun => (hcounters hrun).2
      offer_ids := ?_
      deal_ids := ?_
      parties := ?_
      users := h.users_step e }
  · obtain ⟨hsorted, hnew⟩ := s.offerRows_ids e
    rw [hwrote.offer]
    refine List.pairwise_append.mpr ⟨h.offer_ids, hsorted, fun row hrow row' hrow' => ?_⟩
    rw [hnew row' hrow']
    exact h.offer_lt (running_of_offerRows hrow') row hrow
  · obtain ⟨hsorted, hnew⟩ := h.dealRows_ids e
    rw [hwrote.deal]
    refine List.pairwise_append.mpr ⟨h.deal_ids, hsorted, fun row hrow row' hrow' => ?_⟩
    exact (h.deal_lt (running_of_dealRows hrow') row hrow).trans_le (hnew row' hrow').1
  · intro row hrow
    rw [hwrote.deal] at hrow
    rcases List.mem_append.mp hrow with hold | hnew
    · exact (h.parties row hold).imp (List.mem_append_left _) (List.mem_append_left _)
    · exact h.made hnew

theorem recorded (events : List Event) :
    (Machine.exec Store.step idle events).Recorded
      (Machine.gather Store.step userIds idle events) := by
  have hrun := Machine.exec_inv_gather (f := userIds) (fun _ _ e h => h.step e) Recorded.idle events
  rw [List.nil_append] at hrun
  exact hrun

theorem offers_journal (events : List Event) :
    (Machine.exec Store.step idle events).tables.offer.rows =
      Machine.gather Store.step offerRows idle events :=
  Machine.exec_gather (I := fun s => ∃ l, Recorded l s) (P := fun _ _ => True)
    (m := fun s => s.tables.offer.rows) (fun _ e ⟨_, h⟩ _ => ⟨_, h.step e⟩)
    (fun _ e ⟨_, h⟩ _ => (h.wrote e).offer) ⟨_, Recorded.idle⟩ (Machine.along_true idle events)

theorem deals_journal (events : List Event) :
    (Machine.exec Store.step idle events).tables.deal.rows =
      Machine.gather Store.step dealRows idle events :=
  Machine.exec_gather (I := fun s => ∃ l, Recorded l s) (P := fun _ _ => True)
    (m := fun s => s.tables.deal.rows) (fun _ e ⟨_, h⟩ _ => ⟨_, h.step e⟩)
    (fun _ e ⟨_, h⟩ _ => (h.wrote e).deal) ⟨_, Recorded.idle⟩ (Machine.along_true idle events)

/-! References. -/

/-- The row of an offer whose owner is not registered. -/
def strangerRows (s : Store) (e : Event) : List StoredOffer :=
  (s.offerRows e).filter fun row => (s.market.users.find? row.ownerId).isNone

/-- The owner of an offer that is posted is registered, or the row is a stranger's. -/
theorem Recorded.owner (h : s.Recorded l) {e : Event} {row : StoredOffer}
    (hrow : row ∈ s.offerRows e) : row.ownerId ∈ l ∨ row ∈ s.strangerRows e := by
  cases hfind : s.market.users.find? row.ownerId with
  | none =>
    refine .inr (List.mem_filter.mpr ⟨hrow, ?_⟩)
    rw [hfind]
    rfl
  | some d =>
    refine .inl (h.users (running_of_offerRows hrow) _ ?_)
    rw [hfind]
    rfl

/-- So it is in a history. -/
theorem Recorded.owners (h : s.Recorded l) (events : List Event) :
    ∀ row ∈ Machine.gather Store.step offerRows s events,
      row.ownerId ∈ l ++ Machine.gather Store.step userIds s events ∨
        row ∈ Machine.gather Store.step strangerRows s events := by
  induction events generalizing l s with
  | nil => intro row hrow; cases hrow
  | cons e events ih =>
    intro row hrow
    rw [Machine.gather, Machine.gather, ← List.append_assoc]
    rcases List.mem_append.mp hrow with hrow | hrow
    · refine (h.owner hrow).imp (fun hu => ?_) (List.mem_append_left _)
      exact List.mem_append_left _ (List.mem_append_left _ hu)
    · exact (ih (h.step e) row hrow).imp_right (List.mem_append_right _)

/-- In every history of runs, the users a deal names have been registered, and so has the owner of
every offer that is not posted for a user who is not. -/
theorem references_kept (events : List Event) :
    (∀ row ∈ (Machine.exec Store.step idle events).tables.deal.rows,
      row.sellerId ∈ Machine.gather Store.step userIds idle events ∧
        row.buyerId ∈ Machine.gather Store.step userIds idle events) ∧
    ∀ row ∈ (Machine.exec Store.step idle events).tables.offer.rows,
      row.ownerId ∈ Machine.gather Store.step userIds idle events ∨
        row ∈ Machine.gather Store.step strangerRows idle events := by
  refine ⟨(recorded events).parties, ?_⟩
  rw [offers_journal]
  exact Recorded.idle.owners events

/-! Replay. -/

end Store

/-- The accounts and the quote are what the deals come to, with what was deposited. -/
structure Market.Replays (h : History) (l : List DealView) (s : Market) : Prop where
  usd : ∀ u d, s.users.find? u = some d →
    d.balance.usd = wrap32 (depositedTo u h.depositsUSD + bought u l - sold u l)
  rub : ∀ u d, s.users.find? u = some d →
    d.balance.rub = wrap32 (depositedTo u h.depositsRUB - paid u l + earned u l)
  deals : ∀ u d, s.users.find? u = some d →
    d.dealViews = l.filter fun x => u = x.buyerId ∨ u = x.sellerId
  quote : s.quote = l.getLast?.map DealView.price

/-- The rows of the deals a market has made. -/
def Market.dealRows (s : Market) : List StoredDeal := s.trades.map fun t => t.deal.row

/-- A market reached from an empty one is replayed from its deals. -/
theorem Market.replays (offerId dealId userId : Nat) (ops : List Op) :
    ((Market.empty offerId dealId userId).run ops).Replays
      (Machine.history Market.step (Market.empty offerId dealId userId) ops)
      (((Market.empty offerId dealId userId).run ops).dealRows.map StoredDeal.view) := by
  let s₀ := Market.empty offerId dealId userId
  have hinv : ∃ a, Stands (s₀.run ops) a ∧ a.Ledger ([] ++ Machine.history Market.step s₀ ops) ∧
      a.quote = a.trades.getLast?.map fun t => t.deal.price :=
    Machine.exec_inv_history (I := fun h s => ∃ a, Stands s a ∧ a.Ledger h ∧
        a.quote = a.trades.getLast?.map fun t => t.deal.price)
      (fun h s op ⟨a, hs, hl, hq⟩ _ =>
        ⟨_, hs.step op, hl.move hs.wf (hs.moves op), (hs.moves op).quote_last hq⟩)
      ⟨_, Stands.empty offerId dealId userId, Reference.Ledger.empty offerId dealId userId, rfl⟩
      (Machine.along_true _ ops)
  obtain ⟨a, hs, hl, hq⟩ := hinv
  have hrows : (s₀.run ops).dealRows.map StoredDeal.view = a.trades.map TradeView.deal := by
    rw [← hs.sim.trades, dealRows, List.map_map, List.map_map]
    rfl
  refine ⟨fun u d hd => ?_, fun u d hd => ?_, fun u d hd => ?_, ?_⟩
  · rw [hs.usd hl hd, hrows]
    simp only [bought, sold, hs.sum_bought hd, hs.sum_sold hd]
    rfl
  · rw [hs.rub hl hd, hrows]
    simp only [paid, earned, hs.sum_bought hd, hs.sum_sold hd]
    rfl
  · obtain ⟨x, hx, hag⟩ := hs.sim.account_some hd
    rw [UserData.dealViews, hag.deals, hs.wf.deals u x hx, hrows]
  · rw [hs.sim.quote, hq, hrows, List.getLast?_map, Option.map_map]
    rfl

namespace Store

variable {s : Store}

/-- A run that has not started answers no call. -/
theorem exec_of_stopped (hrun : s.running = false) (calls : List (Op × UInt64)) :
    Machine.exec Store.step s (calls.map fun c => .call c.1 c.2) = s := by
  induction calls with
  | nil => rfl
  | cons c calls ih =>
    have hstep : s.step (.call c.1 c.2) = (none, s) := by
      simp only [Store.step, hrun, Bool.false_eq_true, if_false]
    rw [List.map_cons, Machine.exec_cons, hstep, ih]

/-- In a run the market takes the calls, and the `Deal` table the rows of its deals. -/
theorem exec_of_running {l : List Nat} (h : s.Recorded l) (hrun : s.running = true)
    {old : List StoredDeal} (hrows : s.tables.deal.rows = old ++ s.market.dealRows)
    (calls : List (Op × UInt64)) :
    (Machine.exec Store.step s (calls.map fun c => .call c.1 c.2)).market =
        s.market.run (calls.map Prod.fst) ∧
      (Machine.exec Store.step s (calls.map fun c => .call c.1 c.2)).tables.deal.rows =
        old ++ (s.market.run (calls.map Prod.fst)).dealRows := by
  induction calls generalizing s l with
  | nil => exact ⟨rfl, hrows⟩
  | cons c calls ih =>
    obtain ⟨op, pwHash⟩ := c
    have hmarket : (s.step (.call op pwHash)).2.market = (s.market.step op).2 := by
      rw [step_call hrun]
    have hnext : (s.step (.call op pwHash)).2.running = true := by
      rw [step_call hrun]
      exact hrun
    obtain ⟨a, hs⟩ := h.reachable.stands
    obtain ⟨ts, htrades, -⟩ := (hs.moves op).deals
    obtain ⟨new, hnew, -⟩ := hs.new_trades (hs.step op) htrades
    have hdeals : (s.market.step op).2.dealRows =
        s.market.dealRows ++ s.dealRows (.call op pwHash) := by
      rw [dealRows, if_pos hrun, Market.dealsSince, Market.dealRows, Market.dealRows, hnew,
        List.drop_left, List.map_append, List.map_map]
      rfl
    have hrest := ih (h.step (.call op pwHash)) hnext (by
      rw [(h.wrote (.call op pwHash)).deal, hrows, hmarket, hdeals, List.append_assoc])
    rw [hmarket] at hrest
    exact hrest

/-- Whatever runs there were before: from the rows that a run has added to the `Deal` table, with
what was deposited in it, its accounts and its quote can be replayed. -/
theorem accounts_replayed (before : List Event) (calls : List (Op × UInt64))
    (hrun : (Machine.exec Store.step idle
      (before ++ .start :: calls.map fun c => .call c.1 c.2)).running = true) :
    ∃ rows,
      (Machine.exec Store.step idle
        (before ++ .start :: calls.map fun c => .call c.1 c.2)).tables.deal.rows =
          (Machine.exec Store.step idle before).tables.deal.rows ++ rows ∧
      (Machine.exec Store.step idle
        (before ++ .start :: calls.map fun c => .call c.1 c.2)).market.Replays
          (Machine.history Market.step
            (Machine.exec Store.step idle (before ++ [.start])).market
              (calls.map Prod.fst)) (rows.map StoredDeal.view) := by
  have hbefore := recorded before
  rw [Machine.exec_append, Machine.exec_cons] at hrun ⊢
  rw [Machine.exec_concat]
  generalize Machine.exec Store.step idle before = s at hbefore hrun ⊢
  cases hstart : (s.step .start).2.running with
  | false =>
    rw [exec_of_stopped hstart, hstart] at hrun
    cases hrun
  | true =>
    obtain ⟨seed, hseed⟩ : ∃ seed : Table → Nat, (s.step .start).2 =
        { s with market := Market.empty (seed .offer) (seed .deal) (seed .user),
                 running := true } := by
      rw [Store.step] at hstart ⊢
      split
      · exact ⟨_, rfl⟩
      · next fault hfault => simp [hfault] at hstart
    have hrecorded := hbefore.step .start
    rw [hseed] at hrecorded ⊢
    obtain ⟨hmarket, hrows⟩ := exec_of_running hrecorded rfl (List.append_nil _).symm calls
    refine ⟨_, hrows, ?_⟩
    rw [hmarket]
    exact Market.replays _ _ _ _

end Store

end ForexMarket
