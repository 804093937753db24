import ForexMarket.Proofs.Filing

/- What an auditor finds in the file of the database, where no name that is registered or
   logged in with has a quote or a NUL in it. The texts of the queries leave, in order,
   exactly the rows of the offers and deals that were constructed (`journal_filed`), the
   users they name are known (`references_filed`), and the accounts of a run can be rebuilt
   from the rows that it has added to the `Deal` table (`accounts_rebuilt`). -/
namespace ForexMarket

namespace Filed

variable (other : SqlTables → Bytes → SqlTables)

/-! What the file holds. -/

/-- The offers that were constructed in all the runs, as they are recorded. -/
def offersOf (events : List Event) : List StoredOffer :=
  Machine.gather Store.step Store.offerRows .idle (events.filterMap Event.stored)

def dealsOf (events : List Event) : List StoredDeal :=
  Machine.gather Store.step Store.dealRows .idle (events.filterMap Event.stored)

/-- The ids of the users who were registered. -/
def usersOf (events : List Event) : List Nat :=
  Machine.gather Store.step Store.userIds .idle (events.filterMap Event.stored)

/-- The offers that were posted for users who were not registered. -/
def strangersOf (events : List Event) : List StoredOffer :=
  Machine.gather Store.step Store.strangerRows .idle (events.filterMap Event.stored)

/-- No id has reached 2 ^ 63, from where on a column rounds. -/
def IdsFit (events : List Event) : Prop :=
  (∀ offer ∈ offersOf events, offer.id < 2 ^ 63) ∧ ∀ deal ∈ dealsOf events, deal.id < 2 ^ 63

instance (events : List Event) : Decidable (IdsFit events) :=
  inferInstanceAs (Decidable (_ ∧ _))

/-- The file holds the rows of these offers and deals in their order, the ids going up. -/
structure Journal (file : SqlTables) (offers : List StoredOffer) (deals : List StoredDeal) :
    Prop where
  offer : file.offer.rows = offers.map StoredOffer.filed
  deal : file.deal.rows = deals.map StoredDeal.filed
  offer_ids : offers.Pairwise fun offer offer' => offer.id < offer'.id
  deal_ids : deals.Pairwise fun deal deal' => deal.id < deal'.id

theorem kept_of_lt {n : Int} (h : n < 2 ^ 63) : DBManager.kept n = n := by
  unfold DBManager.kept DBManager.numberOf
  split
  · rfl
  · rw [if_pos (by omega)]
    omega

/-- Rows under ascending ids that fit are all inserted. -/
theorem rows_foldl_filed {α : Type} {id : α → Nat} {filed : α → List Int}
    (hid : ∀ a, (filed a).head? = some (DBManager.kept (id a))) {l : List α}
    (hsorted : l.Pairwise fun a b => id a < id b) (hfit : ∀ a ∈ l, id a < 2 ^ 63) :
    ((l.map filed).foldl KeyTable.insert (KeyTable.empty : KeyTable (List Int) List.head?)).rows =
      l.map filed := by
  rw [KeyTable.rows_foldl_insert]
  · exact List.nil_append _
  · rw [List.map_map]
    refine List.pairwise_map.mpr (hsorted.imp_of_mem fun ha hb hlt => ?_)
    have hfa := hfit _ ha
    have hfb := hfit _ hb
    rw [Function.comp_apply, Function.comp_apply, hid, hid, kept_of_lt (by omega),
      kept_of_lt (by omega)]
    intro heq
    have := Option.some.inj heq
    omega
  · intro row _
    exact KeyTable.free_iff.mpr fun a ha => absurd ha List.not_mem_nil

variable {events : List Event}

theorem deals_filed (hnames : ∀ e ∈ events, e.PlainName)
    (hids : ∀ deal ∈ dealsOf events, deal.id < 2 ^ 63) :
    (Machine.exec (step other) idle events).file.deal.rows =
      (dealsOf events).map StoredDeal.filed := by
  have hsorted := (Store.recorded (events.filterMap Event.stored)).deal_ids
  rw [Store.deals_journal] at hsorted
  rw [(exec_file other hnames idle).2]
  exact rows_foldl_filed (fun _ => rfl) hsorted hids

/-- The file is a journal of all the offers and deals that were constructed in any run. -/
theorem journal_filed (hnames : ∀ e ∈ events, e.PlainName) (hids : IdsFit events) :
    Journal (Machine.exec (step other) idle events).file (offersOf events) (dealsOf events) := by
  have h := Store.recorded (events.filterMap Event.stored)
  have hofferIds := h.offer_ids
  have hdealIds := h.deal_ids
  rw [Store.offers_journal] at hofferIds
  rw [Store.deals_journal] at hdealIds
  refine { offer := ?_, deal := deals_filed other hnames hids.2, offer_ids := hofferIds,
           deal_ids := hdealIds }
  rw [(exec_file other hnames idle).2]
  exact rows_foldl_filed (fun _ => rfl) hofferIds hids.1

/-- Whoever a row of the file names was registered in some run, but for the owner of an offer that
was posted for a user who was not. -/
theorem references_filed (hnames : ∀ e ∈ events, e.PlainName) (hids : IdsFit events) :
    (∀ row ∈ (Machine.exec (step other) idle events).file.deal.rows,
      ∃ deal : StoredDeal, row = deal.filed ∧ deal.sellerId ∈ usersOf events ∧
        deal.buyerId ∈ usersOf events) ∧
    ∀ row ∈ (Machine.exec (step other) idle events).file.offer.rows,
      ∃ offer : StoredOffer, row = offer.filed ∧
        (offer.ownerId ∈ usersOf events ∨ offer ∈ strangersOf events) := by
  have hjournal := journal_filed other hnames hids
  obtain ⟨hdeals, hoffers⟩ := Store.references_kept (events.filterMap Event.stored)
  rw [Store.deals_journal] at hdeals
  rw [Store.offers_journal] at hoffers
  refine ⟨fun row hrow => ?_, fun row hrow => ?_⟩
  · rw [hjournal.deal] at hrow
    obtain ⟨deal, hdeal, rfl⟩ := List.mem_map.mp hrow
    exact ⟨deal, rfl, hdeals deal hdeal⟩
  · rw [hjournal.offer] at hrow
    obtain ⟨offer, hoffer, rfl⟩ := List.mem_map.mp hrow
    exact ⟨offer, rfl, hoffers offer hoffer⟩

/-! The accounts. -/

/-- The deal that a row of the file says. -/
def dealIn : List Int → Option DealView
  | [id, sellerId, buyerId, amount, price] =>
    some { id := id.toNat, sellerId := sellerId.toNat, buyerId := buyerId.toNat, price := price,
           amount := amount.toNat }
  | _ => none

/-- The columns keep all of its values. -/
def Fits (deal : StoredDeal) : Prop := ∀ n ∈ deal.values, n < 2 ^ 63

instance (deal : StoredDeal) : Decidable (Fits deal) := inferInstanceAs (Decidable (∀ _ ∈ _, _))

theorem dealIn_filed {deal : StoredDeal} (h : Fits deal) :
    dealIn deal.filed = some deal.view := by
  have hsame : deal.filed = deal.values :=
    (List.map_congr_left fun n hn => kept_of_lt (h n hn)).trans (List.map_id _)
  rw [hsame]
  rfl

/-- The accounts can be rebuilt: from the rows that the last run has added to the `Deal` table, with
what was deposited in it, its accounts and its quote can be replayed. -/
theorem accounts_rebuilt (hnames : ∀ e ∈ events, e.PlainName)
    (hfits : ∀ deal ∈ dealsOf events, Fits deal) {before : List Store.Event}
    {calls : List (Op × UInt64)}
    (hsplit : events.filterMap Event.stored = before ++ .start :: calls.map fun c => .call c.1 c.2)
    (hrun : (Machine.exec (step other) idle events).store.running = true) :
    ∃ rows,
      (Machine.exec (step other) idle events).file.deal.rows =
          (Machine.exec Store.step .idle before).tables.deal.rows.map StoredDeal.filed ++ rows ∧
      (Machine.exec (step other) idle events).store.market.Replays
        (Machine.history Market.step (Machine.exec Store.step .idle (before ++ [.start])).market
          (calls.map Prod.fst)) (rows.filterMap dealIn) := by
  have hids : ∀ deal ∈ dealsOf events, deal.id < 2 ^ 63 := fun deal hdeal => by
    have hid := hfits deal hdeal deal.id List.mem_cons_self
    omega
  have hstore : (Machine.exec (step other) idle events).store =
      Machine.exec Store.step .idle (before ++ .start :: calls.map fun c => .call c.1 c.2) := by
    rw [← hsplit]
    exact (exec_file other hnames idle).1
  have hdeals : dealsOf events = (Machine.exec Store.step .idle
      (before ++ .start :: calls.map fun c => .call c.1 c.2)).tables.deal.rows := by
    rw [Store.deals_journal, ← hsplit]
    rfl
  rw [hstore] at hrun ⊢
  obtain ⟨rows, hrows, hreplays⟩ := Store.accounts_replayed before calls hrun
  have hviews : (rows.map StoredDeal.filed).filterMap dealIn = rows.map StoredDeal.view := by
    rw [List.filterMap_map, ← List.filterMap_eq_map]
    refine List.filterMap_congr fun deal hdeal => dealIn_filed (hfits deal ?_)
    rw [hdeals, hrows]
    exact List.mem_append_right _ hdeal
  refine ⟨rows.map StoredDeal.filed, ?_, hviews ▸ hreplays⟩
  rw [deals_filed other hnames hids, hdeals, hrows, List.map_append]

/-- A run in which a user registers, and one in which he logs in again and two others trade. -/
def sampleEvents : List Event :=
  [.store .start, .store (.call (.registerUser "first" false) 5), .store .start,
    .login (text "first") 5, .store (.call (.registerUser "seller" false) 6),
    .store (.call (.registerUser "buyer" false) 7), .store (.call (.postOffer 1 .SELL 8 2) 0),
    .store (.call (.postOffer 2 .BUY 9 3) 0)]

theorem sample_journal_filed :
    Journal (Machine.exec (step fun file _ => file) idle sampleEvents).file
      (offersOf sampleEvents) (dealsOf sampleEvents) :=
  journal_filed (fun file _ => file) (by decide) (by decide)

theorem sample_references_filed :
    (∀ row ∈ (Machine.exec (step fun file _ => file) idle sampleEvents).file.deal.rows,
      ∃ deal : StoredDeal, row = deal.filed ∧ deal.sellerId ∈ usersOf sampleEvents ∧
        deal.buyerId ∈ usersOf sampleEvents) ∧
    ∀ row ∈ (Machine.exec (step fun file _ => file) idle sampleEvents).file.offer.rows,
      ∃ offer : StoredOffer, row = offer.filed ∧
        (offer.ownerId ∈ usersOf sampleEvents ∨ offer ∈ strangersOf sampleEvents) :=
  references_filed (fun file _ => file) (by decide) (by decide)

/-- The first run. -/
def sampleBefore : List Store.Event := [.start, .call (.registerUser "first" false) 5]

/-- The calls of the second run. -/
def sampleCalls : List (Op × UInt64) :=
  [(.registerUser "seller" false, 6), (.registerUser "buyer" false, 7), (.postOffer 1 .SELL 8 2, 0),
    (.postOffer 2 .BUY 9 3, 0)]

theorem sample_accounts_rebuilt :
    ∃ rows,
      (Machine.exec (step fun file _ => file) idle sampleEvents).file.deal.rows =
          (Machine.exec Store.step .idle sampleBefore).tables.deal.rows.map StoredDeal.filed ++
            rows ∧
      (Machine.exec (step fun file _ => file) idle sampleEvents).store.market.Replays
        (Machine.history Market.step
          (Machine.exec Store.step .idle (sampleBefore ++ [.start])).market
          (sampleCalls.map Prod.fst)) (rows.filterMap dealIn) :=
  accounts_rebuilt (fun file _ => file) (by decide) (by decide) rfl
    (by decide)

end Filed

end ForexMarket
