import ForexMarket.Proofs.Stored
import ForexMarket.Spec.Shown

/- What a call leaves behind that throws because its user is not registered. All calls but
   one look the user up before anything else. `PostOffer` constructs the offer first,
   which draws an offer id and inserts a row, so for a user who is not registered the
   counter is moved and the `Offer` table holds a row of an offer that the market has not
   accepted. As in the model of the tables, no name brings SQL of its own. -/
namespace ForexMarket

section Unregistered

variable {s : Market} {op : Op} {u : Nat}

/-- The user data is looked up first. -/
theorem Market.step_of_unregistered (hop : Reference.isPost op = false) (hu : op.user = some u)
    (h : s.users.find? u = none) : s.step op = (.fault .outOfRange, s) := by
  cases op with
  | postOffer => cases hop
  | depositUSD | depositRUB =>
    obtain rfl := Option.some.inj hu
    simp only [step, writeUser, atUser, h]
  | getUserBalance | getActiveOffers | getClosedDeals =>
    obtain rfl := Option.some.inj hu
    simp only [step, readUser, h]
  | removeOffer =>
    obtain rfl := Option.some.inj hu
    simp only [step, removeActiveOffer, h]
  | registerUser | getQuote | getAskBidQuotes => cases hu

/-- The offer is constructed first. -/
theorem Market.step_postOffer_of_unregistered (h : s.users.find? u = none) (type : OfferType)
    (price : Int) (amount : UInt64) :
    s.step (.postOffer u type price amount) =
      (.fault .outOfRange, s.construct (.make s.offerId u type price amount)) := by
  simp only [step, postOffer, addOffer_unregistered h]

end Unregistered

namespace Store

/-- The book, the user data, the quote, the counters and the tables are the same. -/
structure Unchanged (s s' : Store) : Prop where
  users : s'.market.users = s.market.users
  activeSellOffers : s'.market.activeSellOffers = s.market.activeSellOffers
  activeBuyOffers : s'.market.activeBuyOffers = s.market.activeBuyOffers
  quote : s'.market.quote = s.market.quote
  offerId : s'.market.offerId = s.market.offerId
  dealId : s'.market.dealId = s.market.dealId
  userId : s'.market.userId = s.market.userId
  tables : s'.tables = s.tables

/-- A call for a user who is not registered. -/
def Unregistered (s : Store) (op : Op) : Prop :=
  ∃ u, op.user = some u ∧ s.market.users.find? u = none

/-- A call that throws because its user is not registered leaves everything as it was. -/
def Atomic (s : Store) : Event → Prop
  | .start => True
  | .call op pwHash => s.running = true → s.Unregistered op →
      (s.step (.call op pwHash)).1 = some (.fault .outOfRange) ∧
        Unchanged s (s.step (.call op pwHash)).2

/-- The event is a `PostOffer` for a user who is not registered. -/
def PostsUnregistered (s : Store) : Event → Prop
  | .start => False
  | .call op _ => s.running = true ∧ Reference.isPost op = true ∧ s.Unregistered op

/-- The row of the offer that a call posted, as it was posted. -/
def postedRow : Op → Option Reply → List StoredOffer
  | .postOffer u type price amount, some (.posted id) =>
    [{ id := id, ownerId := u, type := type = .BUY, amount := amount, price := price }]
  | _, _ => []

/-- The row of the offer that an event was answered with. -/
def accepted (s : Store) : Event → List StoredOffer
  | .start => []
  | .call op pwHash => postedRow op (s.step (.call op pwHash)).1

variable {s : Store} {op : Op} {pwHash : UInt64}

/-- Only a registration and a post write to the tables. -/
theorem record_of_user {db : Tables} {m m' : Market} (hop : Reference.isPost op = false)
    {u : Nat} (hu : op.user = some u) : record db m m' pwHash op = db := by
  cases op with
  | postOffer => cases hop
  | registerUser => cases hu
  | _ => rfl

theorem atomic_iff (s : Store) (e : Event) : s.Atomic e ↔ ¬ s.PostsUnregistered e := by
  cases e with
  | start => exact ⟨fun _ h => h, fun _ => trivial⟩
  | call op pwHash =>
    refine ⟨fun h hposts => ?_, fun h hrun hun => ?_⟩
    · obtain ⟨hrun, hop, hun⟩ := hposts
      have hsame := (h hrun hun).2.offerId
      rw [step_call hrun] at hsame
      cases op with
      | postOffer u type price amount =>
        obtain ⟨u', hu, hfind⟩ := hun
        obtain rfl := Option.some.inj hu
        -- the id is drawn before `at` throws
        rw [Market.step_postOffer_of_unregistered hfind] at hsame
        exact absurd hsame (Nat.succ_ne_self _)
      | _ => cases hop
    · have hop : Reference.isPost op = false := by
        rw [← Bool.not_eq_true]
        exact fun hop => h ⟨hrun, hop, hun⟩
      obtain ⟨u, hu, hfind⟩ := hun
      rw [step_call hrun, Market.step_of_unregistered hop hu hfind, record_of_user hop hu]
      exact ⟨rfl, rfl, rfl, rfl, rfl, rfl, rfl, rfl, rfl⟩

/-! The `Offer` table. -/

theorem offer_addDeals (db : Tables) (deals : List Deal) :
    (deals.foldl (fun db deal =>
      db.addDeal deal.id deal.sellerId deal.buyerId deal.amount deal.price) db).offer =
        db.offer := by
  induction deals generalizing db with
  | nil => rfl
  | cons deal deals ih => rw [List.foldl_cons, ih]; rfl

theorem offer_record_of_not_post {db : Tables} {m m' : Market}
    (hop : Reference.isPost op = false) : (record db m m' pwHash op).offer = db.offer := by
  cases op with
  | postOffer => cases hop
  | registerUser username exist => cases exist <;> rfl
  | _ => rfl

/-- What holds in a run: the ids of the stored offers have all been drawn. -/
structure Sound (s : Store) : Prop where
  reachable : s.market.Reachable
  offer_lt : s.running = true → ∀ row ∈ s.tables.offer.rows, row.id < s.market.offerId

theorem Sound.idle : Sound idle := ⟨⟨0, 0, 0, [], rfl⟩, nofun⟩

/-- The row of a posted offer is inserted. -/
theorem Sound.offer_record_post (h : s.Sound) (hrun : s.running = true) (u : Nat)
    (type : OfferType) (price : Int) (amount : UInt64) (m' : Market) :
    (record s.tables s.market m' pwHash (.postOffer u type price amount)).offer.rows =
      s.tables.offer.rows ++ [{ id := s.market.offerId, ownerId := u, type := type = .BUY,
                                amount := amount, price := price }] := by
  rw [record, offer_addDeals]
  apply KeyTable.rows_insert_of_free
  exact KeyTable.free_iff.mpr fun row hrow => (h.offer_lt hrun row hrow).ne

theorem Sound.step (h : s.Sound) (e : Event) : (s.step e).2.Sound := by
  refine ⟨reachable_step h.reachable e, ?_⟩
  cases e with
  | start =>
    rw [Store.step]
    split
    · next seed hseed =>
      intro _ row hrow
      exact (getMaxId_ok (seeds_ok hseed .offer)).2 _ (List.mem_map.mpr ⟨row, hrow, rfl⟩)
    · intro hrun
      cases hrun
  | call op pwHash =>
    cases hrun : s.running with
    | false =>
      intro hrun'
      simp only [Store.step, hrun, Bool.false_eq_true, if_false] at hrun'
    | true =>
      rw [step_call hrun]
      intro _ row hrow
      obtain ⟨a, hs⟩ := h.reachable.stands
      rw [hs.step_offerId op]
      cases hop : Reference.isPost op with
      | false =>
        rw [offer_record_of_not_post hop] at hrow
        exact h.offer_lt hrun row hrow
      | true =>
        cases op with
        | postOffer u type price amount =>
          rw [h.offer_record_post hrun] at hrow
          rcases List.mem_append.mp hrow with hrow | hrow
          · exact (h.offer_lt hrun row hrow).trans (Nat.lt_succ_self _)
          · rw [List.mem_singleton.mp hrow]
            exact Nat.lt_succ_self _
        | _ => cases hop

/-- An event that is no post for an unregistered user adds the rows of the offers accepted. -/
theorem Sound.offer_step (h : s.Sound) {e : Event} (he : ¬ s.PostsUnregistered e) :
    (s.step e).2.tables.offer.rows = s.tables.offer.rows ++ s.accepted e := by
  cases e with
  | start =>
    rw [Store.step, accepted, List.append_nil]
    split <;> rfl
  | call op pwHash =>
    cases hrun : s.running with
    | false =>
      have hnone : postedRow op none = [] := by cases op <;> rfl
      simp only [Store.step, accepted, hrun, Bool.false_eq_true, if_false, hnone, List.append_nil]
    | true =>
      rw [accepted, step_call hrun]
      cases hop : Reference.isPost op with
      | false =>
        have hnone : postedRow op (some (s.market.step op).1) = [] := by cases op <;> trivial
        rw [offer_record_of_not_post hop, hnone, List.append_nil]
      | true =>
        cases op with
        | postOffer u type price amount =>
          obtain ⟨a, hs⟩ := h.reachable.stands
          have hu : ∃ d, s.market.users.find? u = some d := by
            rw [← Option.ne_none_iff_exists']
            exact fun hfind => he ⟨hrun, rfl, u, rfl, hfind⟩
          rw [(hs.posted hu type price amount).1, h.offer_record_post hrun]
          rfl
        | _ => cases hop

/-- In every history of runs over one database, calls for users who are not registered leave
everything as it was, and the `Offer` table holds the rows of the offers accepted, exactly when none
of these calls is a `PostOffer`. -/
theorem failed_calls_atomic_iff (events : List Event) :
    (Machine.Along Store.step Atomic Store.idle events ∧
      (Machine.exec Store.step Store.idle events).tables.offer.rows =
        Machine.gather Store.step accepted Store.idle events) ↔
    Machine.Along Store.step (fun s e => ¬ s.PostsUnregistered e) Store.idle events := by
  rw [Machine.along_congr (I := Sound) (fun s e h _ => h.step e) (fun s e _ => atomic_iff s e)
    Sound.idle, and_iff_left_iff_imp]
  exact Machine.exec_gather (I := Sound) (m := fun s => s.tables.offer.rows)
    (fun s e h _ => h.step e) (fun s e h he => h.offer_step he) Sound.idle

/-- A run in which a user who is not registered posts an offer. -/
def strangersOffer : List Event := [.start, .call (.postOffer 7 .BUY 10 3) 0]

/-- The counter of offer ids has moved, and there is a row of no accepted offer. -/
theorem strangersOffer_not_atomic :
    ¬ Machine.Along Store.step Atomic Store.idle strangersOffer ∧
      (Machine.exec Store.step Store.idle strangersOffer).tables.offer.rows ≠
        Machine.gather Store.step accepted Store.idle strangersOffer := by
  refine ⟨fun h => ?_, by decide⟩
  have hsame := (h.2.1 rfl ⟨7, rfl, rfl⟩).2.offerId
  exact absurd hsame (by decide)

end Store

end ForexMarket
