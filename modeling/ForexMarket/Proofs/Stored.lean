import ForexMarket.Model.Store
import ForexMarket.Proofs.Correspondence

/- The ids of a market with its database are the ids of the machine that keeps nothing else:
   a start is a start, and a call draws the ids of the objects it constructs, in order.
   The counters of the market are natural numbers, so the two agree as long as no id is
   drawn past the last of 64 bits. -/
namespace ForexMarket

/-- The counter of each table. -/
def Market.counters (s : Market) : Table → Nat := Table.pick s.offerId s.dealId s.userId

/-! The tables. -/

namespace Tables

theorem ids_addOffer (db : Tables) (offerId ownerId : Nat) (type : OfferType) (amount : UInt64)
    (price : Int) : (db.addOffer offerId ownerId type amount price).ids =
      Function.update db.ids .offer ((db.ids .offer).insert offerId) := by
  funext t
  cases t with
  | offer => rw [Function.update_self]; exact KeyTable.keys_insert _ _
  | deal => rfl
  | user => rfl

theorem ids_addDeal (db : Tables) (dealId sellerId buyerId : Nat) (amount : UInt64)
    (price : Int) : (db.addDeal dealId sellerId buyerId amount price).ids =
      Function.update db.ids .deal ((db.ids .deal).insert dealId) := by
  funext t
  cases t with
  | offer => rfl
  | deal => rw [Function.update_self]; exact KeyTable.keys_insert _ _
  | user => rfl

theorem ids_addUser (db : Tables) (userId : Nat) (username : String) (pwHash : UInt64) :
    (db.addUser userId username pwHash).ids =
      Function.update db.ids .user ((db.ids .user).insert userId) := by
  funext t
  cases t with
  | offer => rfl
  | deal => rfl
  | user => rw [Function.update_self]; exact KeyTable.keys_insert _ _

end Tables

/-! The deals of a call. -/

/-- A post makes deals under the next ids, and no other call makes one. -/
theorem Stands.dealsSince {s : Market} {a : Reference} (h : Stands s a) (op : Op) :
    (s.dealsSince (s.step op).2).map Deal.id =
        List.range' s.dealId (s.dealsSince (s.step op).2).length ∧
      (s.step op).2.dealId = s.dealId + (s.dealsSince (s.step op).2).length ∧
      (Reference.isPost op = false → s.dealsSince (s.step op).2 = []) := by
  obtain ⟨ts, htrades, hids, hdealId, hnone⟩ := (h.moves op).deals
  obtain ⟨new, hnew, rfl⟩ := h.new_trades (h.step op) htrades
  have hsince : s.dealsSince (s.step op).2 = new.map Trade.deal := by
    rw [Market.dealsSince, hnew, List.drop_left]
  rw [List.length_map, List.map_map] at hids
  rw [hsince, List.map_map, List.length_map, (h.step op).sim.dealId, h.sim.dealId]
  refine ⟨hids, ?_, fun hop => ?_⟩
  · rw [hdealId, List.length_map]
  · rw [List.map_eq_nil_iff.mp (hnone hop), List.map_nil]

theorem Stands.counters_step {s : Market} {a : Reference} (h : Stands s a) (op : Op) :
    (s.step op).2.counters =
      Table.pick (if Reference.isPost op then s.offerId + 1 else s.offerId)
        (s.dealId + (s.dealsSince (s.step op).2).length)
        (if Reference.registers op then s.userId + 1 else s.userId) := by
  rw [Market.counters, h.step_offerId, (h.dealsSince op).2.1, (h.step_users op).1]

namespace Ids

/-- The ids of the tables, in a run whose counters are these. -/
def of (db : Tables) (counters : Table → Nat) : Ids :=
  { stored := db.ids, counter := fun t => .ofNat (counters t), running := true }

/-- An id below 2^64 is drawn as it is. -/
theorem step_of {db db' : Tables} (counters : Table → Nat) (t : Table) (h : counters t < 2 ^ 64)
    (hdb : db'.ids = Function.update db.ids t ((db.ids t).insert (counters t))) :
    ((of db counters).step (.generate t)).2 =
      of db' (Function.update counters t (counters t + 1)) := by
  have hid : (UInt64.ofNat (counters t)).toNat = counters t := UInt64.toNat_ofNat_of_lt' h
  have hcounter : Function.update (fun t => UInt64.ofNat (counters t)) t
      (.ofNat (counters t) + 1) =
        fun t' => .ofNat (Function.update counters t (counters t + 1) t') := by
    funext t'
    by_cases ht : t' = t
    · rw [ht, Function.update_self, Function.update_self, UInt64.ofNat_add]
      rfl
    · rw [Function.update_of_ne ht, Function.update_of_ne ht]
  simp only [step, of, if_true, hid, hcounter, hdb]

/-- The ids of deals made one after the other. -/
theorem exec_deals (deals : List Deal) {db : Tables} {counters : Table → Nat}
    (hids : deals.map Deal.id = List.range' (counters .deal) deals.length)
    (hcount : counters .deal + deals.length ≤ 2 ^ 64) :
    Machine.exec step (of db counters) (deals.map fun _ => .generate .deal) =
      of (deals.foldl (fun db deal =>
          db.addDeal deal.id deal.sellerId deal.buyerId deal.amount deal.price) db)
        (Function.update counters .deal (counters .deal + deals.length)) := by
  induction deals generalizing db counters with
  | nil => simp
  | cons deal deals ih =>
    rw [List.map_cons, List.length_cons, List.range'_succ, List.cons.injEq] at hids
    rw [List.length_cons] at hcount
    have hdb := Tables.ids_addDeal db deal.id deal.sellerId deal.buyerId deal.amount deal.price
    rw [show (db.ids .deal).insert deal.id = (db.ids .deal).insert (counters .deal) by
      rw [hids.1]] at hdb
    rw [List.map_cons, Machine.exec_cons, step_of counters .deal (by omega) hdb,
      List.foldl_cons, ih]
    · rw [Function.update_self, Function.update_idem, List.length_cons, Nat.add_right_comm,
        Nat.add_assoc]
    · rw [Function.update_self]
      exact hids.2
    · rw [Function.update_self]
      omega

end Ids

namespace Store

/-- The ids alone. -/
def ids (s : Store) : Ids :=
  { stored := s.tables.ids, counter := fun t => .ofNat (s.market.counters t),
    running := s.running }

/-- The ids an event draws: those of the objects that are constructed. -/
def draws (s : Store) : Event → List Ids.Event
  | .start => [.start]
  | .call op _ =>
    if s.running then
      match op with
      | .registerUser _ exist => if exist then [] else [.generate .user]
      | .postOffer .. =>
        .generate .offer ::
          (s.market.dealsSince (s.market.step op).2).map fun _ => .generate .deal
      | _ => []
    else []

/-- All ids drawn are of 64 bits. -/
def Unwrapped (s : Store) (e : Event) : Prop :=
  ∀ t, (s.step e).2.market.counters t ≤ 2 ^ 64

variable {s : Store}

theorem ids_of_running (hrun : s.running = true) : s.ids = .of s.tables s.market.counters := by
  rw [ids, Ids.of, hrun]

/-- A call in a run draws the ids of what it constructs. -/
theorem ids_call {a : Reference} (hs : Stands s.market a) (hrun : s.running = true) (op : Op)
    (pwHash : UInt64) (hcount : ∀ t, (s.market.step op).2.counters t ≤ 2 ^ 64) :
    Ids.of (record s.tables s.market (s.market.step op).2 pwHash op)
        (s.market.step op).2.counters =
      Machine.exec Ids.step (.of s.tables s.market.counters) (s.draws (.call op pwHash)) := by
  have hcounters := hs.counters_step op
  cases op with
  | registerUser username exist =>
    cases exist with
    | true =>
      simp only [draws, hrun, if_true]
      rfl
    | false =>
      have hafter : (s.market.step (.registerUser username false)).2.counters =
          Function.update s.market.counters .user (s.market.counters .user + 1) := by
        funext t
        cases t <;> rfl
      have huser := hcount .user
      rw [hafter, Function.update_self] at huser
      simp only [draws, hrun, if_true, hafter]
      exact (Ids.step_of s.market.counters .user (Nat.lt_of_succ_le huser)
        (Tables.ids_addUser s.tables _ username pwHash)).symm
  | postOffer u type price amount =>
    have hdeals := (hs.dealsSince (.postOffer u type price amount)).1
    have hoffer := hcount .offer
    have hdeal := hcount .deal
    simp only [draws, hrun, if_true, record]
    rw [hcounters] at hoffer hdeal ⊢
    generalize s.market.dealsSince (s.market.step (.postOffer u type price amount)).2 = deals
      at hdeals hdeal ⊢
    have hstep := Ids.step_of s.market.counters .offer (Nat.lt_of_succ_le hoffer)
      (Tables.ids_addOffer s.tables s.market.offerId u type amount price)
    rw [Machine.exec_cons, hstep, Ids.exec_deals deals hdeals hdeal]
    congr 1
    funext t
    cases t <;> rfl
  | _ =>
    simp only [draws, hrun, if_true, record]
    rw [hcounters, (hs.dealsSince _).2.2 rfl]
    rfl

/-- An event draws its ids from the machine of the ids. -/
theorem ids_step (h : s.market.Reachable) {e : Event} (hcount : s.Unwrapped e) :
    (s.step e).2.ids = Machine.exec Ids.step s.ids (s.draws e) := by
  cases e with
  | start =>
    rw [draws, Machine.exec_cons, Machine.exec_nil, step, Ids.step]
    simp only [ids]
    cases seeds fun t => (s.tables.ids t).rows with
    | error fault => rfl
    | ok seed =>
      have hseed : (Market.empty (seed .offer) (seed .deal) (seed .user)).counters = seed := by
        funext t
        cases t <;> rfl
      simp only [hseed]
  | call op pwHash =>
    cases hrun : s.running with
    | false => simp only [step, draws, hrun, Bool.false_eq_true, if_false, Machine.exec_nil]
    | true =>
      obtain ⟨a, hs⟩ := h.stands
      rw [Unwrapped, step_call hrun] at hcount
      rw [ids_of_running hrun, ← ids_call hs hrun op pwHash hcount, step_call hrun]
      exact ids_of_running hrun

theorem reachable_step (h : s.market.Reachable) (e : Event) : (s.step e).2.market.Reachable := by
  cases e with
  | start =>
    rw [step]
    split
    · exact ⟨_, _, _, [], rfl⟩
    · exact h
  | call op pwHash =>
    cases hrun : s.running with
    | false => simpa only [step, hrun, Bool.false_eq_true, if_false] using h
    | true =>
      rw [step_call hrun]
      exact h.step op

/-- The ids after a history are those that its events draw. -/
theorem ids_exec (h : s.market.Reachable) (events : List Event)
    (hcount : Machine.Along step Unwrapped s events) :
    (Machine.exec step s events).ids =
      Machine.exec Ids.step s.ids (Machine.gather step draws s events) := by
  induction events generalizing s with
  | nil => rfl
  | cons e events ih =>
    rw [Machine.exec_cons, ih (reachable_step h e) hcount.2, ids_step h hcount.1, Machine.gather,
      Machine.exec_append]

end Store

end ForexMarket
