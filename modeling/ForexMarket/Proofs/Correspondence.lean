import ForexMarket.Spec.Lifecycle
import ForexMarket.Proofs.Refinement

/- Every reachable market stands for a well-formed reference: its live offers are the
   reference's live list, its trades the reference's trades, and each call takes both to
   states that correspond again with one answer. So the market answers every list of
   calls as the reference does (`market_refines_reference`). -/
namespace ForexMarket

/-- The market stands for the reference. -/
structure Stands (s : Market) (a : Reference) : Prop where
  inv : Inv none s
  sim : Sim none s a
  wf : a.WellFormed

theorem Deal.view_inj {d e : Deal} (h : d.view = e.view) : d = e := by
  cases d; cases e
  simpa [Deal.view, UInt64.toNat_inj] using h

theorem Trade.view_injective : Function.Injective Trade.view := by
  intro t t' h
  have hdeal := Deal.view_inj (congrArg TradeView.deal h)
  have hin : t.incoming = t'.incoming := congrArg TradeView.incoming h
  have hrest : t.resting = t'.resting := congrArg TradeView.resting h
  cases t; cases t'
  simp_all

namespace Stands

variable {s s' : Market} {a a' : Reference}

theorem empty (i j k : Nat) : Stands (Market.empty i j k) (Reference.empty i j k) :=
  ⟨Inv.empty i j k, Sim.empty i j k, Reference.WellFormed.empty i j k⟩

theorem reply_eq (h : Stands s a) (op : Op) : (s.step op).1 = (a.step op).1 :=
  (step_refines h.inv h.sim op).1

theorem moves (h : Stands s a) (op : Op) : a.Moves op (s.step op).1 (a.step op).2 := by
  rw [h.reply_eq op]
  exact a.step_moves op

theorem step (h : Stands s a) (op : Op) : Stands (s.step op).2 (a.step op).2 :=
  ⟨(step_refines h.inv h.sim op).2.1, (step_refines h.inv h.sim op).2.2, h.wf.move (h.moves op)⟩

theorem run (h : Stands s a) (ops : List Op) :
    Stands (s.run ops) (Machine.exec Reference.step a ops) :=
  Machine.exec_sim (fun _ _ op h => h.step op) h ops

/-- From there on the market answers every list of calls as the reference does. -/
theorem outputs_eq (h : Stands s a) (ops : List Op) :
    Machine.outputs Market.step s ops = Machine.outputs Reference.step a ops :=
  Machine.outputs_eq_of_sim (R := Stands) (fun _ _ op h => h.reply_eq op)
    (fun _ _ op h => h.step op) h ops

/-- A user is registered with the market as with the reference. -/
theorem registered_iff (h : Stands s a) (u : Nat) :
    (∃ d, s.users.find? u = some d) ↔ (a.accounts u).isSome := by
  cases hd : s.users.find? u with
  | none => simp [h.sim.account_none hd]
  | some d =>
    obtain ⟨x, hx, -⟩ := h.sim.account_some hd
    simp [hx]

theorem isSome_eq (h : Stands s a) (u : Nat) :
    (s.users.find? u).isSome = (a.accounts u).isSome := by
  rw [Bool.eq_iff_iff, ← h.registered_iff, Option.isSome_iff_exists]

/-- A registration adds the user of the next id, and no other call adds or removes one. -/
theorem step_users (h : Stands s a) (op : Op) :
    (s.step op).2.userId = (if Reference.registers op then s.userId + 1 else s.userId) ∧
      ∀ v, ((s.step op).2.users.find? v).isSome ↔
        (s.users.find? v).isSome ∨ (Reference.registers op = true ∧ v = s.userId) := by
  obtain ⟨huser, hreg⟩ := a.step_users op
  have h' := h.step op
  refine ⟨?_, fun v => ?_⟩
  · rw [h'.sim.userId, h.sim.userId, huser]
  · rw [h'.isSome_eq, h.isSome_eq, hreg, h.sim.userId]

theorem step_offerId (h : Stands s a) (op : Op) :
    (s.step op).2.offerId = if Reference.isPost op then s.offerId + 1 else s.offerId := by
  rw [(h.step op).sim.offerId, h.sim.offerId]
  exact (h.moves op).offerId

/-- The offers users list are the live ones. -/
theorem mem_liveOffers (h : Stands s a) {w : OfferView} : w ∈ s.liveOffers ↔ w ∈ a.live := by
  simp only [Market.liveOffers, List.mem_flatMap]
  refine ⟨?_, ?_⟩
  · intro ⟨d, hd, hw⟩
    rw [activeViews_eq h.inv h.sim (KeySet.find?_of_mem hd)] at hw
    exact (List.mem_filter.mp hw).1
  · intro hw
    obtain ⟨d, hd⟩ := (h.registered_iff w.ownerId).mpr (h.wf.live_owner w hw)
    refine ⟨d, (KeySet.find?_eq_some.mp hd).1, ?_⟩
    rw [activeViews_eq h.inv h.sim hd]
    exact List.mem_filter.mpr ⟨hw, by simp⟩

/-- No two users list one offer. -/
theorem liveOffers_perm (h : Stands s a) : s.liveOffers.Perm a.live.elems := by
  refine (List.perm_ext_iff_of_nodup ?_ a.live.nodup).mpr fun w => h.mem_liveOffers
  refine List.nodup_flatMap.mpr ⟨fun d hd => ?_, ?_⟩
  · rw [activeViews_eq h.inv h.sim (KeySet.find?_of_mem hd)]
    exact a.live.nodup.filter _
  · apply s.users.sorted.imp_of_mem
    intro d e hd he hlt w hw hw'
    rw [activeViews_eq h.inv h.sim (KeySet.find?_of_mem hd)] at hw
    rw [activeViews_eq h.inv h.sim (KeySet.find?_of_mem he)] at hw'
    have hwd : w.ownerId = d.id := by simpa using (List.mem_filter.mp hw).2
    have hwe : w.ownerId = e.id := by simpa using (List.mem_filter.mp hw').2
    omega

/-- A live offer is a live entry of the level of its price. -/
theorem in_book (h : Stands s a) {w : OfferView} (hw : w ∈ a.live) :
    w.id ∈ (s.book w.type).queue w.price := by
  obtain ⟨x, hx, rfl, ho, hne⟩ := (h.sim.live w).mp hw
  exact (h.inv.entry hx ho hne).2

/-- A level holds the ids of live offers of its price and of offers no longer live. -/
theorem of_in_book (h : Stands s a) {w : OfferView} (hw : w ∈ a.live) {t : OfferType} {k : Int}
    (hq : w.id ∈ (s.book t).queue k) : w.type = t ∧ w.price = k := by
  obtain ⟨x, hx, rfl, -⟩ := (h.sim.live w).mp hw
  obtain ⟨-, y, hy, hid, ht, hk⟩ := (h.inv.book t).entry k _ hq
  have hyx : y = x := KeySet.key_inj hy hx hid
  rw [hyx] at ht hk
  exact ⟨ht, hk⟩

/-- A posted offer's call, in the reference: the trades it makes and where they lead. -/
theorem posted (h : Stands s a) {u : Nat} (hu : ∃ d, s.users.find? u = some d) (type : OfferType)
    (price : Int) (amount : UInt64) :
    (s.step (.postOffer u type price amount)).1 = .posted s.offerId ∧
    ∃ ts a', Stands (s.step (.postOffer u type price amount)).2 a' ∧
      Reference.Matches { a with offerId := a.offerId + 1 }
        { id := s.offerId, ownerId := u, type := type, price := price, amount := amount.toNat }
        ts a' := by
  obtain ⟨x, hx⟩ := Option.isSome_iff_exists.mp ((h.registered_iff u).mp hu)
  rw [h.reply_eq, h.sim.offerId]
  refine ⟨by simp only [Reference.step, hx], ?_⟩
  have hstep := h.step (.postOffer u type price amount)
  obtain ⟨ts, hts⟩ := Reference.matchOffer_matches { a with offerId := a.offerId + 1 }
    { id := a.offerId, ownerId := u, type := type, price := price, amount := amount.toNat }
  simp only [Reference.step, hx] at hstep
  exact ⟨ts, _, hstep, hts⟩

/-- The trades the reference adds are the ones the market adds. -/
theorem new_trades (h : Stands s a) (h' : Stands s' a') {ts : List TradeView}
    (hts : a'.trades = a.trades ++ ts) :
    ∃ new, s'.trades = s.trades ++ new ∧ new.map Trade.view = ts := by
  rw [← h'.sim.trades, ← h.sim.trades] at hts
  obtain ⟨old, new, hsplit, hold, hnew⟩ := List.map_eq_append_iff.mp hts
  rw [List.map_injective_iff.mpr Trade.view_injective hold] at hsplit
  exact ⟨new, hsplit, hnew⟩

end Stands

theorem Market.Reachable.stands {s : Market} (h : s.Reachable) : ∃ a, Stands s a := by
  obtain ⟨i, j, k, ops, rfl⟩ := h
  exact ⟨_, (Stands.empty i j k).run ops⟩

/-- Two users, the first with SELL offers 0 at 12, 1 at 10 (cancelled) and 2 at 11, the second with
a BUY offer 3 at 8. -/
def Market.sampleOps : List Op :=
  [.registerUser "seller" false, .registerUser "buyer" false, .depositUSD 0 100, .depositRUB 1 900,
    .postOffer 0 .SELL 12 5, .postOffer 0 .SELL 10 4, .postOffer 0 .SELL 11 3, .removeOffer 0 1,
    .postOffer 1 .BUY 8 2]

/-- A small market. -/
def Market.sample : Market := (Market.empty 0 0 0).run Market.sampleOps

theorem Market.sample_reachable : Market.sample.Reachable := ⟨0, 0, 0, _, rfl⟩

/-- The market answers every list of calls as the reference does. -/
theorem market_refines_reference (offerId dealId userId : Nat) (ops : List Op) :
    Machine.outputs Market.step (Market.empty offerId dealId userId) ops =
      Machine.outputs Reference.step (Reference.empty offerId dealId userId) ops :=
  (Stands.empty offerId dealId userId).outputs_eq ops

end ForexMarket
