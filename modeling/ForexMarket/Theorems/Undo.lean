import ForexMarket.Spec.Renaming
import ForexMarket.Theorems.Offers

/- A post that makes no deal, and the removal of the offer it posted. Together they leave
   a market that cannot be told from the one before: it answers every list of calls as
   that one does, the ids of later offers being one higher. The two states differ (a dead
   entry is left, perhaps a dead level, and dead entries may have been dropped), but they
   stand for one reference up to the id it draws next. -/
namespace ForexMarket

open Reference (Renamed Dead)

namespace Market

/-- A post and the removal of the offer it is to post. -/
def postAndRemove (s : Market) (u : Nat) (type : OfferType) (price : Int) (amount : UInt64) :
    List Op :=
  [.postOffer u type price amount, .removeOffer u s.offerId]

/-- The market `s'` answers every list of calls as `s` does, later ids being one higher. -/
def SameUpToIds (s s' : Market) : Prop :=
  ∀ ops, Machine.outputs step s' (ops.map (Op.shift s.offerId)) =
    (Machine.outputs step s ops).map (Reply.shift s.offerId)

/-- Whatever calls `s'` has taken, the removal of the offer is refused and changes nothing. -/
def RefusesRemoval (s' : Market) (p : Nat) : Prop :=
  ∀ ops v, (s'.run ops).step (.removeOffer v p) = (.removed false, s'.run ops) ∨
    (s'.run ops).step (.removeOffer v p) = (.fault .outOfRange, s'.run ops)

end Market

variable {s : Market} {a : Reference}

/-- The reference is back where it was, but for the id drawn. -/
theorem Stands.post_and_remove (h : Stands s a) {u : Nat} (hu : ∃ d, s.users.find? u = some d)
    (type : OfferType) (price : Int) (amount : UInt64)
    (hquiet : (s.step (.postOffer u type price amount)).2.trades = s.trades) :
    Machine.outputs Market.step s (s.postAndRemove u type price amount) =
        [.posted s.offerId, .removed true] ∧
      Stands (s.run (s.postAndRemove u type price amount))
        { a with offerId := a.offerId + 1 } := by
  obtain ⟨hposted, tsv, a', h', hm⟩ := h.posted hu type price amount
  have hnil : tsv = [] := by
    have htrades := hm.trades_eq
    rw [← h'.sim.trades, hquiet, h.sim.trades] at htrades
    exact List.self_eq_append_right.mp htrades
  rw [hnil] at hm
  cases hm with
  | rest hnone =>
    have hfresh : ∀ c ∈ a.live, c.id ≠ s.offerId := by
      rw [h.sim.offerId]
      exact h.wf.fresh
    obtain ⟨x, hx⟩ := Option.isSome_iff_exists.mp ((h.registered_iff u).mp hu)
    -- the posted offer is live and its poster's, so it is removed, and nothing is left of it
    have hremove := h'.step (.removeOffer u s.offerId)
    have hreply := h'.reply_eq (.removeOffer u s.offerId)
    have herase : ((a.live.insert
        { id := s.offerId, ownerId := u, type := type, price := price,
          amount := amount.toNat }).erase s.offerId) = a.live := KeySet.erase_insert hfresh
    have hfind := KeySet.find?_of_mem ((KeySet.mem_insert_of_fresh
      (a := (⟨s.offerId, u, type, price, amount.toNat⟩ : OfferView)) hfresh).mpr (.inr rfl))
    simp only [Reference.step, hx, hfind, Option.any_some, decide_true, if_true] at hremove hreply
    rw [herase] at hremove
    refine ⟨?_, hremove⟩
    simp only [Market.postAndRemove, Machine.outputs, hposted, hreply]

/-- No id is shifted that was drawn before. -/
theorem Stands.renamed (h : Stands s a) :
    Renamed s.offerId a { a with offerId := a.offerId + 1 } where
  live := by
    refine (KeySet.map_of_fixed fun v hv => ?_).symm
    have hid : shiftId s.offerId v.id = v.id := by
      apply shiftId_of_lt
      rw [h.sim.offerId]
      exact h.wf.live_lt v hv
    show { v with id := shiftId s.offerId v.id } = v
    rw [hid]
  accounts := rfl
  quote := rfl
  offerId := by rw [h.sim.offerId, shiftId_of_le (le_refl _)]
  dealId := rfl
  userId := rfl
  drawn := h.sim.offerId.le
  fresh := h.wf.live_lt

/-- An offer out of reach is not there to be removed. -/
theorem Stands.refuses (h : Stands s a) {p : Nat} (hd : Dead a p) (v : Nat) :
    s.step (.removeOffer v p) = (.removed false, s) ∨
      s.step (.removeOffer v p) = (.fault .outOfRange, s) := by
  cases hu : s.users.find? v with
  | none =>
    right
    simp only [Market.step, Market.removeActiveOffer, hu]
  | some d =>
    left
    have hx := (h.registered_iff v).mp ⟨d, hu⟩
    obtain ⟨x, hx⟩ := Option.isSome_iff_exists.mp hx
    have hfind : a.live.find? p = none := KeySet.find?_eq_none.mpr hd.2
    have hreply := h.reply_eq (.removeOffer v p)
    simp only [Reference.step, hx, hfind, Option.any_none, Bool.false_eq_true, if_false] at hreply
    exact Prod.ext hreply (removeOffer_refused hreply)

theorem Stands.refusesRemoval (h : Stands s a) {p : Nat} (hd : Dead a p) :
    s.RefusesRemoval p := by
  intro ops v
  have hstep : ∀ s op, (∃ a, Stands s a ∧ Dead a p) → ∃ a, Stands (s.step op).2 a ∧ Dead a p := by
    rintro s op ⟨a, h, hd⟩
    exact ⟨_, h.step op, (hd.move (h.moves op)).1⟩
  obtain ⟨a', h', hd'⟩ := Machine.exec_inv hstep ⟨a, h, hd⟩ ops
  exact h'.refuses hd' v

/-- Cancelling undoes an unmatched post. -/
theorem cancel_undoes_post (hs : s.Reachable) {u : Nat} (hu : ∃ d, s.users.find? u = some d)
    (type : OfferType) (price : Int) (amount : UInt64)
    (hquiet : (s.step (.postOffer u type price amount)).2.trades = s.trades) :
    Machine.outputs Market.step s (s.postAndRemove u type price amount) =
        [.posted s.offerId, .removed true] ∧
      s.SameUpToIds (s.run (s.postAndRemove u type price amount)) ∧
      (s.run (s.postAndRemove u type price amount)).RefusesRemoval s.offerId := by
  obtain ⟨a, h⟩ := hs.stands
  obtain ⟨hout, h₂⟩ := h.post_and_remove hu type price amount hquiet
  refine ⟨hout, ?_, ?_⟩
  · intro ops
    rw [h₂.outputs_eq, h.outputs_eq]
    exact Machine.outputs_map_of_sim (R := Renamed s.offerId) (fun _ _ op h => (h.step op).1)
      (fun _ _ op h => (h.step op).2) h.renamed ops
  · refine h₂.refusesRemoval ⟨?_, ?_⟩
    · show s.offerId < a.offerId + 1
      rw [h.sim.offerId]
      exact Nat.lt_succ_self _
    · rw [h.sim.offerId]
      exact h.wf.fresh

/-- In the small market, a SELL at 20 makes no deal. -/
theorem sample_cancel_undoes_post :
    Machine.outputs Market.step Market.sample (Market.sample.postAndRemove 1 .SELL 20 7) =
        [.posted 4, .removed true] ∧
      Market.sample.SameUpToIds (Market.sample.run (Market.sample.postAndRemove 1 .SELL 20 7)) ∧
      (Market.sample.run (Market.sample.postAndRemove 1 .SELL 20 7)).RefusesRemoval 4 :=
  cancel_undoes_post Market.sample_reachable ⟨_, rfl⟩ .SELL 20 7 (by decide)

end ForexMarket
