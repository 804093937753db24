import ForexMarket.Lib.KeyMap
import ForexMarket.Spec.Reference

/- The reference under a shift of the offer ids from some id on. Ids are only compared,
   and the shift keeps their order, so a reference and its shifted copy answer shifted
   calls with shifted answers (`Renamed.step`). -/
namespace ForexMarket

/-- The ids from `k` on move up by one. -/
def shiftId (k i : Nat) : Nat := if i < k then i else i + 1

theorem shiftId_strictMono (k : Nat) : StrictMono (shiftId k) := by
  intro i j hij
  unfold shiftId
  split <;> split <;> omega

theorem shiftId_of_lt {k i : Nat} (h : i < k) : shiftId k i = i := if_pos h

theorem shiftId_of_le {k i : Nat} (h : k ≤ i) : shiftId k i = i + 1 := if_neg (by omega)

def OfferView.shift (k : Nat) (v : OfferView) : OfferView := { v with id := shiftId k v.id }

/-- The call with the offer it names shifted. -/
def Op.shift (k : Nat) : Op → Op
  | .removeOffer u i => .removeOffer u (shiftId k i)
  | op => op

/-- The answer with the offers it names shifted. -/
def Reply.shift (k : Nat) : Reply → Reply
  | .offers l => .offers (l.map (OfferView.shift k))
  | .posted i => .posted (shiftId k i)
  | r => r

namespace Reference

/-- The shift as a map of live lists. -/
def shiftMap (k : Nat) : KeyMap OfferView.id OfferView.id where
  elem := OfferView.shift k
  onKey := shiftId k
  mono := shiftId_strictMono k
  key_elem _ := rfl

/-- `b` is `a` with the offer ids from `k` on shifted, `k` being drawn already. -/
structure Renamed (k : Nat) (a b : Reference) : Prop where
  live : b.live = a.live.map (shiftMap k)
  accounts : b.accounts = a.accounts
  quote : b.quote = a.quote
  offerId : b.offerId = shiftId k a.offerId
  dealId : b.dealId = a.dealId
  userId : b.userId = a.userId
  drawn : k ≤ a.offerId
  fresh : ∀ v ∈ a.live, v.id < a.offerId

theorem rank_shift (k : Nat) (type : OfferType) (v w : OfferView) :
    rank type (v.shift k) < rank type (w.shift k) ↔ rank type v < rank type w := by
  have hid : shiftId k v.id < shiftId k w.id ↔ v.id < w.id := (shiftId_strictMono k).lt_iff_lt
  cases type with
  | BUY => simp only [rank, Prod.Lex.toLex_lt_toLex, OfferView.shift, hid]
  | SELL => simp only [rank, Prod.Lex.toLex_lt_toLex, OfferView.shift, hid]

namespace Renamed

variable {k : Nat} {a b : Reference} {o r : OfferView}

/-- The shifted offer takes the shifted offer. -/
theorem best? (h : Renamed k a b) (o : OfferView) :
    b.best? (o.shift k) = (a.best? o).map (OfferView.shift k) := by
  unfold Reference.best?
  rw [h.live, KeySet.elems_map]
  exact Select.best?_map (fun _ _ => rfl) fun v _ w _ => rank_shift k o.type v w

theorem consume (live : KeySet OfferView OfferView.id) (r : OfferView) (n : Nat) :
    Reference.consume (live.map (shiftMap k)) (r.shift k) n =
      (Reference.consume live r n).map (shiftMap k) := by
  unfold Reference.consume
  split
  · next h0 => rw [if_pos (show r.amount - n = 0 from h0), KeySet.map_erase]; rfl
  · next h0 => rw [if_neg (show ¬ r.amount - n = 0 from h0), KeySet.map_store]; rfl

theorem trade (h : Renamed k a b) (hr : r ∈ a.live) :
    Renamed k (a.trade o r) (b.trade (o.shift k) (r.shift k)) where
  live := by
    show Reference.consume b.live _ _ = _
    rw [h.live]
    exact consume _ _ _
  accounts := by
    show settle b.accounts (b.dealOf _ _) = settle a.accounts (a.dealOf _ _)
    rw [h.accounts, dealOf, h.dealId]
    rfl
  quote := rfl
  offerId := h.offerId
  dealId := congrArg (· + 1) h.dealId
  userId := h.userId
  drawn := h.drawn
  fresh := by
    intro v hv
    rcases (mem_consume hr).mp hv with ⟨hv, -⟩ | ⟨rfl, -⟩
    · exact h.fresh v hv
    · exact h.fresh r hr

/-- An incoming offer, by induction on the trades it makes. -/
theorem matchOffer (h : Renamed k a b) (hfresh : ∀ v ∈ a.live, v.id ≠ o.id)
    (ho : o.id < a.offerId) : Renamed k (a.matchOffer o) (b.matchOffer (o.shift k)) := by
  induction a, o using matchOffer.induct generalizing b with
  | case1 a o hbest =>
    have hbest' : b.best? (o.shift k) = none := by rw [h.best?, hbest]; rfl
    rw [matchOffer_of_none hbest, matchOffer_of_none hbest']
    refine ⟨?_, h.accounts, h.quote, h.offerId, h.dealId, h.userId, h.drawn, ?_⟩
    · show b.live.insert _ = (a.live.insert o).map (shiftMap k)
      rw [h.live, KeySet.map_insert hfresh]
      rfl
    · intro v hv
      rcases KeySet.mem_insert.mp hv with hv | ⟨rfl, -⟩
      · exact h.fresh v hv
      · exact ho
  | case2 a o r hbest hr =>
    have hbest' : b.best? (o.shift k) = some (r.shift k) := by rw [h.best?, hbest]; rfl
    have hr' : (remainder (o.shift k) (r.shift k)).amount = 0 := hr
    rw [matchOffer_of_some hbest, matchOffer_of_some hbest', if_pos hr, if_pos hr']
    exact h.trade (best?_mem hbest)
  | case3 a o r hbest hr ih =>
    have hbest' : b.best? (o.shift k) = some (r.shift k) := by rw [h.best?, hbest]; rfl
    have hr' : ¬ (remainder (o.shift k) (r.shift k)).amount = 0 := hr
    rw [matchOffer_of_some hbest, matchOffer_of_some hbest', if_neg hr, if_neg hr']
    refine ih (h.trade (best?_mem hbest)) ?_ ho
    intro v hv
    rw [trade_live_of_lt (lt_of_remainder_ne_zero hr)] at hv
    exact hfresh v (KeySet.mem_erase.mp hv).1

/-! The calls. -/

/-- The call answers as the shifted call does, and keeps the two references in step. -/
def Follows (k : Nat) (a b : Reference) (op : Op) : Prop :=
  (b.step (op.shift k)).1 = (a.step op).1.shift k ∧
    Renamed k (a.step op).2 (b.step (op.shift k)).2

/-- Accounts may change alike. -/
theorem of_accounts (h : Renamed k a b) {f : Nat → Option Account} {n : Nat} :
    Renamed k { a with accounts := f, userId := n } { b with accounts := f, userId := n } :=
  ⟨h.live, rfl, h.quote, h.offerId, h.dealId, rfl, h.drawn, h.fresh⟩

theorem writeUser (h : Renamed k a b) (u : Nat) (f : Account → Account) :
    (b.writeUser u f).1 = (a.writeUser u f).1 ∧
      Renamed k (a.writeUser u f).2 (b.writeUser u f).2 := by
  unfold Reference.writeUser
  rw [h.accounts]
  cases a.accounts u with
  | none => exact ⟨rfl, h⟩
  | some x =>
    refine ⟨rfl, ?_⟩
    have hacc := h.of_accounts (f := Function.update a.accounts u (some (f x))) (n := a.userId)
    rw [← h.userId] at hacc
    exact h.userId ▸ hacc

theorem readUser (h : Renamed k a b) (u : Nat) {f g : Account → Reply}
    (hf : ∀ x, g x = (f x).shift k) :
    (b.readUser u g).1 = (a.readUser u f).1.shift k ∧
      Renamed k (a.readUser u f).2 (b.readUser u g).2 := by
  unfold Reference.readUser
  rw [h.accounts]
  cases a.accounts u with
  | none => exact ⟨rfl, h⟩
  | some x => exact ⟨hf x, h⟩

/-- The prices of a type do not depend on the ids. -/
theorem prices (h : Renamed k a b) (t : OfferType) :
    (b.live.elems.filter (fun o => o.type = t)).map OfferView.price =
      (a.live.elems.filter (fun o => o.type = t)).map OfferView.price := by
  rw [h.live, KeySet.elems_map, List.filter_map, List.map_map]
  rfl

theorem owned (h : Renamed k a b) (u : Nat) :
    b.live.elems.filter (fun o => o.ownerId = u) =
      (a.live.elems.filter (fun o => o.ownerId = u)).map (OfferView.shift k) := by
  rw [h.live, KeySet.elems_map, List.filter_map]
  rfl

theorem postOffer (h : Renamed k a b) (u : Nat) (type : OfferType) (price : Int)
    (amount : UInt64) : Follows k a b (.postOffer u type price amount) := by
  have hnext : b.offerId = a.offerId + 1 := by rw [h.offerId, shiftId_of_le h.drawn]
  have hdrawn : k ≤ a.offerId + 1 := h.drawn.trans (Nat.le_succ _)
  -- the id is drawn
  have hconstruct : Renamed k { a with offerId := a.offerId + 1 }
      { b with offerId := b.offerId + 1 } := by
    refine ⟨h.live, h.accounts, h.quote, ?_, h.dealId, h.userId, hdrawn, ?_⟩
    · show b.offerId + 1 = shiftId k (a.offerId + 1)
      rw [shiftId_of_le hdrawn, hnext]
    · exact fun v hv => (h.fresh v hv).trans (Nat.lt_succ_self _)
  unfold Follows
  cases hx : a.accounts u with
  | none =>
    have hx' : b.accounts u = none := by rw [h.accounts, hx]
    simp only [Op.shift, Reference.step, hx, hx']
    exact ⟨rfl, hconstruct⟩
  | some x =>
    have hx' : b.accounts u = some x := by rw [h.accounts, hx]
    simp only [Op.shift, Reference.step, hx, hx']
    refine ⟨congrArg Reply.posted h.offerId, ?_⟩
    have hmatch := hconstruct.matchOffer
      (o := { id := a.offerId, ownerId := u, type := type, price := price,
              amount := amount.toNat })
      (fun v hv => (h.fresh v hv).ne) (Nat.lt_succ_self _)
    simp only [OfferView.shift, ← h.offerId] at hmatch
    exact hmatch

theorem removeOffer (h : Renamed k a b) (u i : Nat) : Follows k a b (.removeOffer u i) := by
  unfold Follows
  cases hx : a.accounts u with
  | none =>
    have hx' : b.accounts u = none := by rw [h.accounts, hx]
    simp only [Op.shift, Reference.step, hx, hx']
    exact ⟨rfl, h⟩
  | some x =>
    have hx' : b.accounts u = some x := by rw [h.accounts, hx]
    have hfind : b.live.find? (shiftId k i) = (a.live.find? i).map (OfferView.shift k) := by
      rw [h.live]
      exact KeySet.find?_map i
    have hany : (b.live.find? (shiftId k i)).any (fun o => o.ownerId = u) =
        (a.live.find? i).any (fun o => o.ownerId = u) := by
      rw [hfind]
      cases a.live.find? i <;> rfl
    simp only [Op.shift, Reference.step, hx, hx', hany]
    split
    · refine ⟨rfl, ?_, h.accounts, h.quote, h.offerId, h.dealId, h.userId, h.drawn, ?_⟩
      · show b.live.erase (shiftId k i) = _
        rw [h.live, KeySet.map_erase]
        rfl
      · exact fun v hv => h.fresh v (KeySet.mem_erase.mp hv).1
    · exact ⟨rfl, h⟩

/-- Every shifted call is answered with the shifted answer. -/
theorem step (h : Renamed k a b) (op : Op) : Follows k a b op := by
  cases op with
  | registerUser username exist =>
    unfold Follows
    cases exist with
    | true => exact ⟨rfl, h⟩
    | false =>
      simp only [Op.shift, Reference.step, Bool.false_eq_true, if_false, h.userId, h.accounts]
      exact ⟨rfl, h.of_accounts⟩
  | depositUSD u amount =>
    obtain ⟨hr, hs⟩ := h.writeUser u (fun x => { x with usd := x.usd + amount.toNat })
    refine ⟨hr.trans ?_, hs⟩
    simp only [Reference.step, Reference.writeUser]
    cases a.accounts u <;> rfl
  | depositRUB u amount =>
    obtain ⟨hr, hs⟩ := h.writeUser u (fun x => { x with rub := x.rub + amount.toNat })
    refine ⟨hr.trans ?_, hs⟩
    simp only [Reference.step, Reference.writeUser]
    cases a.accounts u <;> rfl
  | getUserBalance u => exact h.readUser u fun _ => rfl
  | getActiveOffers u => exact h.readUser u fun _ => congrArg Reply.offers (h.owned u)
  | getClosedDeals u => exact h.readUser u fun _ => rfl
  | postOffer u type price amount => exact h.postOffer u type price amount
  | removeOffer u i => exact h.removeOffer u i
  | getQuote => exact ⟨congrArg Reply.quote h.quote, h⟩
  | getAskBidQuotes =>
    refine ⟨?_, h⟩
    simp only [Op.shift, Reference.step, askQuote, bidQuote, h.prices]
    rfl

end Renamed

end Reference

end ForexMarket
