import Mathlib.Algebra.Order.Ring.Int
import Mathlib.Tactic.Ring
import ForexMarket.Lib.KeyMap
import ForexMarket.Spec.Reference

/- The reference in a mirror: a BUY for a SELL, a price for its negative, and the dollars
   of an account for their negatives. The mirror keeps which offers cross and which of
   them is taken first, so a reference and its mirror image answer mirrored calls with
   mirrored answers (`Mirrored.step`). A deposit of dollars is a `size_t`, whose mirror
   image is the deposit of its negative, so dollars are the negatives modulo 2 ^ 32. -/
namespace ForexMarket

open Wrap

def OfferView.mirror (v : OfferView) : OfferView :=
  { v with type := v.type.opposite, price := -v.price }

def DealView.mirror (d : DealView) : DealView :=
  { d with sellerId := d.buyerId, buyerId := d.sellerId, price := -d.price }

def Balance.mirror (b : Balance) : Balance := { b with usd := wrap32 (-b.usd) }

/-- The two quotes change places, and their difference stays. -/
def AskBidQuotesInfo.mirror (q : AskBidQuotesInfo) : AskBidQuotesInfo :=
  { askQuote := q.bidQuote.map (- ·), bidQuote := q.askQuote.map (- ·), spread := q.spread }

/-- The call on the other side of the market. -/
def Op.mirror : Op → Op
  | .postOffer u type price amount => .postOffer u type.opposite (-price) amount
  | .depositUSD u amount => .depositUSD u (-amount)
  | op => op

def Reply.mirror : Reply → Reply
  | .balance b => .balance b.mirror
  | .offers l => .offers (l.map OfferView.mirror)
  | .deals l => .deals (l.map DealView.mirror)
  | .quote q => .quote (q.map (- ·))
  | .quotes q => .quotes q.mirror
  | r => r

/-- The least of the negatives is the negative of the greatest. -/
theorem min?_map_neg (l : List Int) : (l.map (- ·)).min? = l.max?.map (- ·) := by
  cases h : l.max? with
  | none => simp [List.max?_eq_none_iff.mp h]
  | some m =>
    obtain ⟨hm, hle⟩ := List.max?_eq_some_iff.mp h
    refine List.min?_eq_some_iff.mpr ⟨List.mem_map_of_mem hm, fun y hy => ?_⟩
    obtain ⟨x, hx, rfl⟩ := List.mem_map.mp hy
    exact neg_le_neg (hle x hx)

theorem max?_map_neg (l : List Int) : (l.map (- ·)).max? = l.min?.map (- ·) := by
  have hmin := min?_map_neg (l.map (- ·))
  have hback : (l.map (- ·)).map (- ·) = l := by
    rw [List.map_map]
    exact (List.map_congr_left fun x _ => neg_neg x).trans (List.map_id l)
  rw [hback] at hmin
  rw [hmin, Option.map_map]
  cases (l.map (- ·)).max? with
  | none => rfl
  | some m => exact congrArg some (neg_neg m).symm

/-- The distance of the quotes is the same in the mirror. -/
theorem spreadOf_mirror (ask bid : Option Int) :
    Market.spreadOf (bid.map (- ·)) (ask.map (- ·)) = Market.spreadOf ask bid := by
  cases ask with
  | none => cases bid <;> rfl
  | some ask =>
    cases bid with
    | none => rfl
    | some bid =>
      show some (wrap32 (-ask - -bid)) = some (wrap32 (bid - ask))
      rw [neg_sub_neg]

/-- Integers that agree modulo 2 ^ 32 wrap to one value. -/
theorem wrap32_congr {x y : Int} (h : x ≡ y [ZMOD 2 ^ 32]) : wrap32 x = wrap32 y := by
  rw [wrap32_eq, wrap32_eq, ← Int.emod_bmod, ← Int.emod_bmod (x := y)]
  exact congrArg (Int.bmod · _) h

/-- The account `y` is the mirror image of `x`. -/
structure Account.Mirrors (x y : Account) : Prop where
  usd : y.usd ≡ -x.usd [ZMOD 2 ^ 32]
  rub : y.rub = x.rub
  deals : y.deals = x.deals.map DealView.mirror

theorem Account.Mirrors.afterDeal {x y : Account} (h : x.Mirrors y) (u : Nat) (d : DealView) :
    (x.afterDeal u d).Mirrors (y.afterDeal u d.mirror) where
  usd := by
    have hparts := (h.usd.add_right (if u = d.sellerId then (d.amount : Int) else 0)).sub_right
      (if u = d.buyerId then (d.amount : Int) else 0)
    have hneg : -(x.afterDeal u d).usd = -x.usd + (if u = d.sellerId then (d.amount : Int) else 0)
        - (if u = d.buyerId then (d.amount : Int) else 0) := by
      simp only [Account.afterDeal]
      ring
    rw [hneg]
    exact hparts
  rub := by
    have hneg (v : Nat) : (if u = v then d.amount * -d.price else 0) =
        -(if u = v then d.amount * d.price else 0) := by
      split <;> ring
    show y.rub - (if u = d.sellerId then d.amount * -d.price else 0)
        + (if u = d.buyerId then d.amount * -d.price else 0) =
      x.rub - (if u = d.buyerId then d.amount * d.price else 0)
        + (if u = d.sellerId then d.amount * d.price else 0)
    rw [hneg, hneg, h.rub]
    ring
  deals := by
    have hparty : (u = d.mirror.buyerId ∨ u = d.mirror.sellerId) ↔
        (u = d.buyerId ∨ u = d.sellerId) := Or.comm
    simp only [Account.afterDeal, hparty, h.deals]
    split_ifs
    · rw [List.map_append, List.map_singleton]
    · rfl

namespace Reference

/-- The mirror as a map of live lists. -/
def mirrorMap : KeyMap OfferView.id OfferView.id where
  elem := OfferView.mirror
  onKey i := i
  mono _ _ h := h
  key_elem _ := rfl

/-- `b` is the mirror image of `a`. -/
structure Mirrored (a b : Reference) : Prop where
  live : b.live = a.live.map mirrorMap
  accounts : ∀ u, Option.Rel Account.Mirrors (a.accounts u) (b.accounts u)
  quote : b.quote = a.quote.map (- ·)
  offerId : b.offerId = a.offerId
  dealId : b.dealId = a.dealId
  userId : b.userId = a.userId
  fresh : ∀ v ∈ a.live, v.id < a.offerId

/-- The order in which offers are taken is the same in the mirror. -/
theorem rank_mirror (type : OfferType) (v : OfferView) :
    rank type.opposite v.mirror = rank type v := by
  cases type with
  | BUY => simp only [rank, OfferType.opposite, OfferView.mirror, neg_neg]
  | SELL => rfl

theorem crosses_mirror (type : OfferType) (limit price : Int) :
    crosses type.opposite (-limit) (-price) ↔ crosses type limit price := by
  cases type with
  | BUY => exact neg_le_neg_iff
  | SELL => exact neg_le_neg_iff

theorem matchable_mirror (o v : OfferView) :
    matchable o.mirror v.mirror = matchable o v := by
  have htype : v.type.opposite = o.type.opposite.opposite ↔ v.type = o.type.opposite := by
    cases v.type <;> cases o.type <;> decide
  rw [Bool.eq_iff_iff]
  simp only [matchable, decide_eq_true_eq, OfferView.mirror, htype, crosses_mirror]

namespace Mirrored

variable {a b : Reference} {o r : OfferView}

/-- The mirrored offer takes the mirrored offer. -/
theorem best? (h : Mirrored a b) (o : OfferView) :
    b.best? o.mirror = (a.best? o).map OfferView.mirror := by
  unfold Reference.best?
  rw [h.live, KeySet.elems_map]
  refine Select.best?_map (fun v _ => matchable_mirror o v) fun v _ w _ => ?_
  rw [show mirrorMap.elem v = v.mirror from rfl, show mirrorMap.elem w = w.mirror from rfl,
    show o.mirror.type = o.type.opposite from rfl, rank_mirror, rank_mirror]

theorem consume (live : KeySet OfferView OfferView.id) (r : OfferView) (n : Nat) :
    Reference.consume (live.map mirrorMap) r.mirror n =
      (Reference.consume live r n).map mirrorMap := by
  unfold Reference.consume
  split
  · next h0 => rw [if_pos (show r.amount - n = 0 from h0), KeySet.map_erase]; rfl
  · next h0 => rw [if_neg (show ¬ r.amount - n = 0 from h0), KeySet.map_store]; rfl

/-- The seller of a deal is the buyer of its mirror image. -/
theorem dealOf (h : Mirrored a b) (o r : OfferView) :
    b.dealOf o.mirror r.mirror = (a.dealOf o r).mirror := by
  unfold Reference.dealOf
  rw [h.dealId]
  cases ho : o.type <;> simp [DealView.mirror, OfferView.mirror, OfferType.opposite, ho]

theorem settle (h : Mirrored a b) (d : DealView) (u : Nat) :
    Option.Rel Account.Mirrors (Reference.settle a.accounts d u)
      (Reference.settle b.accounts d.mirror u) := by
  unfold Reference.settle
  have hu := h.accounts u
  generalize a.accounts u = x at hu ⊢
  generalize b.accounts u = y at hu ⊢
  cases hu with
  | none => exact .none
  | some hxy => exact .some (hxy.afterDeal u d)

theorem trade (h : Mirrored a b) (hr : r ∈ a.live) :
    Mirrored (a.trade o r) (b.trade o.mirror r.mirror) where
  live := by
    show Reference.consume b.live _ _ = _
    rw [h.live]
    exact consume _ _ _
  accounts := by
    show ∀ u, Option.Rel _ _ (Reference.settle b.accounts (b.dealOf _ _) u)
    rw [h.dealOf]
    exact h.settle _
  quote := rfl
  offerId := h.offerId
  dealId := congrArg (· + 1) h.dealId
  userId := h.userId
  fresh := by
    intro v hv
    rcases (mem_consume hr).mp hv with ⟨hv, -⟩ | ⟨rfl, -⟩
    · exact h.fresh v hv
    · exact h.fresh r hr

/-- An incoming offer, by induction on the trades it makes. -/
theorem matchOffer (h : Mirrored a b) (hfresh : ∀ v ∈ a.live, v.id ≠ o.id)
    (ho : o.id < a.offerId) : Mirrored (a.matchOffer o) (b.matchOffer o.mirror) := by
  induction a, o using matchOffer.induct generalizing b with
  | case1 a o hbest =>
    have hbest' : b.best? o.mirror = none := by rw [h.best?, hbest]; rfl
    rw [matchOffer_of_none hbest, matchOffer_of_none hbest']
    refine ⟨?_, h.accounts, h.quote, h.offerId, h.dealId, h.userId, ?_⟩
    · show b.live.insert _ = (a.live.insert o).map mirrorMap
      rw [h.live, KeySet.map_insert hfresh]
      rfl
    · intro v hv
      rcases KeySet.mem_insert.mp hv with hv | ⟨rfl, -⟩
      · exact h.fresh v hv
      · exact ho
  | case2 a o r hbest hr =>
    have hbest' : b.best? o.mirror = some r.mirror := by rw [h.best?, hbest]; rfl
    have hr' : (remainder o.mirror r.mirror).amount = 0 := hr
    rw [matchOffer_of_some hbest, matchOffer_of_some hbest', if_pos hr, if_pos hr']
    exact h.trade (best?_mem hbest)
  | case3 a o r hbest hr ih =>
    have hbest' : b.best? o.mirror = some r.mirror := by rw [h.best?, hbest]; rfl
    have hr' : (remainder o.mirror r.mirror).amount ≠ 0 := hr
    rw [matchOffer_of_some hbest, matchOffer_of_some hbest', if_neg hr, if_neg hr']
    refine ih (h.trade (best?_mem hbest)) (fun v hv => ?_) ho
    rcases (mem_consume (best?_mem hbest)).mp hv with ⟨hv, -⟩ | ⟨rfl, -⟩
    · exact hfresh v hv
    · exact hfresh r (best?_mem hbest)

/-! The calls. -/

/-- The call answers as its mirror image does, and keeps the two references in step. -/
def Follows (a b : Reference) (op : Op) : Prop :=
  (b.step op.mirror).1 = (a.step op).1.mirror ∧ Mirrored (a.step op).2 (b.step op.mirror).2

/-- An account may be written on both sides. -/
theorem update (h : Mirrored a b) {x y : Account} (hxy : x.Mirrors y) (u : Nat) {n : Nat} :
    Mirrored { a with accounts := Function.update a.accounts u (some x), userId := n }
      { b with accounts := Function.update b.accounts u (some y), userId := n } := by
  refine ⟨h.live, fun v => ?_, h.quote, h.offerId, h.dealId, rfl, h.fresh⟩
  by_cases hv : v = u
  · subst hv
    simp only [Function.update_self]
    exact .some hxy
  · simp only [Function.update_of_ne hv]
    exact h.accounts v

/-- A user is registered on both sides or on neither. -/
theorem account (h : Mirrored a b) (u : Nat) :
    (a.accounts u = none ∧ b.accounts u = none) ∨
      ∃ x y, a.accounts u = some x ∧ b.accounts u = some y ∧ x.Mirrors y := by
  have hu := h.accounts u
  generalize a.accounts u = x at hu ⊢
  generalize b.accounts u = y at hu ⊢
  cases hu with
  | none => exact .inl ⟨rfl, rfl⟩
  | some hxy => exact .inr ⟨_, _, rfl, rfl, hxy⟩

theorem writeUser (h : Mirrored a b) (u : Nat) {f g : Account → Account}
    (hfg : ∀ x y, x.Mirrors y → (f x).Mirrors (g y)) :
    (b.writeUser u g).1 = (a.writeUser u f).1.mirror ∧
      Mirrored (a.writeUser u f).2 (b.writeUser u g).2 := by
  unfold Reference.writeUser
  obtain ⟨hx, hy⟩ | ⟨x, y, hx, hy, hxy⟩ := h.account u
  · rw [hx, hy]
    exact ⟨rfl, h⟩
  · rw [hx, hy]
    exact ⟨rfl, h.userId ▸ h.update (hfg x y hxy) u⟩

theorem readUser (h : Mirrored a b) (u : Nat) {f g : Account → Reply}
    (hfg : ∀ x y, x.Mirrors y → g y = (f x).mirror) :
    (b.readUser u g).1 = (a.readUser u f).1.mirror ∧
      Mirrored (a.readUser u f).2 (b.readUser u g).2 := by
  unfold Reference.readUser
  obtain ⟨hx, hy⟩ | ⟨x, y, hx, hy, hxy⟩ := h.account u
  · rw [hx, hy]
    exact ⟨rfl, h⟩
  · rw [hx, hy]
    exact ⟨hfg x y hxy, h⟩

theorem owned (h : Mirrored a b) (u : Nat) :
    b.live.elems.filter (fun o => o.ownerId = u) =
      (a.live.elems.filter (fun o => o.ownerId = u)).map OfferView.mirror := by
  rw [h.live, KeySet.elems_map, List.filter_map]
  rfl

/-- The prices of a type are the negatives of those of the other. -/
theorem prices (h : Mirrored a b) (t : OfferType) :
    (b.live.elems.filter (fun o => o.type = t)).map OfferView.price =
      ((a.live.elems.filter (fun o => o.type = t.opposite)).map OfferView.price).map (- ·) := by
  have htype (o : OfferView) : o.mirror.type = t ↔ o.type = t.opposite := by
    show o.type.opposite = t ↔ _
    cases o.type <;> cases t <;> decide
  rw [h.live, KeySet.elems_map, List.filter_map, List.map_map, List.map_map]
  simp only [Function.comp_def, mirrorMap, htype]
  rfl

theorem quotes (h : Mirrored a b) :
    b.askQuote = a.bidQuote.map (- ·) ∧ b.bidQuote = a.askQuote.map (- ·) := by
  unfold Reference.askQuote Reference.bidQuote
  rw [h.prices, h.prices, min?_map_neg, max?_map_neg]
  exact ⟨rfl, rfl⟩

theorem postOffer (h : Mirrored a b) (u : Nat) (type : OfferType) (price : Int)
    (amount : UInt64) : Follows a b (.postOffer u type price amount) := by
  have hconstruct : Mirrored { a with offerId := a.offerId + 1 }
      { b with offerId := b.offerId + 1 } :=
    ⟨h.live, h.accounts, h.quote, congrArg (· + 1) h.offerId, h.dealId, h.userId,
      fun v hv => (h.fresh v hv).trans (Nat.lt_succ_self _)⟩
  unfold Follows
  obtain ⟨hx, hy⟩ | ⟨x, y, hx, hy, -⟩ := h.account u
  · simp only [Op.mirror, Reference.step, hx, hy]
    exact ⟨rfl, hconstruct⟩
  · simp only [Op.mirror, Reference.step, hx, hy, h.offerId]
    refine ⟨rfl, ?_⟩
    have hmatch := hconstruct.matchOffer
      (o := { id := a.offerId, ownerId := u, type := type, price := price,
              amount := amount.toNat })
      (fun v hv => (h.fresh v hv).ne) (Nat.lt_succ_self _)
    simp only [OfferView.mirror, h.offerId] at hmatch
    exact hmatch

theorem removeOffer (h : Mirrored a b) (u i : Nat) : Follows a b (.removeOffer u i) := by
  unfold Follows
  obtain ⟨hx, hy⟩ | ⟨x, y, hx, hy, -⟩ := h.account u
  · simp only [Op.mirror, Reference.step, hx, hy]
    exact ⟨rfl, h⟩
  · have hfind : b.live.find? i = (a.live.find? i).map OfferView.mirror := by
      rw [h.live]
      exact KeySet.find?_map i
    have hany : (b.live.find? i).any (fun o => o.ownerId = u) =
        (a.live.find? i).any (fun o => o.ownerId = u) := by
      rw [hfind]
      cases a.live.find? i <;> rfl
    simp only [Op.mirror, Reference.step, hx, hy, hany]
    split
    · refine ⟨rfl, ?_, h.accounts, h.quote, h.offerId, h.dealId, h.userId, ?_⟩
      · show b.live.erase i = _
        rw [h.live, KeySet.map_erase]
        rfl
      · exact fun v hv => h.fresh v (KeySet.mem_erase.mp hv).1
    · exact ⟨rfl, h⟩

theorem depositUSD (h : Mirrored a b) (u : Nat) (amount : UInt64) :
    Follows a b (.depositUSD u amount) := by
  have hneg : ((-amount).toNat : Int) ≡ -amount.toNat [ZMOD 2 ^ 32] := by
    have h64 := (denotes_toNat 0).sub (denotes_toNat amount)
    rw [UInt64.zero_sub] at h64
    exact (h64.trans (by simp)).of_dvd (by norm_num)
  obtain ⟨hr, hs⟩ := h.writeUser u (f := fun x => { x with usd := x.usd + amount.toNat })
    (g := fun x => { x with usd := x.usd + (-amount).toNat }) fun x y hxy => {
      usd := by
        show y.usd + ((-amount).toNat : Int) ≡ -(x.usd + amount.toNat) [ZMOD 2 ^ 32]
        rw [neg_add]
        exact hxy.usd.add hneg
      rub := hxy.rub
      deals := hxy.deals }
  exact ⟨hr, hs⟩

/-- Every mirrored call is answered with the mirrored answer. -/
theorem step (h : Mirrored a b) (op : Op) : Follows a b op := by
  cases op with
  | registerUser username exist =>
    unfold Follows
    cases exist with
    | true => exact ⟨rfl, h⟩
    | false =>
      simp only [Op.mirror, Reference.step, Bool.false_eq_true, if_false, h.userId]
      exact ⟨rfl, h.update ⟨Int.ModEq.refl _, rfl, rfl⟩ _⟩
  | depositUSD u amount => exact h.depositUSD u amount
  | depositRUB u amount =>
    exact h.writeUser u fun x y hxy => ⟨hxy.usd, congrArg (· + _) hxy.rub, hxy.deals⟩
  | getUserBalance u =>
    refine h.readUser u fun x y hxy => ?_
    have husd : wrap32 y.usd = wrap32 (-wrap32 x.usd) :=
      wrap32_congr (hxy.usd.trans (wrap32_modEq x.usd).neg.symm)
    rw [husd, hxy.rub]
    rfl
  | getActiveOffers u => exact h.readUser u fun _ _ _ => congrArg Reply.offers (h.owned u)
  | getClosedDeals u => exact h.readUser u fun _ _ hxy => congrArg Reply.deals hxy.deals
  | postOffer u type price amount => exact h.postOffer u type price amount
  | removeOffer u i => exact h.removeOffer u i
  | getQuote => exact ⟨congrArg Reply.quote h.quote, h⟩
  | getAskBidQuotes =>
    refine ⟨?_, h⟩
    obtain ⟨hask, hbid⟩ := h.quotes
    simp only [Op.mirror, Reference.step, hask, hbid, spreadOf_mirror]
    rfl

end Mirrored

end Reference

end ForexMarket
