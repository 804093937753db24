import ForexMarket.Lib.KeyMap
import ForexMarket.Spec.Laws

/- What a reference shows while some users are hidden: all offers, but whose they are only
   of the others, and the accounts of the others, without the counterparties of their
   deals. Matching never looks at who owns an offer, so two references that show the same
   show the same after any call of a user who is not hidden (`Alike.step`), and after
   calls of hidden users that do the same to the offers (`Alike.post`, `Alike.erase`). -/
namespace ForexMarket

open Wrap

/-- An offer, with its owner where that is shown. -/
structure OfferShown where
  id : Nat
  type : OfferType
  price : Int
  amount : Nat
  owner : Option Nat

/-- A user where that is shown. -/
def shownUser (hidden : Nat → Bool) (u : Nat) : Option Nat := if hidden u then none else some u

def OfferView.shown (hidden : Nat → Bool) (v : OfferView) : OfferShown :=
  { id := v.id, type := v.type, price := v.price, amount := v.amount,
    owner := shownUser hidden v.ownerId }

/-- A deal, with the part that a user had in it. -/
structure DealSeen where
  bought : Bool
  sold : Bool
  price : Int
  amount : Nat

def DealView.seenBy (u : Nat) (d : DealView) : DealSeen :=
  { bought := d.buyerId = u, sold := d.sellerId = u, price := d.price, amount := d.amount }

/-- The balances and the deals of a user, where they are shown. -/
def Account.shown (hidden : Nat → Bool) (u : Nat) (x : Account) :
    Option (Int × Int × List DealSeen) :=
  if hidden u then none
  else some (wrap32 x.usd, wrap32 x.rub, x.deals.map (DealView.seenBy u))

section Shown

variable {hidden : Nat → Bool} {u : Nat}

/-- Whether someone is a user who is not hidden shows. -/
theorem shownUser_eq_some (hu : hidden u = false) (v : Nat) :
    shownUser hidden v = some u ↔ v = u := by
  unfold shownUser
  split
  · next hv =>
    constructor
    · intro h; cases h
    · rintro rfl; rw [hu] at hv; cases hv
  · simp

/-- A deal changes what is shown of an account by what the user sees of the deal. -/
theorem Account.shown_afterDeal {x y : Account} {d d' : DealView}
    (h : x.shown hidden u = y.shown hidden u) (hd : hidden u = false → d.seenBy u = d'.seenBy u) :
    (x.afterDeal u d).shown hidden u = (y.afterDeal u d').shown hidden u := by
  unfold Account.shown at h ⊢
  cases hu : hidden u with
  | true => simp only [if_true]
  | false =>
    simp only [hu, Bool.false_eq_true, if_false, Option.some.injEq, Prod.mk.injEq] at h ⊢
    obtain ⟨husd, hrub, hdeals⟩ := h
    have hseen := hd hu
    simp only [DealView.seenBy, DealSeen.mk.injEq, decide_eq_decide] at hseen
    obtain ⟨hb, hs, hp, ha⟩ := hseen
    have hb' : u = d.buyerId ↔ u = d'.buyerId := by rw [eq_comm, hb, eq_comm]
    have hs' : u = d.sellerId ↔ u = d'.sellerId := by rw [eq_comm, hs, eq_comm]
    simp only [Account.afterDeal, hb', hs', hp, ha]
    refine ⟨?_, ?_, ?_⟩
    · rw [← wrap32_sub, ← wrap32_add, husd, wrap32_add, wrap32_sub]
    · rw [← wrap32_add, ← wrap32_sub, hrub, wrap32_sub, wrap32_add]
    · by_cases hparty : u = d'.buyerId ∨ u = d'.sellerId
      · rw [if_pos hparty, if_pos hparty, List.map_append, List.map_append, hdeals]
        simp [DealView.seenBy, hb, hs, hp, ha]
      · rw [if_neg hparty, if_neg hparty, hdeals]

end Shown

/-- A selection that depends on what `f` keeps of the elements. -/
theorem map_filter_factor {α β γ : Type} {f : α → β} {p : α → Bool} {p' : β → Bool} {g : α → γ}
    {g' : β → γ} (l : List α) (hp : ∀ x ∈ l, p x = p' (f x))
    (hg : ∀ x ∈ l, p x = true → g x = g' (f x)) :
    (l.filter p).map g = ((l.map f).filter p').map g' := by
  rw [List.filter_map, List.map_map, List.filter_congr hp]
  apply List.map_congr_left
  intro x hx
  obtain ⟨hx, hpx⟩ := List.mem_filter.mp hx
  exact hg x hx ((hp x hx).trans hpx)

/-- The user a call names. -/
def Op.user : Op → Option Nat
  | .depositUSD u _ | .depositRUB u _ | .getUserBalance u | .getActiveOffers u
  | .getClosedDeals u | .postOffer u _ _ _ | .removeOffer u _ => some u
  | .registerUser .. | .getQuote | .getAskBidQuotes => none

namespace Reference

def shownMap (hidden : Nat → Bool) : KeyMap OfferView.id OfferShown.id where
  elem := OfferView.shown hidden
  onKey := id
  mono := strictMono_id
  key_elem _ := rfl

/-- The references show the same. -/
structure Alike (hidden : Nat → Bool) (a b : Reference) : Prop where
  live : a.live.map (shownMap hidden) = b.live.map (shownMap hidden)
  accounts : ∀ u, (a.accounts u).map (Account.shown hidden u) =
    (b.accounts u).map (Account.shown hidden u)
  quote : a.quote = b.quote
  offerId : a.offerId = b.offerId
  userId : a.userId = b.userId

namespace Alike

variable {hidden : Nat → Bool} {a b : Reference} {o o' r r' : OfferView}

theorem symm (h : Alike hidden a b) : Alike hidden b a where
  live := h.live.symm
  accounts u := (h.accounts u).symm
  quote := h.quote.symm
  offerId := h.offerId.symm
  userId := h.userId.symm

/-- What is live in one is live in the other, up to what is shown of it. -/
theorem mem (h : Alike hidden a b) (hr : r ∈ a.live) :
    ∃ r' ∈ b.live, r'.shown hidden = r.shown hidden := by
  have hmem : r.shown hidden ∈ a.live.map (shownMap hidden) := KeySet.mem_map.mpr ⟨r, hr, rfl⟩
  rw [h.live] at hmem
  exact KeySet.mem_map.mp hmem

theorem elems (h : Alike hidden a b) :
    a.live.elems.map (OfferView.shown hidden) = b.live.elems.map (OfferView.shown hidden) :=
  congrArg KeySet.elems h.live

/-! Matching. -/

/-- The order in which an incoming offer takes the resting ones that are shown. -/
def rankShown (type : OfferType) (s : OfferShown) : Int ×ₗ Nat :=
  match type with
  | .BUY => toLex (s.price, s.id)
  | .SELL => toLex (-s.price, s.id)

def matchableShown (type : OfferType) (price : Int) (s : OfferShown) : Bool :=
  s.type = type.opposite ∧ crosses type price s.price

theorem best?_shown (a : Reference) (o : OfferView) :
    Select.best? (matchableShown o.type o.price) (rankShown o.type)
      (a.live.elems.map (OfferView.shown hidden)) = (a.best? o).map (OfferView.shown hidden) := by
  have hrank : ∀ v : OfferView, rankShown o.type (v.shown hidden) = rank o.type v := by
    intro v
    cases o.type <;> rfl
  exact Select.best?_map (fun _ _ => rfl) fun v _ w _ => by rw [hrank, hrank]

theorem best? (h : Alike hidden a b) (ho : o.shown hidden = o'.shown hidden) :
    (a.best? o).map (OfferView.shown hidden) = (b.best? o').map (OfferView.shown hidden) := by
  have htype : o.type = o'.type := congrArg OfferShown.type ho
  have hprice : o.price = o'.price := congrArg OfferShown.price ho
  rw [← best?_shown a o, ← best?_shown b o', h.elems, htype, hprice]

theorem consume (hlive : a.live.map (shownMap hidden) = b.live.map (shownMap hidden))
    (hr : r.shown hidden = r'.shown hidden) (n : Nat) :
    (Reference.consume a.live r n).map (shownMap hidden) =
      (Reference.consume b.live r' n).map (shownMap hidden) := by
  have hid : r.id = r'.id := congrArg OfferShown.id hr
  have hamount : r.amount = r'.amount := congrArg OfferShown.amount hr
  unfold Reference.consume
  by_cases h0 : r.amount - n = 0
  · have h0' : r'.amount - n = 0 := hamount ▸ h0
    rw [if_pos h0, if_pos h0', KeySet.map_erase, KeySet.map_erase, hlive, hid]
  · have h0' : ¬ r'.amount - n = 0 := hamount ▸ h0
    have hleft : OfferView.shown hidden { r with amount := r.amount - n } =
        OfferView.shown hidden { r' with amount := r'.amount - n } := by
      simp only [OfferView.shown, OfferShown.mk.injEq] at hr ⊢
      obtain ⟨-, htype, hprice, -, howner⟩ := hr
      exact ⟨hid, htype, hprice, by rw [hamount], howner⟩
    rw [if_neg h0, if_neg h0', KeySet.map_store, KeySet.map_store, hlive]
    exact congrArg _ hleft

/-- A user who is not hidden has the same part in both deals. -/
theorem dealOf_seenBy (ho : o.shown hidden = o'.shown hidden)
    (hr : r.shown hidden = r'.shown hidden) {u : Nat} (hu : hidden u = false) :
    (a.dealOf o r).seenBy u = (b.dealOf o' r').seenBy u := by
  have howner : ∀ {v w : OfferView}, v.shown hidden = w.shown hidden →
      (v.ownerId = u ↔ w.ownerId = u) := by
    intro v w h
    have hshown : shownUser hidden v.ownerId = shownUser hidden w.ownerId :=
      congrArg OfferShown.owner h
    rw [← shownUser_eq_some hu, hshown, shownUser_eq_some hu]
  have htype : o.type = o'.type := congrArg OfferShown.type ho
  have hprice : r.price = r'.price := congrArg OfferShown.price hr
  have hamount : o.amount = o'.amount := congrArg OfferShown.amount ho
  have hamount' : r.amount = r'.amount := congrArg OfferShown.amount hr
  simp only [DealView.seenBy, dealOf, htype, hprice, hamount, hamount', DealSeen.mk.injEq,
    and_true]
  constructor
  · split
    · exact decide_eq_decide.mpr (howner ho)
    · exact decide_eq_decide.mpr (howner hr)
  · split
    · exact decide_eq_decide.mpr (howner ho)
    · exact decide_eq_decide.mpr (howner hr)

theorem trade (h : Alike hidden a b) (ho : o.shown hidden = o'.shown hidden)
    (hr : r.shown hidden = r'.shown hidden) : Alike hidden (a.trade o r) (b.trade o' r') where
  live := by
    have hamount : o.amount = o'.amount := congrArg OfferShown.amount ho
    have hamount' : r.amount = r'.amount := congrArg OfferShown.amount hr
    simp only [Reference.trade, hamount, hamount']
    exact consume h.live hr _
  accounts u := by
    have hx := h.accounts u
    simp only [Reference.trade, settle]
    cases ha : a.accounts u with
    | none =>
      rw [ha] at hx
      cases hb : b.accounts u with
      | none => rfl
      | some y => rw [hb] at hx; cases hx
    | some x =>
      rw [ha] at hx
      cases hb : b.accounts u with
      | none => rw [hb] at hx; cases hx
      | some y =>
        rw [hb] at hx
        exact congrArg some (Account.shown_afterDeal (Option.some.inj hx) (dealOf_seenBy ho hr))
  quote := congrArg some (congrArg OfferShown.price hr)
  offerId := h.offerId
  userId := h.userId

theorem insert (h : Alike hidden a b) (ho : o.shown hidden = o'.shown hidden)
    (hfresh : ∀ v ∈ a.live, v.id ≠ o.id) :
    Alike hidden { a with live := a.live.insert o } { b with live := b.live.insert o' } where
  live := by
    have hid : o.id = o'.id := congrArg OfferShown.id ho
    have hfresh' : ∀ v ∈ b.live, v.id ≠ o'.id := by
      intro v hv
      obtain ⟨w, hw, hshown⟩ := h.symm.mem hv
      have hvw : w.id = v.id := congrArg OfferShown.id hshown
      rw [← hid, ← hvw]
      exact hfresh w hw
    show (a.live.insert o).map _ = (b.live.insert o').map _
    rw [KeySet.map_insert hfresh, KeySet.map_insert hfresh', h.live]
    exact congrArg _ ho
  accounts := h.accounts
  quote := h.quote
  offerId := h.offerId
  userId := h.userId

/-- What is left of an offer that shows the same shows the same. -/
theorem remainder_shown (ho : o.shown hidden = o'.shown hidden)
    (hr : r.shown hidden = r'.shown hidden) :
    (remainder o r).shown hidden = (remainder o' r').shown hidden := by
  have hamount : r.amount = r'.amount := congrArg OfferShown.amount hr
  simp only [OfferView.shown, OfferShown.mk.injEq, remainder, hamount] at ho ⊢
  obtain ⟨hid, htype, hprice, ha, howner⟩ := ho
  exact ⟨hid, htype, hprice, by rw [ha], howner⟩

/-- An incoming offer, by induction on the trades it makes. -/
theorem matchOffer (h : Alike hidden a b) (ho : o.shown hidden = o'.shown hidden)
    (hfresh : ∀ v ∈ a.live, v.id ≠ o.id) :
    Alike hidden (a.matchOffer o) (b.matchOffer o') := by
  induction a, o using matchOffer.induct generalizing b o' with
  | case1 a o hbest =>
    have hbest' : b.best? o' = none := by
      have hmap := h.best? ho
      rw [hbest] at hmap
      exact Option.map_eq_none_iff.mp hmap.symm
    rw [matchOffer_of_none hbest, matchOffer_of_none hbest']
    exact h.insert ho hfresh
  | case2 a o r hbest hfull =>
    have hmap := h.best? ho
    rw [hbest] at hmap
    obtain ⟨r', hbest', hr⟩ := Option.map_eq_some_iff.mp hmap.symm
    have hleft := congrArg OfferShown.amount (remainder_shown ho hr.symm)
    have hfull' : (remainder o' r').amount = 0 := hleft.symm.trans hfull
    rw [matchOffer_of_some hbest, matchOffer_of_some hbest', if_pos hfull, if_pos hfull']
    exact h.trade ho hr.symm
  | case3 a o r hbest hmore ih =>
    have hmap := h.best? ho
    rw [hbest] at hmap
    obtain ⟨r', hbest', hr⟩ := Option.map_eq_some_iff.mp hmap.symm
    have hleft := congrArg OfferShown.amount (remainder_shown ho hr.symm)
    have hmore' : ¬ (remainder o' r').amount = 0 := fun e => hmore (hleft.trans e)
    rw [matchOffer_of_some hbest, matchOffer_of_some hbest', if_neg hmore, if_neg hmore']
    refine ih (h.trade ho hr.symm) (remainder_shown ho hr.symm) fun v hv => ?_
    rw [mem_trade_of_lt (lt_of_remainder_ne_zero hmore)] at hv
    exact hfresh v hv.1

/-! Calls. -/

/-- The account of a user who is not hidden. -/
theorem account (h : Alike hidden a b) {u : Nat} (hu : hidden u = false) :
    (a.accounts u = none ∧ b.accounts u = none) ∨
      ∃ x y, a.accounts u = some x ∧ b.accounts u = some y ∧ wrap32 x.usd = wrap32 y.usd ∧
        wrap32 x.rub = wrap32 y.rub ∧
        x.deals.map (DealView.seenBy u) = y.deals.map (DealView.seenBy u) := by
  have hmap := h.accounts u
  cases hx : a.accounts u with
  | none =>
    rw [hx] at hmap
    exact .inl ⟨rfl, Option.map_eq_none_iff.mp hmap.symm⟩
  | some x =>
    rw [hx] at hmap
    obtain ⟨y, hy, hshown⟩ := Option.map_eq_some_iff.mp hmap.symm
    simp only [Account.shown, hu, Bool.false_eq_true, if_false, Option.some.injEq,
      Prod.mk.injEq] at hshown
    obtain ⟨husd, hrub, hdeals⟩ := hshown
    exact .inr ⟨x, y, rfl, hy, husd.symm, hrub.symm, hdeals.symm⟩

/-- The offers of a user who is not hidden are the same. -/
theorem offers_eq (h : Alike hidden a b) {u : Nat} (hu : hidden u = false) :
    a.live.elems.filter (fun o => o.ownerId = u) =
      b.live.elems.filter (fun o => o.ownerId = u) := by
  have hfactor : ∀ l : List OfferView, l.filter (fun o => o.ownerId = u) =
      ((l.map (OfferView.shown hidden)).filter (fun s => s.owner = some u)).map
        (fun s => { id := s.id, ownerId := u, type := s.type, price := s.price,
                    amount := s.amount }) := by
    intro l
    rw [← map_filter_factor (g := id) l, List.map_id]
    · intro v _
      exact decide_eq_decide.mpr (shownUser_eq_some hu v.ownerId).symm
    · intro v _ hv
      rw [← of_decide_eq_true hv]
      rfl
  rw [hfactor a.live.elems, hfactor b.live.elems, h.elems]

/-- Whether an offer is live and a user's shows where the user does. -/
theorem find?_any (h : Alike hidden a b) {u : Nat} (hu : hidden u = false) (i : Nat) :
    (a.live.find? i).any (fun o => o.ownerId = u) =
      (b.live.find? i).any (fun o => o.ownerId = u) := by
  have hfactor : ∀ live : KeySet OfferView OfferView.id,
      (live.find? i).any (fun o => o.ownerId = u) =
        ((live.map (shownMap hidden)).find? i).any (fun s => s.owner = some u) := by
    intro live
    have hfind : (live.map (shownMap hidden)).find? i =
        (live.find? i).map (OfferView.shown hidden) := KeySet.find?_map (m := shownMap hidden) i
    rw [hfind]
    cases live.find? i with
    | none => rfl
    | some v => exact decide_eq_decide.mpr (shownUser_eq_some hu v.ownerId).symm
  rw [hfactor, hfactor, h.live]

theorem erase (h : Alike hidden a b) (i : Nat) :
    Alike hidden { a with live := a.live.erase i } { b with live := b.live.erase i } where
  live := by
    show (a.live.erase i).map _ = (b.live.erase i).map _
    rw [KeySet.map_erase, KeySet.map_erase, h.live]
  accounts := h.accounts
  quote := h.quote
  offerId := h.offerId
  userId := h.userId

/-- The prices of a type, and so the quotes, are the same. -/
theorem prices_eq (h : Alike hidden a b) (t : OfferType) :
    (a.live.elems.filter (fun o => o.type = t)).map OfferView.price =
      (b.live.elems.filter (fun o => o.type = t)).map OfferView.price := by
  have hfactor : ∀ l : List OfferView, (l.filter (fun o => o.type = t)).map OfferView.price =
      ((l.map (OfferView.shown hidden)).filter (fun s => s.type = t)).map OfferShown.price :=
    fun l => map_filter_factor l (fun _ _ => rfl) (fun _ _ _ => rfl)
  rw [hfactor, hfactor, h.elems]

/-- Offers posted by users who show the same. -/
theorem post (h : Alike hidden a b) (hfresh : ∀ v ∈ a.live, v.id ≠ a.offerId) {u u' : Nat}
    (hu : shownUser hidden u = shownUser hidden u') (hx : (a.accounts u).isSome)
    (hy : (b.accounts u').isSome) (type : OfferType) (price : Int) (amount : UInt64) :
    Alike hidden (a.step (.postOffer u type price amount)).2
      (b.step (.postOffer u' type price amount)).2 := by
  obtain ⟨x, hx⟩ := Option.isSome_iff_exists.mp hx
  obtain ⟨y, hy⟩ := Option.isSome_iff_exists.mp hy
  simp only [Reference.step, hx, hy]
  have hdrawn : Alike hidden { a with offerId := a.offerId + 1 }
      { b with offerId := b.offerId + 1 } :=
    ⟨h.live, h.accounts, h.quote, congrArg (· + 1) h.offerId, h.userId⟩
  apply hdrawn.matchOffer
  · simp only [OfferView.shown, hu, h.offerId]
  · exact hfresh

/-- The same call of a user who is not hidden, or of none. -/
theorem step (h : Alike hidden a b) (hfresh : ∀ v ∈ a.live, v.id ≠ a.offerId) {op : Op}
    (hserved : op.served = true) (hu : ∀ u ∈ op.user, hidden u = false) :
    Alike hidden (a.step op).2 (b.step op).2 ∧
      ((∀ u, op ≠ .getClosedDeals u) → (a.step op).1 = (b.step op).1) := by
  cases op with
  | depositUSD u amount => cases hserved
  | depositRUB u amount => cases hserved
  | registerUser username exist =>
    cases exist with
    | true => exact ⟨h, fun _ => rfl⟩
    | false =>
      simp only [Reference.step, Bool.false_eq_true, if_false, h.userId]
      refine ⟨⟨h.live, fun u => ?_, h.quote, h.offerId, rfl⟩, fun _ => trivial⟩
      simp only [Function.update_apply]
      split
      · rfl
      · exact h.accounts u
  | getUserBalance u =>
    rcases h.account (hu u rfl) with ⟨hx, hy⟩ | ⟨x, y, hx, hy, husd, hrub, -⟩
    · simp only [Reference.step, readUser, hx, hy]
      exact ⟨h, fun _ => trivial⟩
    · simp only [Reference.step, readUser, hx, hy, husd, hrub]
      exact ⟨h, fun _ => trivial⟩
  | getActiveOffers u =>
    rcases h.account (hu u rfl) with ⟨hx, hy⟩ | ⟨x, y, hx, hy, -⟩
    · simp only [Reference.step, readUser, hx, hy]
      exact ⟨h, fun _ => trivial⟩
    · simp only [Reference.step, readUser, hx, hy, h.offers_eq (hu u rfl)]
      exact ⟨h, fun _ => trivial⟩
  | getClosedDeals u =>
    rcases h.account (hu u rfl) with ⟨hx, hy⟩ | ⟨x, y, hx, hy, -⟩
    · simp only [Reference.step, readUser, hx, hy]
      exact ⟨h, fun hne => absurd rfl (hne u)⟩
    · simp only [Reference.step, readUser, hx, hy]
      exact ⟨h, fun hne => absurd rfl (hne u)⟩
  | postOffer u type price amount =>
    rcases h.account (hu u rfl) with ⟨hx, hy⟩ | ⟨x, y, hx, hy, -⟩
    · simp only [Reference.step, hx, hy]
      exact ⟨⟨h.live, h.accounts, h.quote, congrArg (· + 1) h.offerId, h.userId⟩, fun _ => trivial⟩
    · refine ⟨h.post hfresh rfl (by rw [hx]; rfl) (by rw [hy]; rfl) type price amount, fun _ => ?_⟩
      simp only [Reference.step, hx, hy, h.offerId]
  | removeOffer u i =>
    rcases h.account (hu u rfl) with ⟨hx, hy⟩ | ⟨x, y, hx, hy, -⟩
    · simp only [Reference.step, hx, hy]
      exact ⟨h, fun _ => trivial⟩
    · simp only [Reference.step, hx, hy, h.find?_any (hu u rfl) i]
      split
      · exact ⟨h.erase i, fun _ => rfl⟩
      · exact ⟨h, fun _ => rfl⟩
  | getQuote =>
    simp only [Reference.step, h.quote]
    exact ⟨h, fun _ => trivial⟩
  | getAskBidQuotes =>
    simp only [Reference.step, askQuote, bidQuote, h.prices_eq]
    exact ⟨h, fun _ => trivial⟩

end Alike

end Reference

end ForexMarket
