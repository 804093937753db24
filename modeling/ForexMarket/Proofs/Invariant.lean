import ForexMarket.Proofs.Levels
import ForexMarket.Spec.Reference

/- The invariant of the market and the relation between a market and the reference.
   Both carry the id of the offer being posted, if any: it is in its owner's
   `active_offers_` before it is in a book, so it is left out of what is said about
   live offers until the call ends. Each lemma here changes a state in one way. -/
namespace ForexMarket

open Wrap

/-- The invariant; `pending` is the offer of a running `PostOffer`. -/
structure Inv (pending : Option Nat) (s : Market) : Prop where
  book : ∀ t, BookOk s.heap t (s.book t) pending
  owned : ∀ u p, s.Owns u p → ∃ x ∈ s.heap, x.id = p ∧ x.ownerId = u ∧
    (pending ≠ some p → x.status = .ACTIVE ∧ p ∈ (s.book x.type).queue x.price)
  offer_lt : ∀ x ∈ s.heap, x.id < s.offerId
  deal_lt : ∀ u d, s.users.find? u = some d → ∀ x ∈ d.closedDeals, x.id < s.dealId
  user_lt : ∀ u d, s.users.find? u = some d → u < s.userId
  uncrossed : ∀ b c, s.activeBuyOffers.queue b ≠ [] → s.activeSellOffers.queue c ≠ [] → b < c

/-- A user's data holds the wraps of the exact balances, and the same deals. -/
structure Agrees (d : UserData) (x : Account) : Prop where
  usd : d.balance.usd = wrap32 x.usd
  rub : d.balance.rub = wrap32 x.rub
  deals : d.closedDeals.elems.map Deal.view = x.deals

/-- The market stands for the reference: the offers users hold are the live ones. -/
structure Sim (pending : Option Nat) (s : Market) (a : Reference) : Prop where
  live : ∀ o, o ∈ a.live ↔
    ∃ x ∈ s.heap, x.view = o ∧ s.Owns x.ownerId x.id ∧ pending ≠ some x.id
  accounts : ∀ u, Option.Rel Agrees (s.users.find? u) (a.accounts u)
  quote : s.quote = a.quote
  offerId : s.offerId = a.offerId
  dealId : s.dealId = a.dealId
  userId : s.userId = a.userId
  trades : s.trades.map Trade.view = a.trades

/-! Accounts that agree. -/

theorem Agrees.deposit_usd {d : UserData} {x : Account} (h : Agrees d x) (amount : UInt64) :
    Agrees (d.depositUSD amount) { x with usd := x.usd + amount.toNat } where
  usd := by
    rw [UserData.depositUSD, UserData.setUsd, h.usd]
    exact narrow_add x.usd (denotes_toNat amount)
  rub := by rw [UserData.depositUSD, UserData.setUsd]; exact h.rub
  deals := by rw [UserData.depositUSD, UserData.setUsd]; exact h.deals

theorem Agrees.deposit_rub {d : UserData} {x : Account} (h : Agrees d x) (amount : UInt64) :
    Agrees (d.depositRUB amount) { x with rub := x.rub + amount.toNat } where
  usd := by rw [UserData.depositRUB, UserData.setRub]; exact h.usd
  rub := by
    rw [UserData.depositRUB, UserData.setRub, h.rub]
    exact narrow_add x.rub (denotes_toNat amount)
  deals := by rw [UserData.depositRUB, UserData.setRub]; exact h.deals

/-- A deal newer than the user's deals keeps an account in agreement. -/
theorem Agrees.afterDeal {d : UserData} {x : Account} (h : Agrees d x) {deal : Deal}
    (hnew : ∀ y ∈ d.closedDeals, y.id < deal.id) :
    Agrees (d.afterDeal deal) (x.afterDeal d.id deal.view) where
  usd := UserData.afterDeal_usd d deal h.usd
  rub := UserData.afterDeal_rub d deal h.rub
  deals := by
    rw [UserData.afterDeal_closedDeals]
    by_cases hp : d.id = deal.buyerId ∨ d.id = deal.sellerId
    · rw [if_pos hp, KeySet.elems_insert_of_lt hnew, List.map_append, h.deals]
      exact (if_pos hp).symm
    · rw [if_neg hp, h.deals]
      exact (if_neg hp).symm

/-- Related options stay related under maps that take related values to related ones. -/
theorem rel_map {α β : Type} {R : α → β → Prop} {o : Option α} {o' : Option β} {f : α → α}
    {g : β → β} (h : Option.Rel R o o') (hfg : ∀ x y, o = some x → R x y → R (f x) (g y)) :
    Option.Rel R (o.map f) (o'.map g) := by
  cases h with
  | none => exact .none
  | some hxy => exact .some (hfg _ _ rfl hxy)

namespace Inv

variable {pending : Option Nat} {s s' : Market}

/-- A new market has nothing to violate it. -/
theorem empty (i j k : Nat) : Inv none (Market.empty i j k) where
  book := fun t => by cases t <;> exact BookOk.empty
  owned := fun u p ⟨d, hd, _⟩ => by simp [Market.empty] at hd
  offer_lt := fun x hx => absurd hx (KeySet.not_mem_empty x)
  deal_lt := fun u d hd => by simp [Market.empty] at hd
  user_lt := fun u d hd => by simp [Market.empty] at hd
  uncrossed := fun b c hb => by simp [Market.empty, Book.queue] at hb

/-- An offer held by a user is its owner's, and known by its id. -/
theorem owner (h : Inv pending s) {u : Nat} {x : Offer} (hx : x ∈ s.heap) (ho : s.Owns u x.id) :
    x.ownerId = u := by
  obtain ⟨y, hy, hid, hu, -⟩ := h.owned u x.id ho
  rw [← KeySet.key_inj hy hx hid]
  exact hu

/-- An offer held by a user other than the posted one is active and in its book. -/
theorem entry (h : Inv pending s) {u : Nat} {x : Offer} (hx : x ∈ s.heap) (ho : s.Owns u x.id)
    (hne : pending ≠ some x.id) : x.status = .ACTIVE ∧ x.id ∈ (s.book x.type).queue x.price := by
  obtain ⟨y, hy, hid, -, hq⟩ := h.owned u x.id ho
  have hxy : y = x := KeySet.key_inj hy hx hid
  rw [hxy] at hq
  exact hq hne

/-- Users may change in any way that gives no one an offer and no one a deal. -/
theorem of_users (h : Inv pending s) (hbook : ∀ t, s'.book t = s.book t) (hheap : s'.heap = s.heap)
    (hoffer : s'.offerId = s.offerId) (hdeal : s'.dealId = s.dealId)
    (hown : ∀ u p, s'.Owns u p → s.Owns u p)
    (hfind : ∀ u d', s'.users.find? u = some d' → u < s'.userId ∧
      ∀ x ∈ d'.closedDeals, ∃ d, s.users.find? u = some d ∧ x ∈ d.closedDeals) :
    Inv pending s' where
  book := fun t => by rw [hbook, hheap]; exact h.book t
  owned := by
    intro u p ho
    obtain ⟨x, hx, hid, hu, hq⟩ := h.owned u p (hown u p ho)
    refine ⟨x, by rw [hheap]; exact hx, hid, hu, ?_⟩
    rw [hbook]
    exact hq
  offer_lt := by rw [hheap, hoffer]; exact h.offer_lt
  deal_lt := by
    intro u d' hd' x hx
    obtain ⟨d, hd, hx⟩ := (hfind u d' hd').2 x hx
    rw [hdeal]
    exact h.deal_lt u d hd x hx
  user_lt := fun u d' hd' => (hfind u d' hd').1
  uncrossed := by
    have hb := hbook .BUY
    have hc := hbook .SELL
    simp only [Market.book] at hb hc
    rw [hb, hc]
    exact h.uncrossed

/-- A dead back entry may go from a book. -/
theorem purge (h : Inv pending s) {t : OfferType} {price : Int} {p : Nat}
    (hp : ((s.book t).queue price).getLast? = some p) (hdead : ∀ u, ¬ s.Owns u p) :
    Inv pending (s.setBook t ((s.book t).dropBack price)) where
  book := by
    intro t'
    rw [Market.setBook_heap, Market.book_setBook]
    split
    · next ht => rw [ht]; exact (h.book t).dropBack price
    · exact h.book t'
  owned := by
    intro u p' ho
    have ho : s.Owns u p' := (Market.owns_congr (Market.setBook_users t _) u p').mp ho
    obtain ⟨x, hx, hid, hu, hq⟩ := h.owned u p' ho
    rw [Market.setBook_heap]
    refine ⟨x, hx, hid, hu, fun hne => ⟨(hq hne).1, ?_⟩⟩
    rw [Market.book_setBook]
    split
    · next ht =>
      rw [ht] at hq
      exact Book.mem_queue_dropBack hp (hq hne).2 (fun e => hdead u (e ▸ ho))
    · exact (hq hne).2
  offer_lt := by rw [Market.setBook_heap, Market.setBook_offerId]; exact h.offer_lt
  deal_lt := by rw [Market.setBook_users, Market.setBook_dealId]; exact h.deal_lt
  user_lt := by rw [Market.setBook_users, Market.setBook_userId]; exact h.user_lt
  uncrossed := by
    intro b c hb hc
    have hsub : ∀ t' k, ((s.setBook t ((s.book t).dropBack price)).book t').queue k ≠ [] →
        (s.book t').queue k ≠ [] := by
      intro t' k hne
      rw [Market.book_setBook] at hne
      split at hne
      · next ht => rw [ht]; exact Book.queue_of_dropBack hne
      · exact hne
    exact h.uncrossed b c (hsub .BUY b hb) (hsub .SELL c hc)

/-! The books after `AddActiveOffer`. -/

theorem queue_addActiveOffer (s : Market) (x : Offer) (t : OfferType) (k : Int) :
    ((s.addActiveOffer x).book t).queue k =
      if t = x.type ∧ k = x.price then x.id :: (s.book t).queue k else (s.book t).queue k := by
  rw [Market.addActiveOffer, Market.book_setBook]
  by_cases ht : t = x.type
  · rw [if_pos ht, ht, Book.queue_add]
    by_cases hk : k = x.price
    · rw [if_pos hk, if_pos ⟨rfl, hk⟩, hk]
    · rw [if_neg hk, if_neg fun h => hk h.2]
  · rw [if_neg ht, if_neg fun h => ht h.1]

/-- An entry stays. -/
theorem mem_queue_addActiveOffer (x : Offer) {t : OfferType} {k : Int} {p : Nat}
    (hp : p ∈ (s.book t).queue k) : p ∈ ((s.addActiveOffer x).book t).queue k := by
  rw [queue_addActiveOffer]
  split
  · exact List.mem_cons_of_mem _ hp
  · exact hp

/-- A level was there, or is the level of the offer. -/
theorem level_addActiveOffer {x : Offer} {t : OfferType} {k : Int}
    (hk : ((s.addActiveOffer x).book t).queue k ≠ []) :
    (s.book t).queue k ≠ [] ∨ t = x.type ∧ k = x.price := by
  rw [queue_addActiveOffer] at hk
  split at hk
  · next h => exact .inr h
  · exact .inl hk

/-- The posted offer joins its book when no level of the other book crosses it. -/
theorem rest {x : Offer} (h : Inv (some x.id) s) (hx : x ∈ s.heap) (hact : x.status = .ACTIVE)
    (hnew : ∀ y ∈ s.heap, y.id ≤ x.id)
    (hcross : ∀ k, (s.book x.type.opposite).queue k ≠ [] →
      ¬ Reference.crosses x.type x.price k) : Inv none (s.addActiveOffer x) where
  book := by
    intro t
    rw [Market.addActiveOffer, Market.setBook_heap, Market.book_setBook]
    split
    · next ht =>
      rw [ht]
      apply (h.book x.type).add hx rfl
      -- every entry is of another offer, and so of an older one
      intro k p hp
      obtain ⟨hne, y, hy, hid, -⟩ := (h.book x.type).entry k p hp
      have hle := hnew y hy
      have hne : p ≠ x.id := fun e => hne (e ▸ rfl)
      omega
    · have hb := h.book t
      exact ⟨hb.noEmpty, fun k p hp => ⟨by simp, (hb.entry k p hp).2⟩, hb.desc⟩
  owned := by
    intro u p ho
    have ho : s.Owns u p := (Market.owns_congr (Market.setBook_users _ _) u p).mp ho
    obtain ⟨y, hy, hid, hu, hq⟩ := h.owned u p ho
    refine ⟨y, by rw [Market.addActiveOffer, Market.setBook_heap]; exact hy, hid, hu, fun _ => ?_⟩
    by_cases hp : p = x.id
    · have hyx : y = x := KeySet.key_inj hy hx (hid.trans hp)
      rw [hyx, hp, queue_addActiveOffer, if_pos ⟨rfl, rfl⟩]
      exact ⟨hact, List.mem_cons_self⟩
    · obtain ⟨hyact, hyq⟩ := hq fun e => hp (Option.some.inj e).symm
      exact ⟨hyact, mem_queue_addActiveOffer x hyq⟩
  offer_lt := by
    rw [Market.addActiveOffer, Market.setBook_heap, Market.setBook_offerId]; exact h.offer_lt
  deal_lt := by
    rw [Market.addActiveOffer, Market.setBook_users, Market.setBook_dealId]; exact h.deal_lt
  user_lt := by
    rw [Market.addActiveOffer, Market.setBook_users, Market.setBook_userId]; exact h.user_lt
  uncrossed := by
    intro b c hb hc
    have hb : ((s.addActiveOffer x).book .BUY).queue b ≠ [] := hb
    have hc : ((s.addActiveOffer x).book .SELL).queue c ≠ [] := hc
    rcases level_addActiveOffer hb with hb | ⟨hbt, rfl⟩
    · rcases level_addActiveOffer hc with hc | ⟨hct, rfl⟩
      · exact h.uncrossed b c hb hc
      · -- a SELL offer rests above every BUY level
        rw [← hct] at hcross
        have hnot := hcross b hb
        simp only [Reference.crosses] at hnot
        omega
    · rcases level_addActiveOffer hc with hc | ⟨hct, -⟩
      · -- a BUY offer rests below every SELL level
        rw [← hbt] at hcross
        have hnot := hcross c hc
        simp only [Reference.crosses] at hnot
        omega
      · rw [← hbt] at hct
        cases hct

/-- The constructed offer is on the heap, and its owner's, before it is in a book. -/
theorem post (h : Inv none s) {x : Offer} (hid : x.id = s.offerId)
    (hbook : ∀ t, s'.book t = s.book t) (hheap : s'.heap = s.heap.insert x)
    (hoffer : s'.offerId = s.offerId + 1) (hdeal : s'.dealId = s.dealId)
    (huser : s'.userId = s.userId)
    (hown : ∀ u p, s'.Owns u p → s.Owns u p ∨ u = x.ownerId ∧ p = x.id ∧ pending = some x.id)
    (hfind : ∀ u d', s'.users.find? u = some d' →
      ∃ d, s.users.find? u = some d ∧ d'.closedDeals = d.closedDeals)
    (hpend : pending = none ∨ pending = some x.id) : Inv pending s' where
  book := by
    intro t
    have hb := h.book t
    rw [hbook, hheap]
    refine ⟨hb.noEmpty, ?_, hb.desc⟩
    intro k p hp
    obtain ⟨-, y, hy, hyid, ht, hk⟩ := hb.entry k p hp
    refine ⟨?_, y, KeySet.mem_insert.mpr (.inl hy), hyid, ht, hk⟩
    -- an entry is of an offer older than the constructed one
    have hlt := h.offer_lt y hy
    rcases hpend with e | e
    · simp [e]
    · rw [e]
      intro e'
      have := Option.some.inj e'
      omega
  owned := by
    intro u p ho
    rw [hheap]
    rcases hown u p ho with ho | ⟨hu, hp, hpend⟩
    · obtain ⟨y, hy, hyid, hyu, hq⟩ := h.owned u p ho
      refine ⟨y, KeySet.mem_insert.mpr (.inl hy), hyid, hyu, fun _ => ?_⟩
      rw [hbook]
      exact hq (by simp)
    -- what is held anew is the constructed offer, which is the pending one
    · have hfresh : ∀ c ∈ s.heap, c.id ≠ x.id := by
        intro c hc
        have := h.offer_lt c hc
        omega
      refine ⟨x, (KeySet.mem_insert_of_fresh hfresh).mpr (.inr rfl), hp.symm, hu.symm, ?_⟩
      intro hne
      exact absurd hpend (hp ▸ hne)
  offer_lt := by
    intro y hy
    rw [hheap] at hy
    rw [hoffer]
    rcases KeySet.mem_insert.mp hy with hy | ⟨rfl, -⟩
    · have := h.offer_lt y hy
      omega
    · omega
  deal_lt := by
    intro u d' hd'
    obtain ⟨d, hd, hc⟩ := hfind u d' hd'
    rw [hc, hdeal]
    exact h.deal_lt u d hd
  user_lt := by
    intro u d' hd'
    obtain ⟨d, hd, -⟩ := hfind u d' hd'
    rw [huser]
    exact h.user_lt u d hd
  uncrossed := by
    have hb := hbook .BUY
    have hc := hbook .SELL
    simp only [Market.book] at hb hc
    rw [hb, hc]
    exact h.uncrossed

/-- A call ends with its offer in a book or no longer its owner's. -/
theorem settled {i : Nat} (h : Inv (some i) s) (hgone : ∀ u, ¬ s.Owns u i) : Inv none s where
  book := by
    intro t
    have hb := h.book t
    exact ⟨hb.noEmpty, fun k p hp => ⟨by simp, (hb.entry k p hp).2⟩, hb.desc⟩
  owned := by
    intro u p ho
    obtain ⟨x, hx, hid, hu, hq⟩ := h.owned u p ho
    refine ⟨x, hx, hid, hu, fun _ => hq ?_⟩
    intro e
    have hip : i = p := Option.some.inj e
    rw [← hip] at ho
    exact hgone u ho
  offer_lt := h.offer_lt
  deal_lt := h.deal_lt
  user_lt := h.user_lt
  uncrossed := h.uncrossed

end Inv

namespace Sim

variable {pending : Option Nat} {s s' : Market} {a : Reference}

theorem empty (i j k : Nat) : Sim none (Market.empty i j k) (Reference.empty i j k) where
  live := by
    intro o
    refine ⟨fun h => absurd h (KeySet.not_mem_empty o), ?_⟩
    intro ⟨x, hx, _⟩
    exact absurd hx (KeySet.not_mem_empty x)
  accounts := fun u => .none
  quote := rfl
  offerId := rfl
  dealId := rfl
  userId := rfl
  trades := rfl

theorem account_none (h : Sim pending s a) {u : Nat} (hu : s.users.find? u = none) :
    a.accounts u = none := by
  have hacc := h.accounts u
  rw [hu] at hacc
  cases hx : a.accounts u with
  | none => rfl
  | some x => rw [hx] at hacc; cases hacc

theorem account_some (h : Sim pending s a) {u : Nat} {d : UserData}
    (hu : s.users.find? u = some d) : ∃ x, a.accounts u = some x ∧ Agrees d x := by
  have hacc := h.accounts u
  rw [hu] at hacc
  cases hx : a.accounts u with
  | none => rw [hx] at hacc; cases hacc
  | some x =>
    rw [hx] at hacc
    cases hacc with
    | some hdx => exact ⟨x, rfl, hdx⟩

/-- The books do not matter to what the market stands for. -/
theorem setBook (h : Sim pending s a) (t : OfferType) (b : Book) :
    Sim pending (s.setBook t b) a where
  live := by
    intro o
    rw [h.live, Market.setBook_heap]
    simp only [Market.owns_congr (Market.setBook_users t b)]
  accounts := by rw [Market.setBook_users]; exact h.accounts
  quote := by rw [Market.setBook_quote]; exact h.quote
  offerId := by rw [Market.setBook_offerId]; exact h.offerId
  dealId := by rw [Market.setBook_dealId]; exact h.dealId
  userId := by rw [Market.setBook_userId]; exact h.userId
  trades := by rw [Market.setBook_trades]; exact h.trades

/-- The posted offer becomes a live one when its call ends with it still its owner's. -/
theorem rest {x : Offer} (h : Sim (some x.id) s a) (hx : x ∈ s.heap)
    (ho : s.Owns x.ownerId x.id) : Sim none s { a with live := a.live.insert x.view } where
  live := by
    intro o
    have hfresh : ∀ c ∈ a.live, c.id ≠ x.view.id := by
      intro c hc e
      obtain ⟨y, -, rfl, -, hne⟩ := (h.live c).mp hc
      exact hne (congrArg some e.symm)
    show o ∈ a.live.insert x.view ↔ _
    rw [KeySet.mem_insert_of_fresh hfresh, h.live]
    refine ⟨?_, ?_⟩
    · intro ho'
      rcases ho' with ⟨y, hy, hv, ho', -⟩ | rfl
      · exact ⟨y, hy, hv, ho', by simp⟩
      · exact ⟨x, hx, rfl, ho, by simp⟩
    -- what is held is the posted offer, or was live while it was posted
    · intro ⟨y, hy, hv, ho', _⟩
      by_cases hyx : y.id = x.id
      · rw [KeySet.key_inj hy hx hyx] at hv
        exact .inr hv.symm
      · exact .inl ⟨y, hy, hv, ho', fun e => hyx (Option.some.inj e).symm⟩
  accounts := h.accounts
  quote := h.quote
  offerId := h.offerId
  dealId := h.dealId
  userId := h.userId
  trades := h.trades

/-- A call may end with its offer no longer its owner's. -/
theorem settled {i : Nat} (h : Sim (some i) s a) (hgone : ∀ u, ¬ s.Owns u i) : Sim none s a where
  live := by
    intro o
    rw [h.live]
    refine ⟨?_, ?_⟩
    · intro ⟨y, hy, hv, ho, _⟩
      exact ⟨y, hy, hv, ho, by simp⟩
    · intro ⟨y, hy, hv, ho, _⟩
      refine ⟨y, hy, hv, ho, fun e => ?_⟩
      rw [← Option.some.inj e] at ho
      exact hgone _ ho
  accounts := h.accounts
  quote := h.quote
  offerId := h.offerId
  dealId := h.dealId
  userId := h.userId
  trades := h.trades

/-- The accounts may change in step with the users' data, when no holding changes. -/
theorem of_users (h : Sim pending s a) {a' : Reference} (hheap : s'.heap = s.heap)
    (hown : ∀ u p, s'.Owns u p ↔ s.Owns u p) (hlive : a'.live = a.live)
    (haccounts : ∀ u, Option.Rel Agrees (s'.users.find? u) (a'.accounts u))
    (hquote : s'.quote = a'.quote) (hoffer : s'.offerId = a'.offerId)
    (hdeal : s'.dealId = a'.dealId) (huser : s'.userId = a'.userId)
    (htrades : s'.trades.map Trade.view = a'.trades) : Sim pending s' a' where
  live := by
    intro o
    rw [hlive, h.live, hheap]
    simp only [hown]
  accounts := haccounts
  quote := hquote
  offerId := hoffer
  dealId := hdeal
  userId := huser
  trades := htrades

end Sim

end ForexMarket
