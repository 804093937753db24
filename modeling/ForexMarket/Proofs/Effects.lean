import ForexMarket.Model.System

/- What the member functions of the market do, as facts about lookups: which offers a
   user holds (`Owns`), what a user's data becomes, which levels and entries a book
   has. Later modules use these and open no member function again. -/
namespace ForexMarket

open Wrap

/-! A deal, for the data of one user. -/

namespace UserData

/-- What `RegisterDeal` makes of the data of one user: the updates of a buyer, those of a
seller, and the deal for either. -/
def afterDeal (d : UserData) (deal : Deal) : UserData :=
  let cost := deal.amount * UInt64.ofInt deal.price
  let bought := if d.id = deal.buyerId then (d.depositUSD deal.amount).withdrawRUB cost else d
  let sold :=
    if d.id = deal.sellerId then (bought.withdrawUSD deal.amount).depositRUB cost else bought
  let first := if d.id = deal.buyerId then sold.addDeal deal else sold
  if d.id = deal.sellerId then first.addDeal deal else first

@[simp] theorem depositUSD_activeOffers (d : UserData) (x : UInt64) :
    (d.depositUSD x).activeOffers = d.activeOffers := by rw [depositUSD, setUsd]
@[simp] theorem withdrawUSD_activeOffers (d : UserData) (x : UInt64) :
    (d.withdrawUSD x).activeOffers = d.activeOffers := by rw [withdrawUSD, setUsd]
@[simp] theorem depositRUB_activeOffers (d : UserData) (x : UInt64) :
    (d.depositRUB x).activeOffers = d.activeOffers := by rw [depositRUB, setRub]
@[simp] theorem withdrawRUB_activeOffers (d : UserData) (x : UInt64) :
    (d.withdrawRUB x).activeOffers = d.activeOffers := by rw [withdrawRUB, setRub]

@[simp] theorem afterDeal_activeOffers (d : UserData) (deal : Deal) :
    (d.afterDeal deal).activeOffers = d.activeOffers := by
  simp only [afterDeal]
  split_ifs <;> simp [addDeal]

/-- The data of a user who no longer holds the offer. -/
def dropOffer (d : UserData) (p : Nat) : UserData :=
  { d with activeOffers := d.activeOffers.erase p }

/-- The deal joins the closed deals of a party, once when the user is both parties. -/
theorem afterDeal_closedDeals (d : UserData) (deal : Deal) :
    (d.afterDeal deal).closedDeals =
      if d.id = deal.buyerId ∨ d.id = deal.sellerId then d.closedDeals.insert deal
      else d.closedDeals := by
  have twice : (d.closedDeals.insert deal).insert deal = d.closedDeals.insert deal := by
    apply KeySet.insert_of_contains
    by_cases h : ∃ c ∈ d.closedDeals, c.id = deal.id
    · obtain ⟨c, hc, hk⟩ := h
      exact ⟨c, KeySet.mem_insert.mpr (.inl hc), hk⟩
    · exact ⟨deal, KeySet.mem_insert.mpr (.inr ⟨rfl, fun c hc e => h ⟨c, hc, e⟩⟩), rfl⟩
  simp only [afterDeal]
  split_ifs <;>
    simp_all [addDeal, depositUSD, withdrawRUB, withdrawUSD, depositRUB, setUsd, setRub]

/-- A buyer's USD grow by the amount, a seller's shrink by it. -/
theorem afterDeal_usd (d : UserData) (deal : Deal) {x : Int} (h : d.balance.usd = wrap32 x) :
    (d.afterDeal deal).balance.usd =
      wrap32 (x + (if d.id = deal.buyerId then (deal.amount.toNat : Int) else 0)
        - (if d.id = deal.sellerId then (deal.amount.toNat : Int) else 0)) := by
  have ha := denotes_toNat deal.amount
  have hadd := narrow_add x ha
  have hsub := narrow_sub x ha
  have hboth := narrow_sub (x + deal.amount.toNat) ha
  simp only [afterDeal]
  split_ifs <;>
    simp_all [addDeal, depositUSD, withdrawRUB, withdrawUSD, depositRUB, setUsd, setRub]

/-- A buyer's RUB shrink by amount times price, a seller's grow by it. -/
theorem afterDeal_rub (d : UserData) (deal : Deal) {x : Int} (h : d.balance.rub = wrap32 x) :
    (d.afterDeal deal).balance.rub =
      wrap32 (x - (if d.id = deal.buyerId then deal.amount.toNat * deal.price else 0)
        + (if d.id = deal.sellerId then deal.amount.toNat * deal.price else 0)) := by
  have hc := (denotes_toNat deal.amount).mul (denotes_ofInt deal.price)
  have hadd := narrow_add x hc
  have hsub := narrow_sub x hc
  have hboth := narrow_add (x - deal.amount.toNat * deal.price) hc
  simp only [afterDeal]
  split_ifs <;>
    simp_all [addDeal, depositUSD, withdrawRUB, withdrawUSD, depositRUB, setUsd, setRub]

end UserData

namespace Market

variable {s : Market}

/-! Books. -/

@[simp] theorem book_setBook (s : Market) (t t' : OfferType) (b : Book) :
    (s.setBook t b).book t' = if t' = t then b else s.book t' := by
  cases t <;> cases t' <;> rfl

@[simp] theorem setBook_setBook (s : Market) (t : OfferType) (b c : Book) :
    (s.setBook t b).setBook t c = s.setBook t c := by
  cases t <;> rfl

@[simp] theorem setBook_book (s : Market) (t : OfferType) : s.setBook t (s.book t) = s := by
  cases t <;> rfl

@[simp] theorem setBook_users (t : OfferType) (b : Book) : (s.setBook t b).users = s.users := by
  cases t <;> rfl
@[simp] theorem setBook_heap (t : OfferType) (b : Book) : (s.setBook t b).heap = s.heap := by
  cases t <;> rfl
@[simp] theorem setBook_quote (t : OfferType) (b : Book) : (s.setBook t b).quote = s.quote := by
  cases t <;> rfl
@[simp] theorem setBook_offerId (t : OfferType) (b : Book) :
    (s.setBook t b).offerId = s.offerId := by cases t <;> rfl
@[simp] theorem setBook_dealId (t : OfferType) (b : Book) :
    (s.setBook t b).dealId = s.dealId := by cases t <;> rfl
@[simp] theorem setBook_userId (t : OfferType) (b : Book) :
    (s.setBook t b).userId = s.userId := by cases t <;> rfl
@[simp] theorem setBook_trades (t : OfferType) (b : Book) :
    (s.setBook t b).trades = s.trades := by cases t <;> rfl

/-! Which offers a user holds. -/

/-- The offer is in the `active_offers_` of the user. -/
def Owns (s : Market) (u p : Nat) : Prop := ∃ d, s.users.find? u = some d ∧ p ∈ d.activeOffers

theorem owned_iff {p : Nat} : s.owned p = true ↔ ∃ u, s.Owns u p := by
  simp only [owned, List.any_eq_true, KeySet.contains_iff]
  refine ⟨?_, ?_⟩
  · intro ⟨d, hd, q, hq, he⟩
    have he : q = p := he
    exact ⟨d.id, d, KeySet.find?_of_mem hd, he ▸ hq⟩
  · intro ⟨u, d, hd, hp⟩
    exact ⟨d, (KeySet.find?_eq_some.mp hd).1, p, hp, rfl⟩

theorem owns_congr {s s' : Market} (h : s'.users = s.users) (u p : Nat) :
    s'.Owns u p ↔ s.Owns u p := by
  simp only [Owns, h]

/-- Rewriting a user's data without touching the active offers changes no holding. -/
theorem owns_modify {s s' : Market} {v : Nat} {f : UserData → UserData}
    (hf : ∀ d, (f d).id = d.id) (hs : s'.users = s.users.modify v f hf)
    (ha : ∀ d, (f d).activeOffers = d.activeOffers) (u p : Nat) : s'.Owns u p ↔ s.Owns u p := by
  simp only [Owns, hs, KeySet.find?_modify]
  by_cases h : u = v
  · cases s.users.find? u <;> simp [h, ha]
  · simp [h]

theorem atUser_eq {s s' : Market} {v : Nat} {f : UserData → UserData} {hf}
    (h : s.atUser v f hf = some s') : s' = { s with users := s.users.modify v f hf } := by
  unfold atUser at h
  split at h
  · cases h
  · exact (Option.some.inj h).symm

/-- `AddOffer` makes its user hold the offer. -/
theorem owns_addOffer {s s' : Market} {v i : Nat} {hf}
    (h : s.atUser v (·.addOffer i) hf = some s') (u p : Nat) :
    s'.Owns u p ↔ s.Owns u p ∨ (u = v ∧ p = i) := by
  have hv : s.users.find? v ≠ none := fun e => by simp [atUser, e] at h
  rw [atUser_eq h]
  simp only [Owns, KeySet.find?_modify]
  by_cases hu : u = v
  · subst hu
    cases hd : s.users.find? u with
    | none => exact absurd hd hv
    | some d =>
      simp only [if_true, Option.map_some, Option.some.injEq, exists_eq_left', true_and,
        UserData.addOffer]
      rw [KeySet.mem_insert]
      refine ⟨fun hm => hm.imp_right And.left, ?_⟩
      intro hm
      by_cases hp : p ∈ d.activeOffers
      · exact .inl hp
      · have hpi : p = i := hm.resolve_left hp
        exact .inr ⟨hpi, fun c hc e => hp (by rw [hpi, ← show c = i from e]; exact hc)⟩
  · simp [hu]

/-- A registered deal changes the data of each user by `afterDeal`, and nothing else. -/
theorem find?_settle (users : KeySet UserData UserData.id) (deal : Deal) (u : Nat) :
    (settle users deal).find? u = (users.find? u).map (·.afterDeal deal) := by
  simp only [settle, KeySet.find?_modify]
  cases h : users.find? u with
  | none => simp
  | some d =>
    have hd : d.id = u := (KeySet.find?_eq_some.mp h).2
    subst hd
    simp only [Option.map_some, UserData.afterDeal]
    by_cases hb : d.id = deal.buyerId <;> by_cases hs : d.id = deal.sellerId
    · simp only [if_pos hb, if_pos hs, Option.map_some]
    · simp only [if_pos hb, if_neg hs, Option.map_some]
    · simp only [if_neg hb, if_pos hs, Option.map_some]
    · simp only [if_neg hb, if_neg hs]

theorem registerDeal_eq {deal : Deal} (hb : ∃ d, s.users.find? deal.buyerId = some d)
    (hs : ∃ d, s.users.find? deal.sellerId = some d) :
    s.registerDeal deal = some { s with users := settle s.users deal } := by
  obtain ⟨b, hb⟩ := hb
  obtain ⟨c, hs⟩ := hs
  simp [registerDeal, hb, hs]

/-- `s'` is `s` with the offer no longer among the active offers of the user. -/
structure Released (s s' : Market) (v i : Nat) : Prop where
  book : ∀ t, s'.book t = s.book t
  heap : s'.heap = s.heap
  quote : s'.quote = s.quote
  offerId : s'.offerId = s.offerId
  dealId : s'.dealId = s.dealId
  userId : s'.userId = s.userId
  trades : s'.trades = s.trades
  find? : ∀ u, s'.users.find? u = (s.users.find? u).map fun d =>
    if u = v then d.dropOffer i else d

theorem Released.owns_iff {s s' : Market} {v i : Nat} (h : Released s s' v i) (u p : Nat) :
    s'.Owns u p ↔ s.Owns u p ∧ ¬ (u = v ∧ p = i) := by
  simp only [Owns, h.find?]
  cases s.users.find? u with
  | none => simp
  | some d =>
    by_cases hu : u = v
    · simp [hu, UserData.dropOffer, KeySet.mem_erase]
    · simp [hu]

/-- `RemoveActiveOffer` answers whether its user held the offer, and releases it. -/
theorem removeActiveOffer_spec {v : Nat} {d : UserData} (hd : s.users.find? v = some d)
    (i : Nat) :
    ∃ s', s.removeActiveOffer v i = some (d.activeOffers.contains i, s') ∧ Released s s' v i := by
  refine ⟨{ s with users := s.users.modify v (fun d => (d.removeActiveOffer i).2)
                      (fun d => d.removeActiveOffer_id i) }, ?_, ?_⟩
  · simp only [removeActiveOffer, hd, UserData.removeActiveOffer_eq]
  · refine ⟨fun t => by cases t <;> rfl, rfl, rfl, rfl, rfl, rfl, rfl, ?_⟩
    intro u
    simp only [KeySet.find?_modify, UserData.removeActiveOffer_eq]
    by_cases hu : u = v
    · simp [hu, UserData.dropOffer]
    · simp [hu]

end Market

end ForexMarket
