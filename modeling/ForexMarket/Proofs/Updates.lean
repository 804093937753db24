import ForexMarket.Model.Updates
import ForexMarket.Proofs.Correspondence
import ForexMarket.Spec.Bounds

/- The calls of `RegisterDeal` in a run without deposits. Each is made on a market that
   holds the wraps of what the deals before it come to (`Booked`), so all of them store
   exact integers exactly when the deals fit one after the other (`Booked.exact_iff`). -/
namespace ForexMarket

open Wrap
open Reference (usdOf rubOf DealFits DealsFit BalancesFit Undeposited)

/-- The stored balances are the wraps of what the deals come to. -/
def Market.Holds (s : Market) (ds : List DealView) : Prop :=
  ∀ u d, s.users.find? u = some d →
    d.balance.usd = wrap32 (usdOf u ds) ∧ d.balance.rub = wrap32 (rubOf u ds)

/-- The calls of `RegisterDeal`, one after the other from the deals `ds` on: each is made on a
market that holds what the deals before come to, and its parties are registered. -/
def Booked : List DealView → List (Market × Deal) → Prop
  | _, [] => True
  | ds, e :: rest =>
    (e.1.Holds ds ∧ (∃ b, e.1.users.find? e.2.buyerId = some b) ∧
      ∃ c, e.1.users.find? e.2.sellerId = some c) ∧ Booked (ds ++ [e.2.view]) rest

/-- The deals registered. -/
def dealsOf (l : List (Market × Deal)) : List DealView := l.map (fun e => e.2.view)

theorem dealsOf_append (l l' : List (Market × Deal)) :
    dealsOf (l ++ l') = dealsOf l ++ dealsOf l' := List.map_append

theorem Booked.append {ds : List DealView} {l l' : List (Market × Deal)} (h : Booked ds l)
    (h' : Booked (ds ++ dealsOf l) l') : Booked ds (l ++ l') := by
  induction l generalizing ds with
  | nil => simpa [dealsOf] using h'
  | cons e l ih =>
    refine ⟨h.1, ih h.2 ?_⟩
    rw [List.append_assoc]
    exact h'

/-! One call of `RegisterDeal`. -/

section Exact

variable {s : Market} {deal : Deal} {ds : List DealView}

/-- A balance that fits, plus a word, narrowed. -/
theorem narrow_add_eq_iff {x y : Int} {u : UInt64} (hx : Fits32 x) (hu : Denotes u y) :
    narrow (UInt64.ofInt x + u) = x + y ↔ Fits32 (x + y) := by
  have hadd := narrow_add x hu
  rw [wrap32_eq_self_iff.mpr hx] at hadd
  rw [hadd, wrap32_eq_self_iff]

theorem narrow_sub_eq_iff {x y : Int} {u : UInt64} (hx : Fits32 x) (hu : Denotes u y) :
    narrow (UInt64.ofInt x - u) = x - y ↔ Fits32 (x - y) := by
  have hsub := narrow_sub x hu
  rw [wrap32_eq_self_iff.mpr hx] at hsub
  rw [hsub, wrap32_eq_self_iff]

/-- The buyer's updates of a deal are exact when their results fit. -/
theorem buyer_exact_iff {b : UserData} {x y : Int} (hx : b.balance.usd = x)
    (hy : b.balance.rub = y) (hfx : Fits32 x) (hfy : Fits32 y) (deal : Deal) :
    ((b.depositUSD deal.amount).balance.usd = b.balance.usd + deal.amount.toNat ∧
      ((b.depositUSD deal.amount).withdrawRUB
        (deal.amount * UInt64.ofInt deal.price)).balance.rub =
        (b.depositUSD deal.amount).balance.rub - deal.amount.toNat * deal.price) ↔
      Fits32 (x + deal.amount.toNat) ∧ Fits32 (y - deal.amount.toNat * deal.price) := by
  have ha := denotes_toNat deal.amount
  have hcost := ha.mul (denotes_ofInt deal.price)
  simp only [UserData.depositUSD, UserData.withdrawRUB, UserData.setUsd, UserData.setRub, hx, hy,
    narrow_add_eq_iff hfx ha, narrow_sub_eq_iff hfy hcost]

/-- So are the seller's. -/
theorem seller_exact_iff {c : UserData} {x y : Int} (hx : c.balance.usd = x)
    (hy : c.balance.rub = y) (hfx : Fits32 x) (hfy : Fits32 y) (deal : Deal) :
    ((c.withdrawUSD deal.amount).balance.usd = c.balance.usd - deal.amount.toNat ∧
      ((c.withdrawUSD deal.amount).depositRUB
        (deal.amount * UInt64.ofInt deal.price)).balance.rub =
        (c.withdrawUSD deal.amount).balance.rub + deal.amount.toNat * deal.price) ↔
      Fits32 (x - deal.amount.toNat) ∧ Fits32 (y + deal.amount.toNat * deal.price) := by
  have ha := denotes_toNat deal.amount
  have hcost := ha.mul (denotes_ofInt deal.price)
  simp only [UserData.withdrawUSD, UserData.depositRUB, UserData.setUsd, UserData.setRub, hx, hy,
    narrow_sub_eq_iff hfx ha, narrow_add_eq_iff hfy hcost]

/-- On balances that fit, the four updates are exact when the deal fits. -/
theorem exactUpdates_iff (h : s.Holds ds) (hb : ∃ b, s.users.find? deal.buyerId = some b)
    (hc : ∃ c, s.users.find? deal.sellerId = some c) (hfit : BalancesFit ds) :
    s.ExactUpdates deal ↔ DealFits ds deal.view := by
  obtain ⟨b, hb⟩ := hb
  obtain ⟨c, hc⟩ := hc
  have hexact : ∀ u d, s.users.find? u = some d →
      d.balance.usd = usdOf u ds ∧ d.balance.rub = rubOf u ds := by
    intro u d hd
    obtain ⟨husd, hrub⟩ := h u d hd
    exact ⟨husd.trans (wrap32_eq_self_iff.mpr (hfit u).1),
      hrub.trans (wrap32_eq_self_iff.mpr (hfit u).2)⟩
  obtain ⟨hbusd, hbrub⟩ := hexact _ b hb
  obtain ⟨hcusd, hcrub⟩ := hexact _ c hc
  obtain ⟨hfbu, hfbr⟩ := hfit deal.buyerId
  obtain ⟨hfcu, hfcr⟩ := hfit deal.sellerId
  have hbuyer := buyer_exact_iff hbusd hbrub hfbu hfbr deal
  simp only [Market.ExactUpdates, hb, hc, Option.mem_some_iff, forall_eq', DealFits, Deal.view]
  by_cases hself : deal.sellerId = deal.buyerId
  · simp only [if_pos hself]
    constructor
    · rintro ⟨hu, hr, -⟩
      obtain ⟨hfu, hfr⟩ := hbuyer.mp ⟨hu, hr⟩
      exact ⟨hfu, hfr, fun hne => absurd hself hne⟩
    · rintro ⟨hfu, hfr, -⟩
      obtain ⟨hu, hr⟩ := hbuyer.mpr ⟨hfu, hfr⟩
      -- the seller's updates start from what the buyer's have stored, and lead back
      have hu' : ((b.depositUSD deal.amount).withdrawRUB
          (deal.amount * UInt64.ofInt deal.price)).balance.usd =
          usdOf deal.buyerId ds + deal.amount.toNat := by
        rw [← hbusd, ← hu]
        rfl
      have hr' : ((b.depositUSD deal.amount).withdrawRUB
          (deal.amount * UInt64.ofInt deal.price)).balance.rub =
          rubOf deal.buyerId ds - deal.amount.toNat * deal.price := by
        rw [hr, ← hbrub]
        rfl
      have hseller := seller_exact_iff hu' hr' hfu hfr deal
      rw [add_sub_cancel_right, sub_add_cancel] at hseller
      exact ⟨hu, hr, hseller.mpr ⟨hfbu, hfbr⟩⟩
  · have hseller := seller_exact_iff hcusd hcrub hfcu hfcr deal
    simp only [if_neg hself]
    rw [← and_assoc, hbuyer, hseller, and_assoc]
    exact and_congr_right fun _ => and_congr_right fun _ => (imp_iff_right hself).symm

/-- All updates of a list of calls are exact when its deals fit, by induction on the list: up to
the first deal that does not fit the stored balances are exact. -/
theorem Booked.exact_iff {l : List (Market × Deal)} (h : Booked ds l) (hfit : BalancesFit ds) :
    (∀ e ∈ l, e.1.ExactUpdates e.2) ↔ DealsFit ds (dealsOf l) := by
  induction l generalizing ds with
  | nil => simp [dealsOf, DealsFit]
  | cons e l ih =>
    obtain ⟨⟨hholds, hb, hc⟩, hrest⟩ := h
    rw [List.forall_mem_cons, exactUpdates_iff hholds hb hc hfit]
    show _ ↔ DealFits ds e.2.view ∧ DealsFit (ds ++ [e.2.view]) (dealsOf l)
    exact and_congr_right fun hd => ih hrest (hfit.concat hd)

end Exact

/-! The calls of `RegisterDeal` in a post. -/

section Loop

variable {s s' : Market} {a : Reference} {this other : Offer}

theorem Sim.holds {pending : Option Nat} (hs : Sim pending s a) (h : a.Undeposited) :
    s.Holds a.dealList := by
  intro u d hd
  obtain ⟨x, hx, hag⟩ := hs.account_some hd
  obtain ⟨husd, hrub⟩ := h u x hx
  rw [hag.usd, hag.rub, husd, hrub]
  exact ⟨rfl, rfl⟩

/-- The call of a pass that meets a live entry. -/
theorem passRegisters_live {q : OfferQueue} (hthis : this ∈ s.heap)
    (hguard : ((s.book this.type.opposite).isEmpty ||
      !Market.borderPricePredicate this.type (s.book this.type.opposite) this.price) = false)
    (hbest : Market.getBestOffers this.type (s.book this.type.opposite) = some q)
    (hback : q.back? = some other.id) (hother : other ∈ s.heap)
    (ht : other.type = this.type.opposite) (hlive : s.Owns other.ownerId other.id) :
    Market.passRegisters (Market.borderPricePredicate this.type) (Market.getBestOffers this.type)
      this.id s = [(s.made this other, dealBetween s.dealId this other)] := by
  simp only [Market.passRegisters, KeySet.find?_of_mem hthis, hguard, hbest, Option.bind_some,
    hback, (Market.lock_of_owns [this.id] hother hlive).2, Market.makeDeal_made ht,
    Bool.false_eq_true, if_false]

/-- Each party of the deal of a live entry is registered, and the market it is made on holds what
the deals before come to. -/
theorem booked_live (h : Posting this s a) (hacc : a.Undeposited)
    (hlive : s.Owns other.ownerId other.id) :
    (s.made this other).Holds a.dealList ∧
      (∃ b, (s.made this other).users.find? (dealBetween s.dealId this other).buyerId = some b) ∧
      ∃ c, (s.made this other).users.find? (dealBetween s.dealId this other).sellerId = some c := by
  obtain ⟨d, hd, -⟩ := id h.owned
  obtain ⟨e, he, -⟩ := id hlive
  have hparty : ∀ u, u = this.ownerId ∨ u = other.ownerId →
      ∃ b, (s.made this other).users.find? u = some b := by
    rintro u (rfl | rfl)
    · exact ⟨d, hd⟩
    · exact ⟨e, he⟩
  have hholds : (s.made this other).Holds a.dealList := h.sim.holds hacc
  refine ⟨hholds, hparty _ ?_, hparty _ ?_⟩
  · simp only [dealBetween]
    split <;> simp
  · simp only [dealBetween]
    split <;> simp

/-- The loop makes no more calls once the posted offer is filled. -/
theorem loopRegisters_filled (hfind : s.heap.find? this.id = some other)
    (hfull : other.status = .FULLFILLED) (border : Book → Int → Bool)
    (best : Book → Option OfferQueue) (fuel : Nat) :
    Market.loopRegisters border best this.id fuel s = [] := by
  cases fuel with
  | zero => rfl
  | succ fuel =>
    simp only [Market.loopRegisters, hfind, Option.any_some, hfull, decide_true, if_true]

/-- The loop of a posted offer registers the deals of the reference, in order. -/
theorem loopRegisters_spec (fuel : Nat) : ∀ {s : Market} {a : Reference} {this : Offer},
    Posting this s a → a.Undeposited → Market.entries (s.book this.type.opposite) < fuel →
    Booked a.dealList (Market.loopRegisters (Market.borderPricePredicate this.type)
      (Market.getBestOffers this.type) this.id fuel s) ∧
    (a.matchOffer this.view).dealList = a.dealList ++
      dealsOf (Market.loopRegisters (Market.borderPricePredicate this.type)
        (Market.getBestOffers this.type) this.id fuel s) := by
  induction fuel with
  | zero => intro s a this _ _ hfuel; omega
  | succ fuel ih =>
    intro s a this h hacc hfuel
    have hfind : s.heap.find? this.id = some this := KeySet.find?_of_mem h.mem
    obtain ⟨d, hreg, -⟩ := id h.owned
    have hnot : ¬ this.status = .FULLFILLED := by rw [h.active]; decide
    simp only [Market.loopRegisters, hfind, Option.any_some, decide_eq_true_eq, if_neg hnot]
    cases meets h.inv h.sim with
    | nothing hguard hlevels =>
      have hpass := processPass_nothing h.mem hguard
      have hnone : Market.passRegisters (Market.borderPricePredicate this.type)
          (Market.getBestOffers this.type) this.id s = [] := by
        simp only [Market.passRegisters, hfind, hguard, if_true]
      rw [hpass, hnone,
        Reference.matchOffer_of_none (best?_eq_none_of_levels h.inv h.sim hlevels)]
      exact ⟨trivial, (List.append_nil _).symm⟩
    | dead q p hguard hq hbest hp hdead hexp =>
      -- a dead entry goes, and no deal is made
      have hpass := processPass_dead h.mem hguard hbest hp hexp
      have hnone : Market.passRegisters (Market.borderPricePredicate this.type)
          (Market.getBestOffers this.type) this.id s = [] := by
        simp only [Market.passRegisters, hfind, hguard, hbest, Option.bind_some, hp, Market.lock,
          hexp, Bool.false_eq_true, if_false, if_true]
      rw [hpass, hnone, List.nil_append]
      apply ih (h.purge hq hp hdead) hacc
      have hdrop := Book.entries_dropBack hq ((h.inv.book this.type.opposite).noEmpty q hq)
      rw [Market.book_setBook, if_pos rfl]
      omega
    | live q other hguard hq hbest hp hother hne ht hprice hact hlive htaken =>
      obtain ⟨s', hpass, hd⟩ := processPass_deal h.mem ⟨d, hreg⟩ hguard hbest hp hprice hother hact
        ht hlive
      have hqueue : ((s.book this.type.opposite).queue other.price).getLast? = some other.id := by
        rw [hprice, Book.queue_of_mem hq]
        exact hp
      have hview : (dealBetween s.dealId this other).view = a.dealOf this.view other.view :=
        Sim.view_dealBetween h.sim.dealId this other
      have hfirst := booked_live h hacc hlive
      have hlist := Reference.dealList_trade a this.view other.view
      rw [hpass, passRegisters_live h.mem hguard hbest hp hother ht hlive,
        Reference.matchOffer_of_some htaken, remainder_view]
      by_cases hleft : (this.reduce (tradedAmount this other)).amount = 0
      · -- the posted offer is filled, and the loop ends
        have hfind' : s'.heap.find? this.id = some (this.reduce (tradedAmount this other)) :=
          KeySet.find?_of_mem ((hd.mem_heap h.mem hother hne).mpr (.inl rfl))
        have hend := loopRegisters_filled hfind' ((Offer.reduce_status h.active).mpr hleft)
          (Market.borderPricePredicate this.type) (Market.getBestOffers this.type) fuel
        rw [if_pos (by simp [Offer.view, hleft])]
        simp only [hend, List.append_nil]
        refine ⟨⟨hfirst, trivial⟩, ?_⟩
        rw [hlist, ← hview]
        rfl
      · have hviewleft : (this.reduce (tradedAmount this other)).view.amount ≠ 0 :=
          fun e => hleft (UInt64.toNat_inj.mp e)
        have hfewer := h.entries_lt hd hq hprice hleft
        have hrest := ih (h.deal hd hother hne hlive hqueue hleft) (hacc.trade _ _)
          (show Market.entries (s'.book this.type.opposite) < fuel by omega)
        rw [hlist, ← hview, List.append_assoc] at hrest
        rw [if_neg hviewleft]
        exact ⟨⟨hfirst, hrest.1⟩, hrest.2⟩

end Loop

/-! The calls of `RegisterDeal` in a run. -/

section Run

variable {s : Market} {a : Reference}

/-- A call that posts nothing makes no deal. -/
theorem dealList_of_quiet (a : Reference) {op : Op} (hop : Reference.isPost op = false) :
    (a.step op).2.dealList = a.dealList := by
  have hm := a.step_moves op
  generalize (a.step op).1 = r at hm
  generalize (a.step op).2 = a' at hm ⊢
  cases hm with
  | lost type price amount hx => cases hop
  | post type price amount hx hm => cases hop
  | _ => rfl

/-- A call of the interface registers the deals the reference makes. -/
theorem registers_spec (h : Stands s a) (hacc : a.Undeposited) (op : Op) :
    Booked a.dealList (s.registers op) ∧
      (a.step op).2.dealList = a.dealList ++ dealsOf (s.registers op) := by
  cases op with
  | postOffer u type price amount =>
    cases hd : s.users.find? u with
    | none =>
      have hx := h.sim.account_none hd
      simp only [Market.registers, addOffer_unregistered hd, Reference.step, hx]
      exact ⟨trivial, (List.append_nil _).symm⟩
    | some d =>
      obtain ⟨x, hx, -⟩ := h.sim.account_some hd
      obtain ⟨s₁, hat, hstart⟩ := postOffer_start h.inv h.sim ⟨d, hd⟩ type price amount
      have hfuel : Market.entries (s₁.book type.opposite) <
          Market.entries s₁.activeBuyOffers + Market.entries s₁.activeSellOffers + 1 := by
        cases type <;> simp only [OfferType.opposite, Market.book] <;> omega
      have hview : (Offer.make s.offerId u type price amount).view =
          { id := a.offerId, ownerId := u, type := type, price := price,
            amount := amount.toNat } := by
        simp only [Offer.make, Offer.view, h.sim.offerId]
      have hloop := loopRegisters_spec _ hstart hacc hfuel
      rw [hview] at hloop
      simp only [Market.registers, hat, Reference.step, hx]
      exact hloop
  | _ => exact ⟨trivial, (dealList_of_quiet a rfl).trans (List.append_nil _).symm⟩

/-- So does a run without deposits, by induction on the calls. -/
theorem allRegisters_spec (h : Stands s a) (hacc : a.Undeposited) {ops : List Op}
    (hops : ops.all Op.served = true) :
    Booked a.dealList (s.allRegisters ops) ∧
      (Machine.exec Reference.step a ops).dealList =
        a.dealList ++ dealsOf (s.allRegisters ops) := by
  induction ops generalizing s a with
  | nil => exact ⟨trivial, (List.append_nil _).symm⟩
  | cons op ops ih =>
    obtain ⟨hop, hops⟩ := List.all_cons.symm ▸ hops |> Bool.and_eq_true_iff.mp
    obtain ⟨hbooked, hlist⟩ := registers_spec h hacc op
    obtain ⟨hrest, hend⟩ := ih (h.step op) (hacc.move h.wf (a.step_moves op) hop) hops
    rw [hlist] at hrest hend
    refine ⟨hbooked.append hrest, ?_⟩
    show (Machine.exec Reference.step (a.step op).2 ops).dealList = _
    rw [hend, List.append_assoc, ← dealsOf_append]
    rfl

end Run

end ForexMarket
