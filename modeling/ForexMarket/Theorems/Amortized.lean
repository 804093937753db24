import ForexMarket.Model.Passes
import ForexMarket.Proofs.Correspondence

/- What the loops cost over a run. One post or one query may find any number of dead entries,
   but an entry is made by one post and goes once. So over a run the bodies of all loops are
   passed through a number of times that only the number of posts and queries bounds, however
   many offers are cancelled (`passes_amortized`). -/
namespace ForexMarket

/-- What a call is allowed: a pass for the entry that comes and for the one that goes, and one to
end each loop. -/
def Op.allowance : Op → Nat
  | .postOffer .. => 3
  | .getAskBidQuotes => 4
  | _ => 0

namespace Market

/-- The number of entries of both books. -/
def size (s : Market) : Nat := entries s.activeBuyOffers + entries s.activeSellOffers

variable {s s' : Market}

theorem size_eq (s : Market) (t : OfferType) :
    s.size = entries (s.book t) + entries (s.book t.opposite) := by
  cases t with
  | BUY => rfl
  | SELL => exact Nat.add_comm _ _

theorem size_setBook (s : Market) (t : OfferType) (b : Book) :
    (s.setBook t b).size + entries (s.book t) = s.size + entries b := by
  have hother : (s.setBook t b).book t.opposite = s.book t.opposite := by cases t <;> rfl
  rw [size_eq _ t, size_eq s t, hother, book_setBook, if_pos rfl]
  omega

end Market

/-- A new offer is one entry more. -/
theorem Book.entries_add (b : Book) (price : Int) (offer : Nat) :
    Market.entries (b.add price offer) = Market.entries b + 1 := by
  unfold Book.add
  split
  · next hfind =>
    have hfresh : ∀ q ∈ b, q.price ≠ price := KeySet.find?_eq_none.mp hfind
    have hperm := (KeySet.perm_insert (a := ({ price := price, offers := [offer] } : OfferQueue))
      hfresh).map fun q : OfferQueue => q.offers.length
    rw [Market.entries, hperm.sum_nat]
    simp [Market.entries, Nat.add_comm]
  · next q hfind =>
    obtain ⟨hq, rfl⟩ := KeySet.find?_eq_some.mp hfind
    have hpush : q.pushFront offer ∈
        b.modify q.price (·.pushFront offer) (·.pushFront_price offer) :=
      KeySet.mem_modify.mpr ⟨q, hq, by simp⟩
    have herase : (b.modify q.price (·.pushFront offer) (·.pushFront_price offer)).erase q.price =
        b.erase q.price := KeySet.erase_modify _ _ _ _
    have hafter := Book.entries_erase hpush
    rw [OfferQueue.pushFront_price, herase] at hafter
    rw [hafter, Book.entries_erase hq]
    simp only [OfferQueue.pushFront, List.length_cons]
    omega

variable {s s' : Market} {a : Reference} {this : Offer}

/-! The loop of `ProcessOffer`. -/

/-- A deal adds no entry. -/
theorem Posting.size_le_of_dealt {other : Offer} {q : OfferQueue} (h : Posting this s a)
    (hd : Dealt s s' this other) (hq : q ∈ s.book this.type.opposite)
    (hprice : other.price = q.price) : s'.size ≤ s.size := by
  have hsize := s.size_eq this.type
  have hsize' := s'.size_eq this.type
  have hsame := hd.same
  rcases hd.book_cases this.type.opposite with hbook | ⟨-, -, hbook⟩
  · rw [hsize', hsize, hsame, hbook]
  · have hdrop := Book.entries_dropBack hq ((h.inv.book this.type.opposite).noEmpty q hq)
    rw [hsize', hsize, hsame, hbook, hprice]
    omega

/-- The loop goes no further for an offer that is filled. -/
theorem loopPasses_of_filled (hfind : s.heap.find? this.id = some this)
    (hfull : this.status = .FULLFILLED) (fuel : Nat) :
    Market.loopPasses (Market.borderPricePredicate this.type) (Market.getBestOffers this.type)
        this.id fuel s = 0 ∧
      (Market.processLoop (Market.borderPricePredicate this.type)
        (Market.getBestOffers this.type) this.id fuel s).2 = s := by
  cases fuel with
  | zero => exact ⟨rfl, rfl⟩
  | succ fuel =>
    simp only [Market.loopPasses, Market.processLoop, hfind, Option.any_some, decide_eq_true_eq,
      if_pos hfull]
    exact ⟨trivial, trivial⟩

/-- A pass that pops an entry pays for itself, and the one that ends the loop leaves one entry more
or none. By induction on the fuel. -/
theorem loopPasses_spec (fuel : Nat) : ∀ {s : Market} {a : Reference} {this : Offer},
    Posting this s a →
    Market.loopPasses (Market.borderPricePredicate this.type) (Market.getBestOffers this.type)
        this.id fuel s +
      2 * (Market.processLoop (Market.borderPricePredicate this.type)
        (Market.getBestOffers this.type) this.id fuel s).2.size ≤ 2 * s.size + 3 := by
  induction fuel with
  | zero =>
    intro s a this _
    simp only [Market.loopPasses, Market.processLoop]
    omega
  | succ fuel ih =>
    intro s a this h
    have hfind : s.heap.find? this.id = some this := KeySet.find?_of_mem h.mem
    have hreg : ∃ d, s.users.find? this.ownerId = some d := by
      obtain ⟨d, hd, -⟩ := h.owned
      exact ⟨d, hd⟩
    have hnot : ¬ this.status = .FULLFILLED := by rw [h.active]; decide
    simp only [Market.loopPasses, Market.processLoop, hfind, Option.any_some, decide_eq_true_eq,
      if_neg hnot]
    rcases processPass_cases h.inv h.sim h.mem hreg with
      ⟨hpass, -⟩ | ⟨q, hq, p, hp, hdead, hpass⟩ |
      ⟨q, hq, other, s', hpass, hd, hother, hne, hlive, hprice, hback, -⟩
    · -- the offer rests
      have hsize := s.size_setBook this.type
        ((s.book this.type).add this.price this.id)
      rw [Book.entries_add] at hsize
      simp only [hpass, Market.addActiveOffer]
      omega
    · -- a dead entry goes
      have hdrop := Book.entries_dropBack hq ((h.inv.book this.type.opposite).noEmpty q hq)
      have hsize := s.size_setBook this.type.opposite
        ((s.book this.type.opposite).dropBack q.price)
      have hrest := ih (h.purge hq hp hdead)
      simp only [hpass]
      omega
    · have hqueue : ((s.book this.type.opposite).queue other.price).getLast? = some other.id := by
        rw [hprice, Book.queue_of_mem hq]
        exact hback
      simp only [hpass]
      by_cases hleft : (this.reduce (tradedAmount this other)).amount = 0
      · -- the offer is filled, and the loop is over
        have hle := h.size_le_of_dealt hd hq hprice
        have hfind' : s'.heap.find? this.id = some (this.reduce (tradedAmount this other)) :=
          KeySet.find?_of_mem ((hd.mem_heap h.mem hother hne).mpr (.inl rfl))
        obtain ⟨hpasses, hend⟩ :=
          loopPasses_of_filled hfind' ((Offer.reduce_status h.active).mpr hleft) fuel
        have hpasses : Market.loopPasses (Market.borderPricePredicate this.type)
            (Market.getBestOffers this.type) this.id fuel s' = 0 := hpasses
        have hend : (Market.processLoop (Market.borderPricePredicate this.type)
            (Market.getBestOffers this.type) this.id fuel s').2 = s' := hend
        rw [hpasses, hend]
        omega
      · -- the resting offer is filled, and its entry goes
        have hsize := s.size_eq this.type
        have hsize' := s'.size_eq this.type
        have hfewer := h.entries_lt hd hq hprice hleft
        have hrest := ih (h.deal hd hother hne hlive hqueue hleft)
        have hrest : Market.loopPasses (Market.borderPricePredicate this.type)
            (Market.getBestOffers this.type) this.id fuel s' +
          2 * (Market.processLoop (Market.borderPricePredicate this.type)
            (Market.getBestOffers this.type) this.id fuel s').2.size ≤ 2 * s'.size + 3 := hrest
        rw [hd.same] at hsize'
        omega

/-! The loops of `DetermineQuote`. -/

/-- Every pass of the inner loop pops an entry, but for the one that finds a quote. -/
theorem innerPasses_spec (t : OfferType) (price : Int) (fuel : Nat) : ∀ s : Market,
    (Market.quoteInner t price fuel s).2.size ≤ s.size ∧
      Market.innerPasses t price fuel s + (Market.quoteInner t price fuel s).2.size ≤ s.size + 1 ∧
      ((Market.quoteInner t price fuel s).1 = .ok none →
        Market.innerPasses t price fuel s + (Market.quoteInner t price fuel s).2.size =
          s.size) := by
  induction fuel with
  | zero =>
    intro s
    simp only [Market.innerPasses, Market.quoteInner]
    exact ⟨le_rfl, by omega, fun h => by cases h⟩
  | succ fuel ih =>
    intro s
    simp only [Market.innerPasses, Market.quoteInner]
    cases hback : ((s.book t).find? price).bind OfferQueue.back? with
    | none =>
      dsimp only
      exact ⟨le_rfl, by omega, fun _ => Nat.zero_add _⟩
    | some p =>
      cases hexp : s.expired [] p with
      | false =>
        simp only [hexp, Bool.false_eq_true, if_false]
        cases s.lock [] p with
        | none =>
          dsimp only
          exact ⟨le_rfl, by omega, fun h => by cases h⟩
        | some o =>
          dsimp only
          exact ⟨le_rfl, by omega, fun h => by cases h⟩
      | true =>
        obtain ⟨q, hfind, hq⟩ := Option.bind_eq_some_iff.mp hback
        obtain ⟨hq', rfl⟩ := KeySet.find?_eq_some.mp hfind
        have hne : q.offers ≠ [] := by
          intro hnil
          rw [OfferQueue.back?, hnil] at hq
          cases hq
        have hdrop : Market.entries (((s.book t).popBack q.price).eraseIfEmpty q.price) + 1 =
            Market.entries (s.book t) := Book.entries_dropBack hq' hne
        have hsize := s.size_setBook t (((s.book t).popBack q.price).eraseIfEmpty q.price)
        obtain ⟨hless, hle, heq⟩ :=
          ih (s.setBook t (((s.book t).popBack q.price).eraseIfEmpty q.price))
        simp only [hexp, if_true]
        refine ⟨by omega, by omega, fun h => ?_⟩
        have hrest := heq h
        omega

/-- A pass of the outer loop that finds no quote has popped a level. -/
theorem outerPasses_spec (t : OfferType) (fuel : Nat) : ∀ {s : Market},
    Inv none s → Sim none s a →
    Market.outerPasses t fuel s + 2 * (Market.quoteOuter t fuel s).2.size ≤ 2 * s.size + 2 := by
  induction fuel with
  | zero =>
    intro s _ _
    simp only [Market.outerPasses, Market.quoteOuter]
    omega
  | succ fuel ih =>
    intro s hi hs
    simp only [Market.outerPasses, Market.quoteOuter]
    cases he : (s.book t).isEmpty with
    | true =>
      simp only [if_true]
      omega
    | false =>
      obtain ⟨q, hq, hlevel, -⟩ := Book.quoteLevel_spec t he
      have hshort : ((s.book t).queue q.price).length < q.offers.length + 1 := by
        rw [Book.queue_of_mem hq]
        omega
      obtain ⟨hless, hle, heq⟩ := innerPasses_spec t q.price (q.offers.length + 1) s
      simp only [hlevel, Bool.false_eq_true, if_false]
      rcases quoteInner_spec t q.price _ hi hs hshort with
        ⟨s', h, -, -, -⟩ | ⟨s', h, hi', hs', hse⟩
      · rw [h] at hless hle
        simp only [h]
        dsimp only at hless hle
        omega
      · rw [h] at heq
        have hpasses := heq rfl
        have hrest := ih hi' hs'
        have hgone : s'.size + q.offers.length = s.size := by
          have hsize := s.size_setBook t ((s.book t).erase q.price)
          have herase := Book.entries_erase hq
          rw [← hse] at hsize
          omega
        have hpos := List.length_pos_of_ne_nil ((hi.book t).noEmpty q hq)
        simp only [h]
        dsimp only at hpasses
        omega

/-! Runs. -/

namespace Market

/-- What only changes users makes no entries. -/
theorem atUser_size {u : Nat} {f : UserData → UserData} {hf : ∀ d, (f d).id = d.id}
    (h : s.atUser u f hf = some s') : s'.size = s.size := by
  rw [atUser_eq h]
  rfl

theorem removeActiveOffer_size {u p : Nat} {b : Bool} (h : s.removeActiveOffer u p = some (b, s')) :
    s'.size = s.size := by
  unfold removeActiveOffer at h
  split at h
  · cases h
  · rw [← (Prod.mk.inj (Option.some.inj h)).2]
    rfl

theorem processOffer_size (border : Book → Int → Bool) (best : Book → Option OfferQueue)
    (offer : Nat) (s : Market) :
    (s.processOffer border best offer).2.size =
      (processLoop border best offer (entries s.activeBuyOffers + entries s.activeSellOffers + 1)
        s).2.size := by
  unfold processOffer
  generalize processLoop border best offer
    (entries s.activeBuyOffers + entries s.activeSellOffers + 1) s = r
  obtain ⟨result, s'⟩ := r
  cases result with
  | error f => rfl
  | ok u =>
    dsimp only
    split
    · rfl
    · split
      · split
        · rfl
        · next hremove => exact removeActiveOffer_size hremove
      · rfl

/-- A post passes at most three times more often than it makes the books shorter, each entry counted
twice. -/
theorem passes_post (h : Stands s a) (u : Nat) (type : OfferType) (price : Int)
    (amount : UInt64) :
    s.passes (.postOffer u type price amount) +
      2 * (s.step (.postOffer u type price amount)).2.size ≤ 2 * s.size + 3 := by
  cases hd : s.users.find? u with
  | none =>
    have hsize : (s.construct (.make s.offerId u type price amount)).size = s.size := rfl
    simp only [passes, step, postOffer, addOffer_unregistered hd, hsize]
    omega
  | some d =>
    obtain ⟨s₁, hat, hstart⟩ := postOffer_start h.inv h.sim ⟨d, hd⟩ type price amount
    have hconstruct : (s.construct (.make s.offerId u type price amount)).size = s.size := rfl
    have hsize : s₁.size = s.size := (atUser_size hat).trans hconstruct
    have hloop := loopPasses_spec (entries s₁.activeBuyOffers + entries s₁.activeSellOffers + 1)
      hstart
    have hprocess := processOffer_size (borderPricePredicate type) (getBestOffers type)
      (Offer.make s.offerId u type price amount).id s₁
    have hstep : (s.step (.postOffer u type price amount)).2 =
        (s₁.processOffer (borderPricePredicate type) (getBestOffers type)
          (Offer.make s.offerId u type price amount).id).2 := by
      simp only [step, postOffer, hat]
      generalize s₁.processOffer (borderPricePredicate type) (getBestOffers type)
        (Offer.make s.offerId u type price amount).id = r
      obtain ⟨result, s'⟩ := r
      cases result with
      | error f => rfl
      | ok done => rfl
    rw [hstep, hprocess, ← hsize]
    simp only [passes, hat]
    exact hloop

theorem passes_quotes (h : Stands s a) :
    s.passes .getAskBidQuotes + 2 * (s.step .getAskBidQuotes).2.size ≤ 2 * s.size + 4 := by
  obtain ⟨s₁, hask, hi₁, hs₁⟩ := determineQuote_spec .BUY h.inv h.sim
  obtain ⟨s₂, hbid, -, -⟩ := determineQuote_spec .SELL hi₁ hs₁
  have hfirst := outerPasses_spec .BUY ((s.book .BUY).elems.length + 1) h.inv h.sim
  have hsecond := outerPasses_spec .SELL ((s₁.book .SELL).elems.length + 1) hi₁ hs₁
  rw [show quoteOuter .BUY _ s = _ from hask] at hfirst
  rw [show quoteOuter .SELL _ s₁ = _ from hbid] at hsecond
  simp only [passes, step, getAskBidQuotes, hask, hbid, quotePasses]
  dsimp only at hfirst hsecond
  omega

/-- Other calls pass no loop and leave the books as they are. -/
theorem passes_step (h : Stands s a) (op : Op) :
    s.passes op + 2 * (s.step op).2.size ≤ 2 * s.size + op.allowance := by
  cases op with
  | postOffer u type price amount => exact passes_post h u type price amount
  | getAskBidQuotes => exact passes_quotes h
  | registerUser username exist => cases exist <;> exact Nat.le_of_eq (Nat.zero_add _)
  | removeOffer u p =>
    simp only [passes, step, Op.allowance]
    cases hremove : s.removeActiveOffer u p with
    | none => exact Nat.le_of_eq (Nat.zero_add _)
    | some r =>
      obtain ⟨b, s'⟩ := r
      rw [removeActiveOffer_size hremove]
      exact Nat.le_of_eq (Nat.zero_add _)
  | depositUSD u amount | depositRUB u amount =>
    simp only [passes, step, writeUser, Op.allowance]
    split
    · exact Nat.le_of_eq (Nat.zero_add _)
    · next hat =>
      rw [atUser_size hat]
      exact Nat.le_of_eq (Nat.zero_add _)
  | _ =>
    simp only [passes, step, readUser_snd, Op.allowance]
    exact Nat.le_of_eq (Nat.zero_add _)

/-- The loops of a run from an empty market are passed through at most three times for each post and
four times for each query of the quotes, less twice the entries that are left. -/
theorem passes_amortized (offerId dealId userId : Nat) (ops : List Op) :
    Machine.total step passes (empty offerId dealId userId) ops +
      2 * ((empty offerId dealId userId).run ops).size ≤ (ops.map Op.allowance).sum := by
  have hrun := Machine.total_add_potential_le (I := fun s => ∃ a, Stands s a)
    (m := fun s => 2 * s.size) (f := passes) (c := Op.allowance)
    (fun _ op ⟨_, h⟩ => ⟨_, h.step op⟩) (fun _ op ⟨_, h⟩ => passes_step h op)
    ⟨_, Stands.empty offerId dealId userId⟩ ops
  have hempty : (empty offerId dealId userId).size = 0 := rfl
  rw [hempty, Nat.mul_zero, Nat.zero_add] at hrun
  exact hrun

end Market

end ForexMarket
