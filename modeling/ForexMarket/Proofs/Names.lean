import ForexMarket.Proofs.Refinement

/- The names of the users. No call takes a user away or gives one another name
   (`Inv.namesKept`): every member function only rewrites the other data of its users, and a
   registration puts a new user under a new id. -/
namespace ForexMarket

/-- Every user of `s` is one of `s'`, under the same name. -/
def Market.NamesKept (s s' : Market) : Prop :=
  ∀ u d, s.users.find? u = some d → ∃ d', s'.users.find? u = some d' ∧ d'.username = d.username

/-- The market a pass leaves. -/
def Market.Pass.market : Market.Pass → Market
  | .stop s | .again s | .fault _ s => s

theorem UserData.afterDeal_username (d : UserData) (deal : Deal) :
    (d.afterDeal deal).username = d.username := by
  simp only [afterDeal, addDeal, depositUSD, withdrawRUB, withdrawUSD, depositRUB, setUsd, setRub]
  split_ifs <;> simp

namespace Market.NamesKept

variable {s s' s'' : Market}

theorem of_users (h : s'.users = s.users) : s.NamesKept s' := by
  intro u d hd
  exact ⟨d, h ▸ hd, rfl⟩

theorem setBook (t : OfferType) (b : Book) : s.NamesKept (s.setBook t b) :=
  of_users (setBook_users t b)

theorem trans (h : s.NamesKept s') (h' : s'.NamesKept s'') : s.NamesKept s'' := by
  intro u d hd
  obtain ⟨d', hd', hname⟩ := h u d hd
  obtain ⟨d'', hd'', hname'⟩ := h' u d' hd'
  exact ⟨d'', hd'', hname'.trans hname⟩

/-- Data that is rewritten with the name left as it is. -/
theorem of_map {f : Nat → UserData → UserData}
    (h : ∀ u, s'.users.find? u = (s.users.find? u).map (f u))
    (hf : ∀ u d, (f u d).username = d.username) : s.NamesKept s' := by
  intro u d hd
  exact ⟨f u d, by rw [h, hd]; rfl, hf u d⟩

theorem modify {v : Nat} {f : UserData → UserData} {hf : ∀ d, (f d).id = d.id}
    (hname : ∀ d, (f d).username = d.username) :
    s.NamesKept { s with users := s.users.modify v f hf } := by
  refine of_map (f := fun u d => if u = v then f d else d) (fun u => ?_) fun u d => ?_
  · rw [KeySet.find?_modify]
    split
    · rfl
    · exact Option.map_id.symm ▸ rfl
  · split
    · exact hname d
    · rfl

theorem atUser {v : Nat} {f : UserData → UserData} {hf : ∀ d, (f d).id = d.id}
    (h : s.atUser v f hf = some s') (hname : ∀ d, (f d).username = d.username) :
    s.NamesKept s' := by
  rw [atUser_eq h]
  exact modify hname

theorem removeActiveOffer {v i : Nat} {b : Bool} (h : s.removeActiveOffer v i = some (b, s')) :
    s.NamesKept s' := by
  unfold Market.removeActiveOffer at h
  split at h
  · cases h
  · rw [← (Prod.mk.inj (Option.some.inj h)).2]
    refine modify fun d => ?_
    rw [UserData.removeActiveOffer_eq]

theorem registerDeal {deal : Deal} (h : s.registerDeal deal = some s') : s.NamesKept s' := by
  unfold Market.registerDeal at h
  split at h
  · rw [← Option.some.inj h]
    exact of_map (find?_settle s.users deal) fun _ d => d.afterDeal_username deal
  · cases h

theorem makeDeal {this other other' : Offer} {deal : Deal}
    (h : s.makeDeal this other = some (other', deal, s')) : s.NamesKept s' := by
  unfold Market.makeDeal at h
  split at h
  · cases h
  · rw [← (Prod.mk.inj (Prod.mk.inj (Option.some.inj h)).2).2]
    exact of_users rfl

/-- A pass of the matching loop. -/
theorem pass (border : Book → Int → Bool) (best : Book → Option OfferQueue) (offer : Nat)
    (s : Market) : s.NamesKept (processPass border best offer s).market := by
  unfold processPass
  split
  · exact of_users rfl
  · next this _ =>
    dsimp only
    split
    · exact setBook _ _
    split
    · exact of_users rfl
    split
    · exact of_users rfl
    split
    · exact setBook _ _
    split
    · exact of_users rfl
    split
    · exact of_users rfl
    next deal _ hmade =>
    split
    · exact makeDeal hmade
    next s₂ hreg =>
    have hquote : s.NamesKept (s₂.updateQuote deal) :=
      ((makeDeal hmade).trans (registerDeal hreg)).trans (of_users rfl)
    split
    · split
      · exact hquote.trans (setBook _ _)
      · next hremove =>
        exact ((hquote.trans (setBook _ _)).trans (removeActiveOffer hremove)).trans (setBook _ _)
    · exact hquote

theorem loop (border : Book → Int → Bool) (best : Book → Option OfferQueue) (offer fuel : Nat)
    (s : Market) : s.NamesKept (processLoop border best offer fuel s).2 := by
  induction fuel generalizing s with
  | zero => exact of_users rfl
  | succ fuel ih =>
    have hpass := pass border best offer s
    unfold processLoop
    split
    · exact of_users rfl
    · split
      · exact of_users rfl
      · cases h : processPass border best offer s with
        | stop s' => rw [h] at hpass; exact hpass
        | again s' => rw [h] at hpass; exact hpass.trans (ih s')
        | fault f s' => rw [h] at hpass; exact hpass

theorem processOffer (border : Book → Int → Bool) (best : Book → Option OfferQueue) (offer : Nat)
    (s : Market) : s.NamesKept (processOffer border best offer s).2 := by
  have hloop := loop border best offer
    (entries s.activeBuyOffers + entries s.activeSellOffers + 1) s
  unfold Market.processOffer
  split
  · next hrun => rw [hrun] at hloop; exact hloop
  · next s' hrun =>
    rw [hrun] at hloop
    split
    · exact hloop
    · split
      · split
        · exact hloop
        · next hremove => exact hloop.trans (removeActiveOffer hremove)
      · exact hloop

/-- Purging a book. -/
theorem quoteInner (t : OfferType) (price : Int) (fuel : Nat) (s : Market) :
    s.NamesKept (quoteInner t price fuel s).2 := by
  induction fuel generalizing s with
  | zero => exact of_users rfl
  | succ fuel ih =>
    unfold Market.quoteInner
    split
    · exact of_users rfl
    · split
      · exact (setBook _ _).trans (ih _)
      · split
        · exact of_users rfl
        · exact of_users rfl

theorem quoteOuter (t : OfferType) (fuel : Nat) (s : Market) :
    s.NamesKept (quoteOuter t fuel s).2 := by
  induction fuel generalizing s with
  | zero => exact of_users rfl
  | succ fuel ih =>
    unfold Market.quoteOuter
    split
    · exact of_users rfl
    · split
      · exact of_users rfl
      · next q _ =>
        have hinner := quoteInner t q.price (q.offers.length + 1) s
        split
        · next h => rw [h] at hinner; exact hinner
        · next h => rw [h] at hinner; exact hinner
        · next h => rw [h] at hinner; exact hinner.trans (ih _)

theorem getAskBidQuotes (s : Market) : s.NamesKept s.getAskBidQuotes.2 := by
  have hbuy : s.NamesKept (s.determineQuote .BUY).2 := quoteOuter _ _ s
  unfold Market.getAskBidQuotes
  split
  · next h => rw [h] at hbuy; exact hbuy
  · next s₁ h =>
    rw [h] at hbuy
    have hsell : s₁.NamesKept (s₁.determineQuote .SELL).2 := quoteOuter _ _ s₁
    split
    · next h' => rw [h'] at hsell; exact hbuy.trans hsell
    · next h' => rw [h'] at hsell; exact hbuy.trans hsell

theorem postOffer (s : Market) (u : Nat) (type : OfferType) (price : Int) (amount : UInt64) :
    s.NamesKept (s.postOffer u type price amount).2 := by
  unfold Market.postOffer
  dsimp only
  split
  · exact of_users rfl
  · next s₁ hat =>
    have hnew : s.NamesKept (s.construct (.make s.offerId u type price amount)) := of_users rfl
    have hadd : s.NamesKept s₁ := hnew.trans (atUser hat fun _ => rfl)
    have hloop := processOffer (borderPricePredicate type) (getBestOffers type)
      (Offer.make s.offerId u type price amount).id s₁
    split
    · next h => rw [h] at hloop; exact hadd.trans hloop
    · next h => rw [h] at hloop; exact hadd.trans hloop

/-- A new user has a new id. -/
theorem registerUser (hi : Inv none s) (username : String) (exist : Bool) :
    s.NamesKept (s.registerUser username exist).2 := by
  cases exist with
  | true => exact of_users rfl
  | false =>
    intro u d hd
    refine ⟨d, ?_, rfl⟩
    rw [hi.find?_register, if_neg, hd]
    exact (hi.user_lt u d hd).ne

end Market.NamesKept

/-- Every call keeps the names of the users. -/
theorem Inv.namesKept {s : Market} (hi : Inv none s) (op : Op) : s.NamesKept (s.step op).2 := by
  have hwrite : ∀ u f hf, (∀ d, (f d).username = d.username) →
      s.NamesKept (s.writeUser u f hf).2 := by
    intro u f hf hname
    unfold Market.writeUser
    split
    · exact .of_users rfl
    · next h => exact .atUser h hname
  cases op with
  | registerUser username exist => exact .registerUser hi username exist
  | depositUSD u amount => exact hwrite _ _ _ fun _ => rfl
  | depositRUB u amount => exact hwrite _ _ _ fun _ => rfl
  | getUserBalance u => exact .of_users (congrArg Market.users (s.readUser_snd _ _))
  | getActiveOffers u => exact .of_users (congrArg Market.users (s.readUser_snd _ _))
  | getClosedDeals u => exact .of_users (congrArg Market.users (s.readUser_snd _ _))
  | postOffer u type price amount =>
    have hpost := Market.NamesKept.postOffer s u type price amount
    simp only [Market.step]
    split
    · next h => rw [h] at hpost; exact hpost
    · next h => rw [h] at hpost; exact hpost
  | removeOffer u i =>
    simp only [Market.step]
    split
    · exact .of_users rfl
    · next h => exact .removeActiveOffer h
  | getQuote => exact .of_users rfl
  | getAskBidQuotes =>
    have hquotes := Market.NamesKept.getAskBidQuotes s
    simp only [Market.step]
    split
    · next h => rw [h] at hquotes; exact hquotes
    · next h => rw [h] at hquotes; exact hquotes

end ForexMarket
