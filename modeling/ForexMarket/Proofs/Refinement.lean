import ForexMarket.Proofs.Quotes

/- The market refines the reference: every call of the public interface answers as the
   reference does, and keeps the invariant and the relation (`step_refines`); so do all
   runs (`run_refines`). -/
namespace ForexMarket

variable {pending : Option Nat} {s s' : Market} {a : Reference}

/-! Releasing an offer. -/

theorem Inv.released {v i : Nat} (hi : Inv pending s) (h : s.Released s' v i) : Inv pending s' := by
  refine hi.of_users h.book h.heap h.offerId h.dealId (fun u p ho => ((h.owns_iff u p).mp ho).1) ?_
  intro u d' hd'
  rw [h.find?] at hd'
  obtain ⟨d, hd, rfl⟩ := Option.map_eq_some_iff.mp hd'
  refine ⟨by rw [h.userId]; exact hi.user_lt u d hd, fun x hx => ⟨d, hd, ?_⟩⟩
  split at hx
  · exact hx
  · exact hx

/-- The accounts do not depend on the offers users hold. -/
theorem Sim.released_accounts {v i : Nat} (hs : Sim pending s a) (h : s.Released s' v i) (u : Nat) :
    Option.Rel Agrees (s'.users.find? u) (a.accounts u) := by
  rw [h.find?]
  have hrel := rel_map (g := id) (hs.accounts u) (f := fun d => if u = v then d.dropOffer i else d)
    fun d x _ hx => by
      split
      · exact ⟨hx.usd, hx.rub, hx.deals⟩
      · exact hx
  rwa [Option.map_id] at hrel

/-- A cancelled offer, and no other, stops being live. -/
theorem Sim.released {v i : Nat} (hs : Sim none s a) (hi : Inv none s) (h : s.Released s' v i)
    (ho : s.Owns v i) : Sim none s' { a with live := a.live.erase i } where
  live := by
    intro o
    show o ∈ a.live.erase i ↔ _
    rw [KeySet.mem_erase, hs.live, h.heap]
    refine ⟨?_, ?_⟩
    · intro ⟨⟨x, hx, hv, hown, hne⟩, hid⟩
      rw [← hv] at hid
      exact ⟨x, hx, hv, (h.owns_iff _ _).mpr ⟨hown, fun ⟨_, e⟩ => hid e⟩, hne⟩
    · intro ⟨x, hx, hv, hown, hne⟩
      obtain ⟨hown, hnot⟩ := (h.owns_iff _ _).mp hown
      refine ⟨⟨x, hx, hv, hown, hne⟩, ?_⟩
      rw [← hv]
      intro e
      have e : x.id = i := e
      rw [← e] at ho
      exact hnot ⟨hi.owner hx ho, e⟩
  accounts := hs.released_accounts h
  quote := h.quote.trans hs.quote
  offerId := h.offerId.trans hs.offerId
  dealId := h.dealId.trans hs.dealId
  userId := h.userId.trans hs.userId
  trades := by rw [h.trades]; exact hs.trades

/-- A filled offer is released by its owner at the end of its call. -/
theorem Sim.released_pending {v i : Nat} (hs : Sim (some i) s a) (h : s.Released s' v i) :
    Sim (some i) s' a where
  live := by
    intro o
    rw [hs.live, h.heap]
    refine ⟨?_, ?_⟩
    · intro ⟨x, hx, hv, hown, hne⟩
      refine ⟨x, hx, hv, (h.owns_iff _ _).mpr ⟨hown, fun ⟨_, e⟩ => hne (by rw [e])⟩, hne⟩
    · intro ⟨x, hx, hv, hown, hne⟩
      exact ⟨x, hx, hv, ((h.owns_iff _ _).mp hown).1, hne⟩
  accounts := hs.released_accounts h
  quote := h.quote.trans hs.quote
  offerId := h.offerId.trans hs.offerId
  dealId := h.dealId.trans hs.dealId
  userId := h.userId.trans hs.userId
  trades := by rw [h.trades]; exact hs.trades

/-! `PostOffer`. -/

/-- `ProcessOffer` of the offer just posted does what `matchOffer` does. -/
theorem processOffer_spec {this : Offer} (h : Posting this s a) :
    ∃ s', Market.processOffer (Market.borderPricePredicate this.type)
      (Market.getBestOffers this.type) this.id s = (.ok (), s') ∧
      Inv none s' ∧ Sim none s' (a.matchOffer this.view) := by
  have hfuel : Market.entries (s.book this.type.opposite) <
      Market.entries s.activeBuyOffers + Market.entries s.activeSellOffers + 1 := by
    cases this.type <;> simp only [OfferType.opposite, Market.book] <;> omega
  obtain ⟨s', hloop, hend⟩ := processLoop_spec _ h hfuel
  simp only [Market.processOffer, hloop]
  rcases hend with ⟨hi', hs', x, hx, hid, hxact⟩ | ⟨hi', hs', hown', x, hx, hid, howner, hfull⟩
  · have hfind : s'.heap.find? this.id = some x := hid ▸ KeySet.find?_of_mem hx
    have hnot : ¬ x.status = .FULLFILLED := by rw [hxact]; decide
    simp only [hfind, if_neg hnot]
    exact ⟨s', rfl, hi', hs'⟩
  · have hfind : s'.heap.find? this.id = some x := hid ▸ KeySet.find?_of_mem hx
    obtain ⟨d, hd, hp⟩ := id hown'
    obtain ⟨s'', hremove, hr⟩ := Market.removeActiveOffer_spec hd this.id
    simp only [hfind, if_pos hfull, howner, hid, hremove]
    have hgone : ∀ u, ¬ s''.Owns u this.id := by
      intro u hu
      obtain ⟨hu, hnot⟩ := (hr.owns_iff u this.id).mp hu
      have hxu := hi'.owner hx (hid ▸ hu)
      exact hnot ⟨hxu ▸ howner, rfl⟩
    exact ⟨s'', rfl, (hi'.released hr).settled hgone, (hs'.released_pending hr).settled hgone⟩

theorem Inv.construct {x : Offer} (hi : Inv none s) (hid : x.id = s.offerId) :
    Inv none (s.construct x) :=
  hi.post hid (fun t => by cases t <;> rfl) rfl rfl rfl rfl (fun _ _ ho => .inl ho)
    (fun _ d' hd' => ⟨d', hd', rfl⟩) (.inl rfl)

/-- A constructed offer that no user holds is not live. -/
theorem Sim.construct {x : Offer} (hs : Sim none s a) (hi : Inv none s) (hid : x.id = s.offerId) :
    Sim none (s.construct x) { a with offerId := a.offerId + 1 } where
  live := by
    intro o
    show o ∈ a.live ↔ _
    rw [hs.live]
    refine ⟨?_, ?_⟩
    · intro ⟨y, hy, hv, ho, hne⟩
      exact ⟨y, KeySet.mem_insert.mpr (.inl hy), hv, ho, hne⟩
    · intro ⟨y, hy, hv, ho, hne⟩
      rcases KeySet.mem_insert.mp hy with hy | ⟨rfl, -⟩
      · exact ⟨y, hy, hv, ho, hne⟩
      · obtain ⟨z, hz, hzid, -⟩ := hi.owned _ _ ho
        have := hi.offer_lt z hz
        omega
  accounts := hs.accounts
  quote := hs.quote
  offerId := congrArg (· + 1) hs.offerId
  dealId := hs.dealId
  userId := hs.userId
  trades := hs.trades

/-- `AddOffer` makes the constructed offer the one being posted. -/
theorem Inv.addOffer {x : Offer} {hf} (hi : Inv none s) (hid : x.id = s.offerId)
    (h : (s.construct x).atUser x.ownerId (·.addOffer x.id) hf = some s') :
    Inv (some x.id) s' := by
  have hs' := Market.atUser_eq h
  refine hi.post hid ?_ ?_ ?_ ?_ ?_ ?_ ?_ (.inr rfl)
  · intro t; rw [hs']; cases t <;> rfl
  · rw [hs']; rfl
  · rw [hs']; rfl
  · rw [hs']; rfl
  · rw [hs']; rfl
  · intro u p ho
    rcases (Market.owns_addOffer h u p).mp ho with ho | ⟨hu, hp⟩
    · exact .inl ho
    · exact .inr ⟨hu, hp, rfl⟩
  · intro u d' hd'
    rw [hs'] at hd'
    have hd' : (s.users.modify x.ownerId (·.addOffer x.id) hf).find? u = some d' := hd'
    rw [KeySet.find?_modify] at hd'
    split at hd'
    · obtain ⟨d, hd, rfl⟩ := Option.map_eq_some_iff.mp hd'
      exact ⟨d, hd, rfl⟩
    · exact ⟨d', hd', rfl⟩

theorem Sim.addOffer {x : Offer} {hf} (hs : Sim none s a) (hi : Inv none s)
    (hid : x.id = s.offerId)
    (h : (s.construct x).atUser x.ownerId (·.addOffer x.id) hf = some s') :
    Sim (some x.id) s' { a with offerId := a.offerId + 1 } where
  live := by
    intro o
    have hheap : s'.heap = (s.construct x).heap := by rw [Market.atUser_eq h]
    rw [(hs.construct hi hid).live, hheap]
    constructor
    · rintro ⟨y, hy, hv, ho, -⟩
      refine ⟨y, hy, hv, (Market.owns_addOffer h _ _).mpr (.inl ho), fun e => ?_⟩
      -- what is held already is older than the constructed offer
      obtain ⟨z, hz, hzid, -⟩ := hi.owned _ _ ho
      have hlt := hi.offer_lt z hz
      have hxy : x.id = y.id := Option.some.inj e
      omega
    · rintro ⟨y, hy, hv, ho, hne⟩
      rcases (Market.owns_addOffer h _ _).mp ho with ho | ⟨-, hy'⟩
      · exact ⟨y, hy, hv, ho, by simp⟩
      · exact absurd (congrArg some hy'.symm) hne
  accounts := by
    intro u
    rw [Market.atUser_eq h]
    show Option.Rel Agrees ((s.users.modify x.ownerId (·.addOffer x.id) hf).find? u) _
    rw [KeySet.find?_modify]
    split
    · have hrel := rel_map (g := id) (hs.accounts u) (f := (·.addOffer x.id))
        fun d y _ hy => ⟨hy.usd, hy.rub, hy.deals⟩
      rwa [Option.map_id] at hrel
    · exact hs.accounts u
  quote := by rw [Market.atUser_eq h]; exact hs.quote
  offerId := by rw [Market.atUser_eq h]; exact congrArg (· + 1) hs.offerId
  dealId := by rw [Market.atUser_eq h]; exact hs.dealId
  userId := by rw [Market.atUser_eq h]; exact hs.userId
  trades := by rw [Market.atUser_eq h]; exact hs.trades

/-- A `PostOffer` of a registered user starts with the constructed offer. -/
theorem Posting.start {x : Offer} {hf} (hi : Inv none s) (hs : Sim none s a)
    (hid : x.id = s.offerId) (hact : x.status = .ACTIVE)
    (h : (s.construct x).atUser x.ownerId (·.addOffer x.id) hf = some s') :
    Posting x s' { a with offerId := a.offerId + 1 } := by
  have hheap : s'.heap = s.heap.insert x := by rw [Market.atUser_eq h]; rfl
  have hlt : ∀ c ∈ s.heap, c.id < x.id := by
    rw [hid]
    exact hi.offer_lt
  constructor
  case inv => exact hi.addOffer hid h
  case sim => exact hs.addOffer hi hid h
  case mem =>
    rw [hheap]
    exact (KeySet.mem_insert_of_fresh fun c hc => (hlt c hc).ne).mpr (.inr rfl)
  case active => exact hact
  case owned => exact (Market.owns_addOffer h _ _).mpr (.inr ⟨rfl, rfl⟩)
  case newest =>
    intro c hc
    rw [hheap] at hc
    rcases KeySet.mem_insert.mp hc with hc | ⟨rfl, -⟩
    · exact (hlt c hc).le
    · exact le_refl _

/-- `AddOffer` finds a registered user, and the loop takes over with the offer its owner's. -/
theorem postOffer_start (hi : Inv none s) (hs : Sim none s a) {u : Nat}
    (hu : ∃ d, s.users.find? u = some d) (type : OfferType) (price : Int) (amount : UInt64) :
    ∃ s₁, (s.construct (Offer.make s.offerId u type price amount)).addOffer u
        (Offer.make s.offerId u type price amount) = some s₁ ∧
      Posting (Offer.make s.offerId u type price amount) s₁
        { a with offerId := a.offerId + 1 } := by
  obtain ⟨d, hd⟩ := hu
  have hat : ∃ s₁, (s.construct (Offer.make s.offerId u type price amount)).addOffer u
      (Offer.make s.offerId u type price amount) = some s₁ := by
    simp only [Market.addOffer, Market.atUser]
    rw [show (s.construct _).users.find? u = some d from hd]
    exact ⟨_, rfl⟩
  obtain ⟨s₁, hat⟩ := hat
  have hstart := Posting.start (x := Offer.make s.offerId u type price amount) hi hs rfl rfl hat
  exact ⟨s₁, hat, hstart⟩

/-- An unregistered user's `at` throws after the offer was constructed. -/
theorem addOffer_unregistered {u : Nat} (hd : s.users.find? u = none) (type : OfferType)
    (price : Int) (amount : UInt64) :
    (s.construct (Offer.make s.offerId u type price amount)).addOffer u
      (Offer.make s.offerId u type price amount) = none := by
  simp only [Market.addOffer, Market.atUser]
  rw [show (s.construct _).users.find? u = none from hd]

/-- The call answers as the reference does, and moves as it does. -/
def Refines (s : Market) (a : Reference) (op : Op) : Prop :=
  (s.step op).1 = (a.step op).1 ∧ Inv none (s.step op).2 ∧ Sim none (s.step op).2 (a.step op).2

theorem postOffer_refines (hi : Inv none s) (hs : Sim none s a) (u : Nat) (type : OfferType)
    (price : Int) (amount : UInt64) : Refines s a (.postOffer u type price amount) := by
  unfold Refines
  let x := Offer.make s.offerId u type price amount
  cases hd : s.users.find? u with
  | none =>
    have hx := hs.account_none hd
    -- the id of the offer is lost
    have hpost : s.postOffer u type price amount = (.error .outOfRange, s.construct x) := by
      unfold Market.postOffer
      dsimp only
      rw [addOffer_unregistered hd]
    simp only [Market.step, hpost, Reference.step, hx]
    exact ⟨trivial, hi.construct rfl, hs.construct hi rfl⟩
  | some d =>
    obtain ⟨y, hx, -⟩ := hs.account_some hd
    obtain ⟨s₂, hat, hstart⟩ := postOffer_start hi hs ⟨d, hd⟩ type price amount
    obtain ⟨s', hprocess, hi', hs'⟩ := processOffer_spec hstart
    have hpost : s.postOffer u type price amount = (.ok s.offerId, s') := by
      unfold Market.postOffer
      dsimp only
      rw [hat]
      dsimp only
      have hprocess : Market.processOffer (Market.borderPricePredicate type)
        (Market.getBestOffers type) (Offer.make s.offerId u type price amount).id s₂ =
          (.ok (), s') := hprocess
      rw [hprocess]
      rfl
    simp only [Market.step, hpost, Reference.step, hx]
    have hview : x.view =
        { id := a.offerId, ownerId := u, type := type, price := price,
          amount := amount.toNat } := by
      simp only [x, Offer.make, Offer.view, hs.offerId]
    rw [hview] at hs'
    exact ⟨by rw [hs.offerId], hi', hs'⟩

/-! The other calls. -/

/-- The id of a new user is fresh, so the new account is inserted beside the others. -/
theorem Inv.find?_register {o : Option Nat} (hi : Inv o s) (username : String) (u : Nat) :
    (s.registerUser username false).2.users.find? u =
      if u = s.userId then some (.make s.userId username) else s.users.find? u := by
  have hfresh : s.users.find? s.userId = none := by
    cases hd : s.users.find? s.userId with
    | none => rfl
    | some d => exact absurd (hi.user_lt _ d hd) (lt_irrefl _)
  show (s.users.insert (.make s.userId username)).find? u = _
  rw [KeySet.find?_insert]
  by_cases hu : u = s.userId
  · simp [hu, hfresh, UserData.make]
  · have hu' : s.userId ≠ u := fun e => hu e.symm
    simp [hu, hu', UserData.make]

/-- A new user holds no offer. -/
theorem Inv.owns_register {o : Option Nat} (hi : Inv o s) (username : String) (u p : Nat) :
    (s.registerUser username false).2.Owns u p ↔ s.Owns u p := by
  have hfresh : ¬ s.Owns s.userId p := by
    rintro ⟨d, hd, -⟩
    exact absurd (hi.user_lt _ d hd) (lt_irrefl _)
  unfold Market.Owns
  rw [hi.find?_register]
  split
  · next hu =>
    subst hu
    constructor
    · rintro ⟨d, hd, hp⟩
      rw [← Option.some.inj hd] at hp
      exact absurd hp (KeySet.not_mem_empty p)
    · exact fun h => absurd h hfresh
  · rfl

theorem Inv.register (hi : Inv none s) (username : String) :
    Inv none (s.registerUser username false).2 := by
  refine hi.of_users (fun t => by cases t <;> rfl) rfl rfl rfl
    (fun u p => (hi.owns_register username u p).mp) ?_
  intro u d' hd'
  rw [hi.find?_register] at hd'
  split at hd'
  · next hu =>
    refine ⟨by rw [hu]; exact Nat.lt_succ_self _, fun x hx => ?_⟩
    rw [← Option.some.inj hd'] at hx
    exact absurd hx (KeySet.not_mem_empty x)
  · exact ⟨(hi.user_lt u d' hd').trans (Nat.lt_succ_self _), fun x hx => ⟨d', hd', hx⟩⟩

theorem Sim.register (hs : Sim none s a) (hi : Inv none s) (username : String) :
    Sim none (s.registerUser username false).2 (a.step (.registerUser username false)).2 := by
  refine hs.of_users rfl (hi.owns_register username) rfl ?_ hs.quote hs.offerId hs.dealId
    (congrArg (· + 1) hs.userId) hs.trades
  intro u
  rw [hi.find?_register, hs.userId]
  show Option.Rel Agrees _ (Function.update a.accounts a.userId _ u)
  rw [Function.update_apply]
  by_cases hu : u = a.userId
  · rw [if_pos hu, if_pos hu]
    exact .some ⟨Wrap.wrap32_zero.symm, Wrap.wrap32_zero.symm, rfl⟩
  · rw [if_neg hu, if_neg hu]
    exact hs.accounts u

theorem registerUser_refines (hi : Inv none s) (hs : Sim none s a) (username : String)
    (exist : Bool) : Refines s a (.registerUser username exist) := by
  unfold Refines
  cases exist with
  | true => exact ⟨rfl, hi, hs⟩
  | false =>
    have hreply : (s.step (.registerUser username false)).1 =
        (a.step (.registerUser username false)).1 := by
      simp only [Market.step, Market.registerUser, Reference.step, Bool.false_eq_true, if_false,
        hs.userId]
    exact ⟨hreply, hi.register username, hs.register hi username⟩

/-- A deposit, of either currency. -/
theorem writeUser_refines (hi : Inv none s) (hs : Sim none s a) {op : Op} {u : Nat}
    {f : UserData → UserData} {hf} {g : Account → Account} (hstep : s.step op = s.writeUser u f hf)
    (hstep' : a.step op = a.writeUser u g) (hoffers : ∀ d, (f d).activeOffers = d.activeOffers)
    (hdeals : ∀ d, (f d).closedDeals = d.closedDeals)
    (hagree : ∀ d x, Agrees d x → Agrees (f d) (g x)) : Refines s a op := by
  unfold Refines
  rw [hstep, hstep']
  cases hd : s.users.find? u with
  | none =>
    simp only [Market.writeUser, Market.atUser, Reference.writeUser, hd, hs.account_none hd]
    exact ⟨trivial, hi, hs⟩
  | some d =>
    obtain ⟨x, hx, hdx⟩ := hs.account_some hd
    simp only [Market.writeUser, Market.atUser, Reference.writeUser, hd, hx]
    have hown : ∀ v p, Market.Owns { s with users := s.users.modify u f hf } v p ↔ s.Owns v p :=
      Market.owns_modify hf rfl hoffers
    refine ⟨trivial, ?_, ?_⟩
    · refine hi.of_users (fun t => by cases t <;> rfl) rfl rfl rfl (fun u p => (hown u p).mp) ?_
      intro v d' hd'
      rw [KeySet.find?_modify] at hd'
      split at hd'
      · obtain ⟨e, he, rfl⟩ := Option.map_eq_some_iff.mp hd'
        exact ⟨hi.user_lt v e he, fun y hy => ⟨e, he, by rwa [hdeals] at hy⟩⟩
      · exact ⟨hi.user_lt v d' hd', fun y hy => ⟨d', hd', hy⟩⟩
    · refine hs.of_users rfl hown rfl ?_ hs.quote hs.offerId hs.dealId hs.userId hs.trades
      intro v
      rw [KeySet.find?_modify]
      simp only [Function.update_apply]
      split
      · next hv => rw [hv, hd]; exact .some (hagree d x hdx)
      · exact hs.accounts v

/-- A query of one user's data. -/
theorem readUser_refines (hi : Inv none s) (hs : Sim none s a) {op : Op} {u : Nat}
    {f : UserData → Reply} {g : Account → Reply} (hstep : s.step op = s.readUser u f)
    (hstep' : a.step op = a.readUser u g)
    (hagree : ∀ d x, s.users.find? u = some d → Agrees d x → f d = g x) : Refines s a op := by
  unfold Refines
  rw [hstep, hstep']
  cases hd : s.users.find? u with
  | none =>
    simp only [Market.readUser, Reference.readUser, hd, hs.account_none hd]
    exact ⟨trivial, hi, hs⟩
  | some d =>
    obtain ⟨x, hx, hdx⟩ := hs.account_some hd
    simp only [Market.readUser, Reference.readUser, hd, hx]
    exact ⟨hagree d x hd hdx, hi, hs⟩

/-- The active offers of a user are the live offers the user owns, by id. -/
theorem activeViews_eq (hi : Inv none s) (hs : Sim none s a) {u : Nat} {d : UserData}
    (hd : s.users.find? u = some d) :
    s.activeViews d = a.live.elems.filter (fun o => o.ownerId = u) := by
  have hsorted : (s.activeViews d).Pairwise (fun o o' => o.id < o'.id) := by
    unfold Market.activeViews
    rw [List.pairwise_map, List.pairwise_filterMap]
    apply d.activeOffers.sorted.imp
    intro p p' hlt x hx x' hx'
    show x.id < x'.id
    rw [(KeySet.find?_eq_some.mp hx).2, (KeySet.find?_eq_some.mp hx').2]
    exact hlt
  -- both lists are in order of the ids, so they are equal when they have the same members
  have hset : (⟨_, hsorted⟩ : KeySet OfferView OfferView.id) =
      ⟨_, a.live.sorted.filter (fun o => o.ownerId = u)⟩ := by
    apply KeySet.ext_mem
    intro o
    show o ∈ s.activeViews d ↔ o ∈ a.live.elems.filter (fun o => o.ownerId = u)
    simp only [Market.activeViews, List.mem_map, List.mem_filterMap, List.mem_filter,
      decide_eq_true_eq]
    refine ⟨?_, ?_⟩
    · intro ⟨x, ⟨p, hp, hx⟩, hv⟩
      obtain ⟨hx, hid⟩ := KeySet.find?_eq_some.mp hx
      have ho : s.Owns u x.id := ⟨d, hd, by rw [hid]; exact hp⟩
      have hu := hi.owner hx ho
      refine ⟨(hs.live o).mpr ⟨x, hx, hv, by rw [hu]; exact ho, by simp⟩, ?_⟩
      rw [← hv]
      exact hu
    · intro ⟨ho, hu⟩
      obtain ⟨x, hx, hv, ⟨e, he, hp⟩, -⟩ := (hs.live o).mp ho
      rw [← hv] at hu
      rw [show x.ownerId = u from hu, hd] at he
      rw [← Option.some.inj he] at hp
      exact ⟨x, ⟨x.id, hp, KeySet.find?_of_mem hx⟩, hv⟩
  exact congrArg KeySet.elems hset

theorem contains_iff_owns {u i : Nat} {d : UserData} (hd : s.users.find? u = some d) :
    d.activeOffers.contains i = true ↔ s.Owns u i := by
  rw [KeySet.contains_iff]
  constructor
  · rintro ⟨p, hp, hid⟩
    have hid : p = i := hid
    exact ⟨d, hd, hid ▸ hp⟩
  · rintro ⟨e, he, hp⟩
    rw [hd] at he
    rw [← Option.some.inj he] at hp
    exact ⟨i, hp, rfl⟩

/-- The live offers of a user are the offers the user holds. -/
theorem live_iff_owns (hi : Inv none s) (hs : Sim none s a) (u i : Nat) :
    (a.live.find? i).any (fun o => o.ownerId = u) = true ↔ s.Owns u i := by
  rw [Option.any_eq_true]
  constructor
  · rintro ⟨o, ho, hu⟩
    obtain ⟨hmem, hid⟩ := KeySet.find?_eq_some.mp ho
    obtain ⟨y, hy, rfl, hown, -⟩ := (hs.live o).mp hmem
    have hu : y.ownerId = u := of_decide_eq_true hu
    have hid : y.id = i := hid
    rwa [hu, hid] at hown
  · intro ho
    obtain ⟨y, hy, hid, hu, -⟩ := hi.owned u i ho
    have hv : y.view ∈ a.live := (hs.live _).mpr ⟨y, hy, rfl, by rw [hu, hid]; exact ho, by simp⟩
    exact ⟨y.view, hid ▸ KeySet.find?_of_mem hv, decide_eq_true hu⟩

/-- Removing an offer the user does not hold changes nothing the reference sees. -/
theorem Sim.not_released {v i : Nat} (hs : Sim none s a) (h : s.Released s' v i)
    (ho : ¬ s.Owns v i) : Sim none s' a := by
  refine hs.of_users h.heap ?_ rfl (hs.released_accounts h) (h.quote.trans hs.quote)
    (h.offerId.trans hs.offerId) (h.dealId.trans hs.dealId) (h.userId.trans hs.userId)
    (by rw [h.trades]; exact hs.trades)
  intro u p
  rw [h.owns_iff]
  constructor
  · exact fun hp => hp.1
  · intro hp
    refine ⟨hp, ?_⟩
    rintro ⟨rfl, rfl⟩
    exact ho hp

theorem removeOffer_refines (hi : Inv none s) (hs : Sim none s a) (u i : Nat) :
    Refines s a (.removeOffer u i) := by
  unfold Refines
  cases hd : s.users.find? u with
  | none =>
    simp only [Market.step, Market.removeActiveOffer, Reference.step, hd, hs.account_none hd]
    exact ⟨trivial, hi, hs⟩
  | some d =>
    obtain ⟨x, hx, -⟩ := hs.account_some hd
    obtain ⟨s', hremove, hr⟩ := Market.removeActiveOffer_spec hd i
    have hcontains := contains_iff_owns (i := i) hd
    have hlive := live_iff_owns hi hs u i
    simp only [Market.step, hremove, Reference.step, hx]
    by_cases ho : s.Owns u i
    · rw [if_pos (hlive.mpr ho), hcontains.mpr ho]
      exact ⟨rfl, hi.released hr, hs.released hi hr ho⟩
    · rw [if_neg (mt hlive.mp ho), Bool.eq_false_iff.mpr (mt hcontains.mp ho)]
      exact ⟨rfl, hi.released hr, hs.not_released hr ho⟩

theorem getAskBidQuotes_refines (hi : Inv none s) (hs : Sim none s a) :
    Refines s a .getAskBidQuotes := by
  unfold Refines
  obtain ⟨s₁, hask, hi₁, hs₁⟩ := determineQuote_spec .BUY hi hs
  obtain ⟨s₂, hbid, hi₂, hs₂⟩ := determineQuote_spec .SELL hi₁ hs₁
  simp only [Market.step, Market.getAskBidQuotes, hask, hbid, Reference.step]
  exact ⟨rfl, hi₂, hs₂⟩

/-- Every call answers as the reference does, and moves as it does. -/
theorem step_refines (hi : Inv none s) (hs : Sim none s a) (op : Op) : Refines s a op := by
  cases op with
  | registerUser username exist => exact registerUser_refines hi hs username exist
  | depositUSD u amount =>
    refine writeUser_refines hi hs rfl rfl (fun d => ?_) (fun d => ?_)
      (fun d x h => h.deposit_usd amount)
    · rw [UserData.depositUSD, UserData.setUsd]
    · rw [UserData.depositUSD, UserData.setUsd]
  | depositRUB u amount =>
    refine writeUser_refines hi hs rfl rfl (fun d => ?_) (fun d => ?_)
      (fun d x h => h.deposit_rub amount)
    · rw [UserData.depositRUB, UserData.setRub]
    · rw [UserData.depositRUB, UserData.setRub]
  | getUserBalance u =>
    apply readUser_refines hi hs rfl rfl
    intro d x _ hx
    rw [← hx.usd, ← hx.rub]
  | getActiveOffers u =>
    apply readUser_refines hi hs rfl rfl
    intro d x hd _
    rw [activeViews_eq hi hs hd]
  | getClosedDeals u =>
    apply readUser_refines hi hs rfl rfl
    intro d x _ hx
    rw [hx.deals]
  | postOffer u type price amount => exact postOffer_refines hi hs u type price amount
  | removeOffer u id => exact removeOffer_refines hi hs u id
  | getQuote => exact ⟨congrArg Reply.quote hs.quote, hi, hs⟩
  | getAskBidQuotes => exact getAskBidQuotes_refines hi hs

end ForexMarket
