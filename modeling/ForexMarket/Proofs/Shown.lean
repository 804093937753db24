import ForexMarket.Proofs.Answers
import ForexMarket.Spec.Shown

/- What replies show while some users are hidden. A command that names no hidden user gets
   one reply from two servers that show the same, and leaves servers that do
   (`Alikes.execute`). A command of a hidden user leaves what shows as it is, unless it
   posts an offer, withdraws one or ends the server: these are the events that are public
   (`Alikes.silent`, `Alikes.event`). -/
namespace ForexMarket

open Wrap

/-- What is public of a read while some users are hidden: a request that names none of them, an
offer that one of them posts or withdraws, and that one of them ends the server. -/
inductive PublicEvent where
  | request (k : Nat) (bytes : Bytes)
  | posted (type : OfferType) (price : Int) (amount : UInt64)
  | withdrawn (offerId : Nat)
  | ended
  deriving DecidableEq

/-- What is noticed of a command that names the user. -/
def Command.noticed (s : Market) (u : UInt64) (c : Command) : Option PublicEvent :=
  match s.users.find? u.toNat with
  | none => some .ended
  | some d =>
    match c with
    | .post _ type price amount => some (.posted type price amount)
    | .cancel _ i =>
      if d.activeOffers.contains i.toNat then some (.withdrawn i.toNat) else none
    | _ => none

/-! Calls of commands. -/

section Call

variable {δ : Type} {c : Command} {exist : Bytes → Except Exception Bool × δ} {op : Op}

theorem Command.call_user (h : c.call exist = some op) : op.user = c.user.map UInt64.toNat := by
  cases c with
  | register username pwHash =>
    obtain ⟨_, -, rfl⟩ := call_register.mp h
    rfl
  | login username pwHash => cases h
  | unknown => cases h
  | _ => rw [← Option.some.inj h]; rfl

theorem Command.call_served (h : c.call exist = some op) : op.served = true := by
  cases c with
  | register username pwHash =>
    obtain ⟨_, -, rfl⟩ := call_register.mp h
    rfl
  | login username pwHash => cases h
  | unknown => cases h
  | _ => rw [← Option.some.inj h]; rfl

/-- The call of a command that names no hidden user names none. -/
theorem shown_call {hidden : Nat → Bool} (h : c.call exist = some op)
    (hc : ∀ u ∈ c.user, hidden u.toNat = false) : ∀ u ∈ op.user, hidden u = false := by
  rw [Command.call_user h]
  intro u hu
  obtain ⟨v, hv, rfl⟩ := Option.map_eq_some_iff.mp hu
  exact hc v hv

end Call

/-! What is noticed. -/

section Noticed

variable {s : Market} {a : Reference} {u : UInt64} {c : Command} {d : UserData}

/-- When nothing is noticed of a command, its user is registered and its call changes nothing. -/
theorem Command.of_noticed_none (h : Stands s a) (hu : c.user = some u)
    (hnone : c.noticed s u = none) :
    (s.users.find? u.toNat).isSome ∧ ∀ {δ : Type} (exist : Bytes → Except Exception Bool × δ) op,
      c.call exist = some op → (a.step op).2 = a := by
  unfold noticed at hnone
  cases hd : s.users.find? u.toNat with
  | none => rw [hd] at hnone; cases hnone
  | some d =>
    refine ⟨rfl, fun {_} exist op hop => ?_⟩
    rw [hd] at hnone
    cases c with
    | register username pwHash => cases hu
    | login username pwHash => cases hu
    | quotes => cases hu
    | unknown => cases hu
    | post v type price amount => cases hnone
    | balance v => rw [← Option.some.inj hop]; exact a.readUser_snd _ _
    | activeOffers v => rw [← Option.some.inj hop]; exact a.readUser_snd _ _
    | closedDeals v => rw [← Option.some.inj hop]; exact a.readUser_snd _ _
    | cancel v i =>
      obtain rfl : v = u := Option.some.inj hu
      have hheld : ¬ d.activeOffers.contains i.toNat = true := by
        intro hheld
        simp only [hheld, if_true] at hnone
        cases hnone
      have hlive : ¬ (a.live.find? i.toNat).any (fun o => o.ownerId = v.toNat) = true := by
        rwa [live_iff_owns h.inv h.sim, ← contains_iff_owns hd]
      obtain ⟨x, hx, -⟩ := h.sim.account_some hd
      rw [← Option.some.inj hop]
      simp only [Reference.step, hx, if_neg hlive]

/-- What can be noticed of a command. -/
theorem Command.of_noticed_some (hu : c.user = some u) {e : PublicEvent}
    (he : c.noticed s u = some e) :
    s.users.find? u.toNat = none ∧ e = .ended ∨ (s.users.find? u.toNat).isSome ∧
      ((∃ type price amount, c = .post u type price amount ∧ e = .posted type price amount) ∨
        ∃ i, c = .cancel u i ∧ s.Owns u.toNat i.toNat ∧ e = .withdrawn i.toNat) := by
  unfold noticed at he
  cases hd : s.users.find? u.toNat with
  | none =>
    rw [hd] at he
    exact .inl ⟨rfl, (Option.some.inj he).symm⟩
  | some d =>
    rw [hd] at he
    refine .inr ⟨rfl, ?_⟩
    cases c with
    | post v type price amount =>
      obtain rfl : v = u := Option.some.inj hu
      exact .inl ⟨type, price, amount, rfl, (Option.some.inj he).symm⟩
    | cancel v i =>
      obtain rfl : v = u := Option.some.inj hu
      by_cases hheld : d.activeOffers.contains i.toNat = true
      · simp only [hheld, if_true, Option.some.injEq] at he
        exact .inr ⟨i, rfl, (contains_iff_owns hd).mp hheld, he.symm⟩
      · simp only [hheld, Bool.false_eq_true, if_false] at he
        cases he
    | _ => cases he

end Noticed

/-! The replies on closed deals. -/

/-- The reply lists what the user sees of deals the user is a party of. -/
theorem closedDealsReply_congr {u : Nat} {l l' : List DealView}
    (hl : ∀ d ∈ l, d.buyerId = u ∨ d.sellerId = u) (hl' : ∀ d ∈ l', d.buyerId = u ∨ d.sellerId = u)
    (h : l.map (DealView.seenBy u) = l'.map (DealView.seenBy u)) :
    Serializer.closedDealsReply u l = Serializer.closedDealsReply u l' := by
  let object (s : DealSeen) : Json :=
    .ofMembers [(jsonField.price, .ofInt s.price), (jsonField.amount, .ofUInt64 (.ofNat s.amount))]
  have hlist : ∀ (p : DealView → Bool) (p' : DealSeen → Bool),
      (∀ d, d.buyerId = u ∨ d.sellerId = u → p d = p' (d.seenBy u)) →
      (l.filter p).map Serializer.dealObject = (l'.filter p).map Serializer.dealObject := by
    intro p p' hp
    have hfactor : ∀ k : List DealView, (∀ d ∈ k, d.buyerId = u ∨ d.sellerId = u) →
        (k.filter p).map Serializer.dealObject =
          ((k.map (DealView.seenBy u)).filter p').map object :=
      fun k hk => map_filter_factor k (fun d hd => hp d (hk d hd)) fun _ _ _ => rfl
    rw [hfactor l hl, hfactor l' hl', h]
  unfold Serializer.closedDealsReply
  rw [hlist _ (fun s => s.bought && !s.sold), hlist _ (fun s => !s.bought),
    hlist _ (fun s => s.bought && s.sold)]
  · intro d hd
    simp only [DealView.seenBy, ← Bool.decide_and, decide_eq_decide]
    omega
  · intro d hd
    simp only [DealView.seenBy, ← decide_not, decide_eq_decide]
    omega
  · intro d hd
    simp only [DealView.seenBy, ← decide_not, ← Bool.decide_and, decide_eq_decide]
    omega

/-! Servers that show the same. -/

section Servers

variable {δ : Type} (db : Database δ) {hidden : Nat → Bool} {s t : Server δ} {a b : Reference}

/-- The servers stand for references that show the same, and have the same table. -/
structure Server.Alikes (hidden : Nat → Bool) (s t : Server δ) (a b : Reference) : Prop where
  left : Stands s.market a
  right : Stands t.market b
  alike : Reference.Alike hidden a b
  db : s.db = t.db

namespace Server.Alikes

theorem symm (h : s.Alikes hidden t a b) : t.Alikes hidden s b a :=
  ⟨h.right, h.left, h.alike.symm, h.db.symm⟩

/-- The deals of an account are deals of its user. -/
theorem party {r : Reference} (hw : r.WellFormed) {u : Nat} {x : Account}
    (hx : r.accounts u = some x) : ∀ d ∈ x.deals, d.buyerId = u ∨ d.sellerId = u := by
  intro d hd
  rw [hw.deals u x hx] at hd
  exact (of_decide_eq_true (List.mem_filter.mp hd).2).imp Eq.symm Eq.symm

/-- A command that names no hidden user gets one reply. -/
theorem reply_eq (h : s.Alikes hidden t a b) {c : Command}
    (hc : ∀ u ∈ c.user, hidden u.toNat = false) :
    (Session.execute db s c).1 = (Session.execute db t c).1 := by
  have hquote : s.market.quote = t.market.quote :=
    (h.left.sim.quote.trans h.alike.quote).trans h.right.sim.quote.symm
  rw [Session.execute_reply, Session.execute_reply, hquote, h.db]
  unfold Session.answerOf
  cases hop : c.call (db.usernameExist t.db) with
  | none => rfl
  | some op =>
    have hshown := shown_call hop hc
    have hfresh : ∀ v ∈ a.live, v.id ≠ a.offerId := fun v hv => (h.left.wf.live_lt v hv).ne
    obtain ⟨-, hreply⟩ := h.alike.step hfresh (Command.call_served hop) hshown
    simp only [h.left.reply_eq, h.right.reply_eq]
    by_cases hdeals : ∃ u, op = .getClosedDeals u
    · -- the deals themselves may differ, in what the user does not see of them
      obtain ⟨u, rfl⟩ := hdeals
      obtain ⟨v, rfl, rfl⟩ : ∃ v, c = .closedDeals v ∧ v.toNat = u := by
        cases c with
        | closedDeals v => exact ⟨v, rfl, Op.getClosedDeals.inj (Option.some.inj hop)⟩
        | login username pwHash => cases hop
        | unknown => cases hop
        | register username pwHash =>
          obtain ⟨_, -, he⟩ := Command.call_register.mp hop
          cases he
        | _ => cases Option.some.inj hop
      rcases h.alike.account (hshown _ rfl) with ⟨hx, hy⟩ | ⟨x, y, hx, hy, -, -, hdeals⟩
      · simp only [Reference.step, Reference.readUser, hx, hy]
      · simp only [Reference.step, Reference.readUser, hx, hy, Session.reply]
        rw [closedDealsReply_congr (party h.left.wf hx) (party h.right.wf hy) hdeals]
    · rw [hreply fun u e => hdeals ⟨u, e⟩]

/-- A command that names no hidden user leaves servers that show the same. -/
theorem execute (h : s.Alikes hidden t a b) {c : Command}
    (hc : ∀ u ∈ c.user, hidden u.toNat = false) :
    ∃ a' b', (Session.execute db s c).2.Alikes hidden (Session.execute db t c).2 a' b' := by
  have hdb : (Session.execute db s c).2.db = (Session.execute db t c).2.db := by
    have huser : s.market.userId = t.market.userId :=
      (h.left.sim.userId.trans h.alike.userId).trans h.right.sim.userId.symm
    rw [Session.execute_db, Session.execute_db, h.db, huser]
  have hmarket := Session.execute_market db s c
  have hmarket' := Session.execute_market db t c
  rw [h.db] at hmarket
  cases hop : c.call (db.usernameExist t.db) with
  | none =>
    rw [hop] at hmarket hmarket'
    exact ⟨a, b, hmarket ▸ h.left, hmarket' ▸ h.right, h.alike, hdb⟩
  | some op =>
    rw [hop] at hmarket hmarket'
    have hfresh : ∀ v ∈ a.live, v.id ≠ a.offerId := fun v hv => (h.left.wf.live_lt v hv).ne
    obtain ⟨halike, -⟩ := h.alike.step hfresh (Command.call_served hop) (shown_call hop hc)
    exact ⟨_, _, hmarket ▸ h.left.step op, hmarket' ▸ h.right.step op, halike, hdb⟩

/-- A command that names a user, when nothing is noticed of it. -/
theorem silent (h : s.Alikes hidden t a b) {c : Command} {u : UInt64} (hu : c.user = some u)
    (hnone : c.noticed s.market u = none) :
    (Session.execute db s c).1.isOk ∧ (Session.execute db s c).2.Alikes hidden t a b := by
  obtain ⟨hknown, hstay⟩ := Command.of_noticed_none h.left hu hnone
  have hdb : (Session.execute db s c).2.db = s.db := Session.execute_db_of_user db s hu
  refine ⟨?_, ?_, h.right, h.alike, hdb.trans h.db⟩
  · rw [Session.execute_isOk db h.left, Session.answered_of_user hu]
    exact hknown
  · rw [Session.execute_market]
    cases hop : c.call (db.usernameExist s.db) with
    | none => exact h.left
    | some op =>
      have hstep := h.left.step op
      rwa [hstay _ op hop] at hstep

/-- Withdrawing an offer that the user holds. -/
theorem withdraw_eq {m : Market} {r : Reference} (h : Stands m r) {u i : Nat} (ho : m.Owns u i) :
    (r.step (.removeOffer u i)).2 = { r with live := r.live.erase i } := by
  obtain ⟨d, hd, -⟩ := id ho
  obtain ⟨x, hx, -⟩ := h.sim.account_some hd
  simp only [Reference.step, hx, if_pos ((live_iff_owns h.inv h.sim u i).mpr ho)]

/-- Posts of hidden users. -/
theorem posted (h : s.Alikes hidden t a b) {u u' : UInt64} (hh : hidden u.toNat = true)
    (hh' : hidden u'.toNat = true) (hknown : (s.market.users.find? u.toNat).isSome)
    (hknown' : (t.market.users.find? u'.toNat).isSome) (type : OfferType) (price : Int)
    (amount : UInt64) :
    ∃ a' b', (Session.execute db s (.post u type price amount)).2.Alikes hidden
      (Session.execute db t (.post u' type price amount)).2 a' b' := by
  have hfresh : ∀ v ∈ a.live, v.id ≠ a.offerId := fun v hv => (h.left.wf.live_lt v hv).ne
  have hshown : shownUser hidden u.toNat = shownUser hidden u'.toNat := by
    simp [shownUser, hh, hh']
  refine ⟨_, _, ?_, ?_, h.alike.post hfresh hshown ?_ ?_ type price amount, ?_⟩
  · rw [Session.execute_market]
    exact h.left.step _
  · rw [Session.execute_market]
    exact h.right.step _
  · rw [← h.left.isSome_eq]
    exact hknown
  · rw [← h.right.isSome_eq]
    exact hknown'
  · rw [Session.execute_db_of_user db s rfl, Session.execute_db_of_user db t rfl]
    exact h.db

/-- Withdrawals of one offer. -/
theorem withdrawn (h : s.Alikes hidden t a b) {u u' i j : UInt64} (hij : i.toNat = j.toNat)
    (hown : s.market.Owns u.toNat i.toNat) (hown' : t.market.Owns u'.toNat j.toNat) :
    ∃ a' b', (Session.execute db s (.cancel u i)).2.Alikes hidden
      (Session.execute db t (.cancel u' j)).2 a' b' := by
  refine ⟨_, _, ?_, ?_, h.alike.erase i.toNat, ?_⟩
  · rw [Session.execute_market, ← withdraw_eq h.left hown]
    exact h.left.step _
  · rw [Session.execute_market, hij, ← withdraw_eq h.right hown']
    exact h.right.step _
  · rw [Session.execute_db_of_user db s rfl, Session.execute_db_of_user db t rfl]
    exact h.db

/-- Commands of hidden users of which the same is noticed. -/
theorem event (h : s.Alikes hidden t a b) {c c' : Command} {u u' : UInt64} (hu : c.user = some u)
    (hu' : c'.user = some u') (hh : hidden u.toNat = true) (hh' : hidden u'.toNat = true)
    {e : PublicEvent} (he : c.noticed s.market u = some e)
    (he' : c'.noticed t.market u' = some e) :
    (Session.execute db s c).1.isOk = (Session.execute db t c').1.isOk ∧
      ((Session.execute db s c).1.isOk → ∃ a' b',
        (Session.execute db s c).2.Alikes hidden (Session.execute db t c').2 a' b') := by
  rw [Session.execute_isOk db h.left, Session.execute_isOk db h.right,
    Session.answered_of_user hu, Session.answered_of_user hu']
  rcases Command.of_noticed_some hu he with ⟨hnone, rfl⟩ | ⟨hknown, hcase⟩
  · -- the server ends
    rcases Command.of_noticed_some hu' he' with
      ⟨hnone', -⟩ | ⟨-, ⟨_, _, _, -, hne⟩ | ⟨_, -, -, hne⟩⟩
    · simp [hnone, hnone']
    · cases hne
    · cases hne
  rcases Command.of_noticed_some hu' he' with ⟨-, rfl⟩ | ⟨hknown', hcase'⟩
  · rcases hcase with ⟨_, _, _, -, hne⟩ | ⟨_, -, -, hne⟩
    · cases hne
    · cases hne
  refine ⟨hknown.trans hknown'.symm, fun _ => ?_⟩
  rcases hcase with ⟨type, price, amount, rfl, rfl⟩ | ⟨i, rfl, hown, rfl⟩
  · rcases hcase' with ⟨_, _, _, rfl, heq⟩ | ⟨_, -, -, hne⟩
    · obtain ⟨rfl, rfl, rfl⟩ := PublicEvent.posted.inj heq
      exact h.posted db hh hh' hknown hknown' type price amount
    · cases hne
  · rcases hcase' with ⟨_, _, _, -, hne⟩ | ⟨j, rfl, hown', heq⟩
    · cases hne
    · exact h.withdrawn db (PublicEvent.withdrawn.inj heq) hown hown'

end Server.Alikes

end Servers

/-! Markets that show the same. -/

/-- The balance and the deals of a user, where they are shown. -/
def UserData.shown (hidden : Nat → Bool) (u : Nat) (d : UserData) :
    Option (Balance × List DealSeen) :=
  if hidden u then none else some (d.balance, d.closedDeals.elems.map fun x => x.view.seenBy u)

/-- The markets show the same while some users are hidden. -/
structure Market.Alike (hidden : Nat → Bool) (s t : Market) : Prop where
  users : ∀ u, (s.users.find? u).map (UserData.shown hidden u) =
    (t.users.find? u).map (UserData.shown hidden u)
  offers : ∀ w, (∃ v ∈ s.liveOffers, v.shown hidden = w) ↔ ∃ v ∈ t.liveOffers, v.shown hidden = w
  quote : s.quote = t.quote
  offerId : s.offerId = t.offerId
  userId : s.userId = t.userId

section Markets

variable {hidden : Nat → Bool} {s t : Market} {a b : Reference}

theorem Agrees.shown {d : UserData} {x : Account} (h : Agrees d x) (u : Nat) :
    x.shown hidden u = (d.shown hidden u).map fun p => (p.1.usd, p.1.rub, p.2) := by
  unfold Account.shown UserData.shown
  cases hidden u with
  | true => rfl
  | false =>
    simp only [Bool.false_eq_true, if_false, Option.map_some, h.usd, h.rub, ← h.deals,
      List.map_map]
    rfl

/-- Such markets stand for references that show the same. -/
theorem Market.Alike.reference (h : s.Alike hidden t) (hs : Stands s a) (ht : Stands t b) :
    Reference.Alike hidden a b where
  live := by
    apply KeySet.ext_mem
    intro w
    simp only [KeySet.mem_map, ← hs.mem_liveOffers, ← ht.mem_liveOffers]
    exact h.offers w
  accounts u := by
    have haccount : ∀ {m : Market} {r : Reference}, Stands m r →
        (r.accounts u).map (Account.shown hidden u) = ((m.users.find? u).map
          (UserData.shown hidden u)).map (Option.map fun p => (p.1.usd, p.1.rub, p.2)) := by
      intro m r hm
      cases hd : m.users.find? u with
      | none => rw [hm.sim.account_none hd]; rfl
      | some d =>
        obtain ⟨x, hx, hag⟩ := hm.sim.account_some hd
        rw [hx]
        exact congrArg some (hag.shown u)
    rw [haccount hs, haccount ht, h.users]
  quote := (hs.sim.quote.symm.trans h.quote).trans ht.sim.quote
  offerId := (hs.sim.offerId.symm.trans h.offerId).trans ht.sim.offerId
  userId := (hs.sim.userId.symm.trans h.userId).trans ht.sim.userId

end Markets

end ForexMarket
