import ForexMarket.Lib.KeyMap
import ForexMarket.Spec.Laws

/- Several accounts kept as one. `f` says which account each user trades through. The market
   matches offers by type, price and age and never looks at whose they are, so a reference in
   which every user does so makes the deals it would have made, with the parties under their
   new names (`Merged.step`). An account is a sum of entries, so the one account holds what
   the accounts of its users add up to (`sum_depositedTo`). -/
namespace ForexMarket

open Sums

variable {f : Nat → Nat}

def OfferView.merge (f : Nat → Nat) (v : OfferView) : OfferView :=
  { v with ownerId := f v.ownerId }

def DealView.merge (f : Nat → Nat) (d : DealView) : DealView :=
  { d with sellerId := f d.sellerId, buyerId := f d.buyerId }

def TradeView.merge (f : Nat → Nat) (t : TradeView) : TradeView :=
  { t with deal := t.deal.merge f }

/-- The call through the account that `f` names. -/
def Op.merge (f : Nat → Nat) : Op → Op
  | .postOffer u type price amount => .postOffer (f u) type price amount
  | .removeOffer u id => .removeOffer (f u) id
  | .depositUSD u amount => .depositUSD (f u) amount
  | .depositRUB u amount => .depositRUB (f u) amount
  | op => op

/-- Calls whose answer is about one account. -/
def Op.isPrivate : Op → Bool
  | .getUserBalance _ | .getActiveOffers _ | .getClosedDeals _ => true
  | _ => false

namespace Reference

/-- The user of the call is registered if the account is, and cancels no offer that somebody else
has posted through it. -/
def Apart (f : Nat → Nat) (a : Reference) : Op → Prop
  | .postOffer u .. | .depositUSD u _ | .depositRUB u _ =>
    (a.accounts (f u)).isSome = (a.accounts u).isSome
  | .removeOffer u i =>
    (a.accounts (f u)).isSome = (a.accounts u).isSome ∧
      ∀ v ∈ a.live, v.id = i → f v.ownerId = f u → v.ownerId = u
  | _ => True

/-- Renaming the owners as a map of live lists. -/
def mergeMap (f : Nat → Nat) : KeyMap OfferView.id OfferView.id where
  elem := OfferView.merge f
  onKey i := id i
  mono _ _ h := h
  key_elem _ := rfl

/-- In `b` every user of `a` trades through the account that `f` names. -/
structure Merged (f : Nat → Nat) (a b : Reference) : Prop where
  live : b.live = a.live.map (mergeMap f)
  registered : ∀ u, (b.accounts u).isSome = (a.accounts u).isSome
  quote : b.quote = a.quote
  offerId : b.offerId = a.offerId
  dealId : b.dealId = a.dealId
  userId : b.userId = a.userId
  trades : b.trades = a.trades.map (TradeView.merge f)

namespace Merged

variable {a b : Reference} {o r : OfferView}

theorem empty (f : Nat → Nat) (offerId dealId userId : Nat) :
    Merged f (.empty offerId dealId userId) (.empty offerId dealId userId) :=
  ⟨rfl, fun _ => rfl, rfl, rfl, rfl, rfl, rfl⟩

theorem best? (h : Merged f a b) (o : OfferView) :
    b.best? (o.merge f) = (a.best? o).map (OfferView.merge f) := by
  unfold Reference.best?
  rw [h.live, KeySet.elems_map]
  exact Select.best?_map (fun _ _ => rfl) fun _ _ _ _ => Iff.rfl

theorem consume (live : KeySet OfferView OfferView.id) (r : OfferView) (n : Nat) :
    Reference.consume (live.map (mergeMap f)) (r.merge f) n =
      (Reference.consume live r n).map (mergeMap f) := by
  unfold Reference.consume
  split
  · next h0 => rw [if_pos (show r.amount - n = 0 from h0), KeySet.map_erase]; rfl
  · next h0 => rw [if_neg (show ¬ r.amount - n = 0 from h0), KeySet.map_store]; rfl

theorem dealOf (h : Merged f a b) (o r : OfferView) :
    b.dealOf (o.merge f) (r.merge f) = (a.dealOf o r).merge f := by
  unfold Reference.dealOf
  rw [h.dealId]
  cases ho : o.type <;> simp [DealView.merge, OfferView.merge, ho]

theorem trade (h : Merged f a b) (o r : OfferView) :
    Merged f (a.trade o r) (b.trade (o.merge f) (r.merge f)) where
  live := by
    show Reference.consume b.live _ _ = _
    rw [h.live]
    exact consume _ _ _
  registered u := by
    simp only [Reference.trade, settle, Option.isSome_map]
    exact h.registered u
  quote := rfl
  offerId := h.offerId
  dealId := congrArg (· + 1) h.dealId
  userId := h.userId
  trades := by
    simp only [Reference.trade, tradeOf, h.dealOf, h.trades, List.map_append, List.map_singleton]
    rfl

/-- An incoming offer, by induction on the trades it makes. -/
theorem matchOffer (h : Merged f a b) (hfresh : ∀ v ∈ a.live, v.id ≠ o.id) :
    Merged f (a.matchOffer o) (b.matchOffer (o.merge f)) := by
  induction a, o using matchOffer.induct generalizing b with
  | case1 a o hbest =>
    have hbest' : b.best? (o.merge f) = none := by rw [h.best?, hbest]; rfl
    rw [matchOffer_of_none hbest, matchOffer_of_none hbest']
    refine ⟨?_, h.registered, h.quote, h.offerId, h.dealId, h.userId, h.trades⟩
    show b.live.insert _ = (a.live.insert o).map (mergeMap f)
    rw [h.live, KeySet.map_insert hfresh]
    rfl
  | case2 a o r hbest hr =>
    have hbest' : b.best? (o.merge f) = some (r.merge f) := by rw [h.best?, hbest]; rfl
    have hr' : (remainder (o.merge f) (r.merge f)).amount = 0 := hr
    rw [matchOffer_of_some hbest, matchOffer_of_some hbest', if_pos hr, if_pos hr']
    exact h.trade o r
  | case3 a o r hbest hr ih =>
    have hbest' : b.best? (o.merge f) = some (r.merge f) := by rw [h.best?, hbest]; rfl
    have hr' : (remainder (o.merge f) (r.merge f)).amount ≠ 0 := hr
    rw [matchOffer_of_some hbest, matchOffer_of_some hbest', if_neg hr, if_neg hr']
    refine ih (h.trade o r) fun v hv => ?_
    rcases (mem_consume (best?_mem hbest)).mp hv with ⟨hv, -⟩ | ⟨rfl, -⟩
    · exact hfresh v hv
    · exact hfresh r (best?_mem hbest)

/-! The calls. -/

/-- A call that is not private gets the same answer, and the references stay in step. -/
def Follows (f : Nat → Nat) (a b : Reference) (op : Op) : Prop :=
  (op.isPrivate = false → (b.step (op.merge f)).1 = (a.step op).1) ∧
    Merged f (a.step op).2 (b.step (op.merge f)).2

/-- The account is registered if the user is. -/
theorem account (h : Merged f a b) {u : Nat}
    (hu : (a.accounts (f u)).isSome = (a.accounts u).isSome) :
    (a.accounts u = none ∧ b.accounts (f u) = none) ∨
      ∃ x y, a.accounts u = some x ∧ b.accounts (f u) = some y := by
  have hb := (h.registered (f u)).trans hu
  cases hx : a.accounts u with
  | none =>
    rw [hx] at hb
    exact .inl ⟨rfl, Option.isNone_iff_eq_none.mp (by simpa using hb)⟩
  | some x =>
    rw [hx] at hb
    obtain ⟨y, hy⟩ := Option.isSome_iff_exists.mp hb
    exact .inr ⟨x, y, rfl, hy⟩

theorem writeUser (h : Merged f a b) {u : Nat}
    (hu : (a.accounts (f u)).isSome = (a.accounts u).isSome) (g : Account → Account) :
    (b.writeUser (f u) g).1 = (a.writeUser u g).1 ∧
      Merged f (a.writeUser u g).2 (b.writeUser (f u) g).2 := by
  unfold Reference.writeUser
  obtain ⟨hx, hy⟩ | ⟨x, y, hx, hy⟩ := h.account hu
  · rw [hx, hy]
    exact ⟨rfl, h⟩
  · rw [hx, hy]
    refine ⟨rfl, { h with registered := fun v => ?_ }⟩
    dsimp only
    rw [isSome_update hx, isSome_update hy, h.registered]

theorem readUser {op : Op} (h : Merged f a b) (hop : op.isPrivate = true)
    (ha : (a.step op).2 = a) (hb : (b.step (op.merge f)).2 = b) : Follows f a b op := by
  refine ⟨fun hnot => ?_, ?_⟩
  · rw [hop] at hnot
    cases hnot
  · rw [ha, hb]
    exact h

theorem prices (h : Merged f a b) (t : OfferType) :
    (b.live.elems.filter (fun o => o.type = t)).map OfferView.price =
      (a.live.elems.filter (fun o => o.type = t)).map OfferView.price := by
  rw [h.live, KeySet.elems_map, List.filter_map, List.map_map]
  rfl

theorem postOffer (h : Merged f a b) (hfresh : ∀ v ∈ a.live, v.id ≠ a.offerId) {u : Nat}
    (hu : (a.accounts (f u)).isSome = (a.accounts u).isSome) (type : OfferType) (price : Int)
    (amount : UInt64) : Follows f a b (.postOffer u type price amount) := by
  have hconstruct : Merged f { a with offerId := a.offerId + 1 }
      { b with offerId := b.offerId + 1 } :=
    { h with offerId := congrArg (· + 1) h.offerId }
  unfold Follows
  obtain ⟨hx, hy⟩ | ⟨x, y, hx, hy⟩ := h.account hu
  · simp only [Op.merge, Reference.step, hx, hy]
    exact ⟨fun _ => trivial, hconstruct⟩
  · simp only [Op.merge, Reference.step, hx, hy, h.offerId]
    refine ⟨fun _ => trivial, ?_⟩
    have hmatch := hconstruct.matchOffer
      (o := { id := a.offerId, ownerId := u, type := type, price := price,
              amount := amount.toNat }) hfresh
    rw [h.offerId] at hmatch
    exact hmatch

theorem removeOffer (h : Merged f a b) {u i : Nat} (hapart : a.Apart f (.removeOffer u i)) :
    Follows f a b (.removeOffer u i) := by
  obtain ⟨hu, hown⟩ := hapart
  unfold Follows
  obtain ⟨hx, hy⟩ | ⟨x, y, hx, hy⟩ := h.account hu
  · simp only [Op.merge, Reference.step, hx, hy]
    exact ⟨fun _ => trivial, h⟩
  · have hany : (b.live.find? i).any (fun o => o.ownerId = f u) =
        (a.live.find? i).any (fun o => o.ownerId = u) := by
      have hfind : b.live.find? i = (a.live.find? i).map (OfferView.merge f) := by
        rw [h.live]
        exact KeySet.find?_map i
      rw [hfind]
      cases hv : a.live.find? i with
      | none => rfl
      | some v =>
        obtain ⟨hv, hid⟩ := KeySet.find?_eq_some.mp hv
        have howner : f v.ownerId = f u ↔ v.ownerId = u := ⟨hown v hv hid, congrArg f⟩
        simp [OfferView.merge, howner]
    simp only [Op.merge, Reference.step, hx, hy, hany]
    split
    · refine ⟨fun _ => rfl, { h with live := ?_ }⟩
      show b.live.erase i = _
      rw [h.live]
      exact (KeySet.map_erase i).symm
    · exact ⟨fun _ => rfl, h⟩

/-- A call through another account makes the same deals. -/
theorem step (h : Merged f a b) (hw : a.WellFormed) {op : Op} (hapart : a.Apart f op) :
    Follows f a b op := by
  cases op with
  | registerUser username exist =>
    unfold Follows
    cases exist with
    | true => exact ⟨fun _ => rfl, h⟩
    | false =>
      simp only [Op.merge, Reference.step, Bool.false_eq_true, if_false, h.userId]
      refine ⟨fun _ => trivial, { h with userId := rfl, registered := fun v => ?_ }⟩
      simp only [Function.update_apply]
      split
      · rfl
      · exact h.registered v
  | depositUSD u amount =>
    have hwrite := h.writeUser hapart fun x => { x with usd := x.usd + amount.toNat }
    exact ⟨fun _ => hwrite.1, hwrite.2⟩
  | depositRUB u amount =>
    have hwrite := h.writeUser hapart fun x => { x with rub := x.rub + amount.toNat }
    exact ⟨fun _ => hwrite.1, hwrite.2⟩
  | getUserBalance u => exact h.readUser rfl (readUser_snd a u _) (readUser_snd b u _)
  | getActiveOffers u => exact h.readUser rfl (readUser_snd a u _) (readUser_snd b u _)
  | getClosedDeals u => exact h.readUser rfl (readUser_snd a u _) (readUser_snd b u _)
  | postOffer u type price amount => exact h.postOffer hw.fresh hapart type price amount
  | removeOffer u i => exact h.removeOffer hapart
  | getQuote => exact ⟨fun _ => congrArg Reply.quote h.quote, h⟩
  | getAskBidQuotes =>
    refine ⟨fun _ => ?_, h⟩
    have hask : b.askQuote = a.askQuote := congrArg List.min? (h.prices .BUY)
    have hbid : b.bidQuote = a.bidQuote := congrArg List.max? (h.prices .SELL)
    simp only [Op.merge, Reference.step, hask, hbid]

/-! Runs. -/

/-- The entry with the account that `f` names. -/
abbrev mergeEntry (f : Nat → Nat) (e : Nat × Int) : Nat × Int := (f e.1, e.2)

/-- A deposit that gets the same answer goes to the account of the user. -/
theorem depositUSDOf_merge {op : Op} {r r' : Reply} (h : op.isPrivate = false → r' = r) :
    History.depositUSDOf (op.merge f, r') = (History.depositUSDOf (op, r)).map (mergeEntry f) := by
  cases op with
  | depositUSD u amount => rw [h rfl]; cases r <;> rfl
  | _ => cases r <;> cases r' <;> rfl

theorem depositRUBOf_merge {op : Op} {r r' : Reply} (h : op.isPrivate = false → r' = r) :
    History.depositRUBOf (op.merge f, r') = (History.depositRUBOf (op, r)).map (mergeEntry f) := by
  cases op with
  | depositRUB u amount => rw [h rfl]; cases r <;> rfl
  | _ => cases r <;> cases r' <;> rfl

/-- After a run through the accounts the references are in step, and the same was deposited. -/
theorem run (h : Merged f a b) (hw : a.WellFormed) {ops : List Op}
    (hapart : Machine.Along Reference.step (Apart f) a ops) :
    Merged f (Machine.exec Reference.step a ops)
        (Machine.exec Reference.step b (ops.map (Op.merge f))) ∧
      History.depositsUSD (Machine.history Reference.step b (ops.map (Op.merge f))) =
        (History.depositsUSD (Machine.history Reference.step a ops)).map (mergeEntry f) ∧
      History.depositsRUB (Machine.history Reference.step b (ops.map (Op.merge f))) =
        (History.depositsRUB (Machine.history Reference.step a ops)).map (mergeEntry f) := by
  induction ops generalizing a b with
  | nil => exact ⟨h, rfl, rfl⟩
  | cons op ops ih =>
    obtain ⟨hreply, hafter⟩ := h.step hw hapart.1
    obtain ⟨hrun, husd, hrub⟩ := ih hafter (hw.move (a.step_moves op)) hapart.2
    rw [List.map_cons, Machine.history_cons, Machine.history_cons]
    refine ⟨hrun, ?_, ?_⟩
    · simp only [History.depositsUSD, List.filterMap_cons, depositUSDOf_merge hreply] at husd ⊢
      cases History.depositUSDOf (op, (a.step op).1) with
      | none => exact husd
      | some e => exact congrArg (mergeEntry f e :: ·) husd
    · simp only [History.depositsRUB, List.filterMap_cons, depositRUBOf_merge hreply] at hrub ⊢
      cases History.depositRUBOf (op, (a.step op).1) with
      | none => exact hrub
      | some e => exact congrArg (mergeEntry f e :: ·) hrub

end Merged

/-! Accounts as sums of entries. -/

/-- What a deal moves in USD. -/
def usdEntries (d : DealView) : List (Nat × Int) := [(d.buyerId, d.amount), (d.sellerId, -d.amount)]

/-- What a deal moves in RUB. -/
def rubEntries (d : DealView) : List (Nat × Int) :=
  [(d.buyerId, -(d.amount * d.price)), (d.sellerId, d.amount * d.price)]

theorem depositedTo_usdEntries (u : Nat) (ds : List DealView) :
    depositedTo u (ds.flatMap usdEntries) = bought u ds - sold u ds := by
  induction ds with
  | nil => rfl
  | cons d ds ih =>
    rw [List.flatMap_cons, depositedTo_append, ih]
    simp only [depositedTo, usdEntries, bought, sold, sumWhere_cons, sumWhere_nil,
      decide_eq_true_eq]
    split_ifs <;> omega

theorem depositedTo_rubEntries (u : Nat) (ds : List DealView) :
    depositedTo u (ds.flatMap rubEntries) = earned u ds - paid u ds := by
  induction ds with
  | nil => rfl
  | cons d ds ih =>
    rw [List.flatMap_cons, depositedTo_append, ih]
    simp only [depositedTo, rubEntries, earned, paid, sumWhere_cons, sumWhere_nil,
      decide_eq_true_eq]
    split_ifs <;> omega

/-- The accounts of those who trade through `v` add up to what the entries make of it. -/
theorem sum_depositedTo {U : List Nat} (hU : U.Nodup) {l : List (Nat × Int)}
    (hl : ∀ e ∈ l, e.1 ∈ U) (v : Nat) :
    ((U.filter (f · = v)).map fun u => depositedTo u l).sum =
      depositedTo v (l.map (Merged.mergeEntry f)) := by
  have hclass : ∀ u ∈ U.filter (f · = v), depositedTo u l =
      sumWhere (fun e => e.1 = u) Prod.snd (l.filter (f ·.1 = v)) := by
    intro u hu
    have hv : f u = v := of_decide_eq_true (List.mem_filter.mp hu).2
    refine (sumWhere_filter (fun e he => ?_) l).symm
    rw [decide_eq_true_eq] at he ⊢
    rw [he, hv]
  have hmem : ∀ e ∈ l.filter (f ·.1 = v), e.1 ∈ U.filter (f · = v) := by
    intro e he
    obtain ⟨he, hv⟩ := List.mem_filter.mp he
    exact List.mem_filter.mpr ⟨hl e he, hv⟩
  calc ((U.filter (f · = v)).map fun u => depositedTo u l).sum
      = ((U.filter (f · = v)).map fun u =>
          sumWhere (fun e => e.1 = u) Prod.snd (l.filter (f ·.1 = v))).sum := by
        rw [List.map_congr_left hclass]
    _ = ((l.filter (f ·.1 = v)).map Prod.snd).sum := sum_classes Prod.fst (hU.filter _) hmem
    _ = depositedTo v (l.map (Merged.mergeEntry f)) := by
        rw [depositedTo, sumWhere, List.filter_map, List.map_map]
        rfl

/-- The entries of all accounts: the deposits and what the deals moved. -/
def entriesOf (deposits : List (Nat × Int)) (moved : DealView → List (Nat × Int)) (a : Reference) :
    List (Nat × Int) :=
  deposits ++ (a.trades.map TradeView.deal).flatMap moved

variable {a b : Reference} {h : History} {u : Nat} {x : Account}
  {deposits : List (Nat × Int)} {moved : DealView → List (Nat × Int)}

/-- Over the deals of a user or over all deals, what that user is a party of sums to the same. -/
theorem WellFormed.sumWhere_deals (hw : a.WellFormed) (hx : a.accounts u = some x)
    {p : DealView → Bool} (hp : ∀ d, p d = true → u = d.buyerId ∨ u = d.sellerId)
    (g : DealView → Int) : sumWhere p g x.deals = sumWhere p g (a.trades.map TradeView.deal) := by
  rw [hw.deals u x hx]
  exact sumWhere_filter (fun d hd => decide_eq_true (hp d hd)) _

/-- An account holds what its entries come to. -/
theorem Ledger.entries (hl : a.Ledger h) (hw : a.WellFormed) (hx : a.accounts u = some x) :
    x.usd = depositedTo u (entriesOf h.depositsUSD usdEntries a) ∧
      x.rub = depositedTo u (entriesOf h.depositsRUB rubEntries a) := by
  have hbuyer (g : DealView → Int) := hw.sumWhere_deals hx (p := fun d => d.buyerId = u)
    (fun d hd => .inl (of_decide_eq_true hd).symm) g
  have hseller (g : DealView → Int) := hw.sumWhere_deals hx (p := fun d => d.sellerId = u)
    (fun d hd => .inr (of_decide_eq_true hd).symm) g
  constructor
  · rw [(hl.balanced u x hx).usd, bought, sold, hbuyer, hseller, entriesOf, depositedTo_append,
      depositedTo_usdEntries, bought, sold, add_sub_assoc]
  · rw [(hl.balanced u x hx).rub, paid, earned, hbuyer, hseller, entriesOf, depositedTo_append,
      depositedTo_rubEntries, paid, earned]
    omega

/-- The entries are of registered users. -/
theorem WellFormed.registered (hw : a.WellFormed)
    (hdeposits : ∀ e ∈ deposits, (a.accounts e.1).isSome)
    (hmoved : ∀ d, ∀ e ∈ moved d, e.1 = d.buyerId ∨ e.1 = d.sellerId) :
    ∀ e ∈ entriesOf deposits moved a, (a.accounts e.1).isSome := by
  intro e he
  rcases List.mem_append.mp he with he | he
  · exact hdeposits e he
  · obtain ⟨d, hd, he⟩ := List.mem_flatMap.mp he
    obtain ⟨t, ht, rfl⟩ := List.mem_map.mp hd
    obtain ⟨hbuyer, hseller⟩ := hw.trade_party t ht
    rcases hmoved t.deal e he with hparty | hparty
    · rw [hparty]
      exact hbuyer
    · rw [hparty]
      exact hseller

/-- The entries of the accounts are those of the users under the new names. -/
theorem Merged.entriesOf (h : Merged f a b)
    (hmoved : ∀ d, moved (d.merge f) = (moved d).map (mergeEntry f)) :
    Reference.entriesOf (deposits.map (mergeEntry f)) moved b =
      (Reference.entriesOf deposits moved a).map (mergeEntry f) := by
  have hviews : (a.trades.map (TradeView.merge f)).map TradeView.deal =
      (a.trades.map TradeView.deal).map (DealView.merge f) := by
    rw [List.map_map, List.map_map]
    rfl
  rw [Reference.entriesOf, Reference.entriesOf, h.trades, hviews, List.flatMap_map,
    List.map_append, List.map_flatMap]
  simp only [hmoved]

/-- The ledger holds after every run. -/
theorem ledger_run (offerId dealId userId : Nat) (ops : List Op) :
    (Machine.exec step (empty offerId dealId userId) ops).Ledger
      (Machine.history step (empty offerId dealId userId) ops) := by
  have hinv : (Machine.exec step (empty offerId dealId userId) ops).WellFormed ∧
      (Machine.exec step (empty offerId dealId userId) ops).Ledger
        ([] ++ Machine.history step (empty offerId dealId userId) ops) :=
    Machine.exec_inv_history (I := fun h (a : Reference) => a.WellFormed ∧ a.Ledger h)
      (fun h a op ⟨hw, hl⟩ _ => ⟨hw.move (a.step_moves op), hl.move hw (a.step_moves op)⟩)
      ⟨.empty offerId dealId userId, .empty offerId dealId userId⟩ (Machine.along_true _ ops)
  exact hinv.2

end Reference

end ForexMarket
