import ForexMarket.Spec.Bounds
import ForexMarket.Spec.Shown

/- What calls that do not name a user change for that user. The user only stands by
   (`Stood`): the account changes by the deals the user is a party of, each made with one
   of the user's resting offers at its price, and the offers lose what those deals took.
   One trade is such a change, and such changes one after the other are one again. -/
namespace ForexMarket

open Sums

/-- The account of user `u` after some deals. -/
def Account.afterDeals (u : Nat) (x : Account) (ds : List DealView) : Account :=
  ds.foldl (fun x d => x.afterDeal u d) x

namespace Reference

/-- What the trades took from the resting offer under `p`. -/
def consumed (p : Nat) (ts : List TradeView) : Nat :=
  sumWhere (fun t => t.resting = p) (fun t => t.deal.amount) ts

/-- What the trades leave of a resting offer: one they took all from is gone. -/
structure Left (ts : List TradeView) (w v : OfferView) : Prop where
  eq : v = { w with amount := w.amount - consumed w.id ts }
  ne_zero : (∃ t ∈ ts, t.resting = w.id) → v.amount ≠ 0

/-- The trade is one of the resting offer, at its price and on its side of the deal. -/
structure Rested (u : Nat) (t : TradeView) (w : OfferView) : Prop where
  resting : t.resting = w.id
  price : t.deal.price = w.price
  buyer : t.deal.buyerId = u ↔ w.type = .BUY
  seller : t.deal.sellerId = u ↔ w.type = .SELL

/-- From `a` to `a'` the trades `ts` were made, and nothing else happened to user `u`. -/
structure Stood (u : Nat) (a a' : Reference) (ts : List TradeView) : Prop where
  trades : a'.trades = a.trades ++ ts
  account : a'.accounts u = (a.accounts u).map (·.afterDeals u (ts.map TradeView.deal))
  offers : ∀ v, v ∈ a'.live ∧ v.ownerId = u ↔ ∃ w ∈ a.live, w.ownerId = u ∧ Left ts w v
  deals : ∀ t ∈ ts, t.deal.buyerId = u ∨ t.deal.sellerId = u →
    ∃ w ∈ a.live, w.ownerId = u ∧ Rested u t w

section Left

variable {ts ts' : List TradeView} {v w : OfferView}

theorem left_nil_iff : Left [] w v ↔ v = w := by
  constructor
  · exact fun h => h.eq
  · rintro rfl
    exact ⟨rfl, fun ⟨t, ht, _⟩ => by cases ht⟩

/-- What first some trades and then others leave is what all of them leave. -/
theorem left_append_iff :
    Left (ts ++ ts') w v ↔ ∃ m, Left ts w m ∧ Left ts' m v := by
  have hsum : consumed w.id (ts ++ ts') = consumed w.id ts + consumed w.id ts' := sumWhere_append ..
  constructor
  · intro h
    have hle : v.amount ≤ w.amount - consumed w.id ts := by
      rw [h.eq, hsum]
      show w.amount - _ ≤ _
      omega
    refine ⟨{ w with amount := w.amount - consumed w.id ts }, ⟨rfl, fun ⟨t, ht, hid⟩ => ?_⟩,
      ⟨?_, fun ⟨t, ht, hid⟩ => h.ne_zero ⟨t, List.mem_append_right _ ht, hid⟩⟩⟩
    · have hv := h.ne_zero ⟨t, List.mem_append_left _ ht, hid⟩
      show w.amount - consumed w.id ts ≠ 0
      omega
    · rw [h.eq, hsum, Nat.sub_add_eq]
  · rintro ⟨m, ⟨rfl, hm⟩, ⟨rfl, hv⟩⟩
    refine ⟨by rw [hsum, Nat.sub_add_eq], ?_⟩
    rintro ⟨t, ht, hid⟩
    by_cases hlater : ∃ t ∈ ts', t.resting = w.id
    · exact hv hlater
    · -- the later trades took nothing from it
      have hnone : consumed w.id ts' = 0 :=
        sumWhere_of_none fun t ht => decide_eq_false fun e => hlater ⟨t, ht, e⟩
      have hfirst : ∃ t ∈ ts, t.resting = w.id := by
        rcases List.mem_append.mp ht with ht | ht
        · exact ⟨t, ht, hid⟩
        · exact absurd ⟨t, ht, hid⟩ hlater
      have hleft := hm hfirst
      show w.amount - consumed w.id ts - consumed w.id ts' ≠ 0
      rw [hnone, Nat.sub_zero]
      exact hleft

end Left

namespace Stood

variable {u : Nat} {a b c : Reference} {ts ts' : List TradeView}

/-- Nothing happened to the user when the account and the offers are the same. -/
theorem of_same (htrades : b.trades = a.trades) (haccount : b.accounts u = a.accounts u)
    (hoffers : ∀ v, v.ownerId = u → (v ∈ b.live ↔ v ∈ a.live)) : Stood u a b [] where
  trades := by rw [htrades, List.append_nil]
  account := by
    rw [haccount]
    cases a.accounts u <;> rfl
  offers v := by
    simp only [left_nil_iff]
    constructor
    · rintro ⟨hv, hu⟩
      exact ⟨v, (hoffers v hu).mp hv, hu, rfl⟩
    · rintro ⟨w, hw, hu, rfl⟩
      exact ⟨(hoffers v hu).mpr hw, hu⟩
  deals t ht := by cases ht

theorem refl (u : Nat) (a : Reference) : Stood u a a [] := of_same rfl rfl fun _ _ => Iff.rfl

theorem trans (h : Stood u a b ts) (h' : Stood u b c ts') : Stood u a c (ts ++ ts') where
  trades := by rw [h'.trades, h.trades, List.append_assoc]
  account := by
    rw [h'.account, h.account, Option.map_map]
    congr 1
    funext x
    simp only [Function.comp_apply, Account.afterDeals, List.map_append, List.foldl_append]
  offers v := by
    rw [h'.offers]
    simp only [left_append_iff]
    constructor
    · rintro ⟨m, hm, hu, hmv⟩
      obtain ⟨w, hw, hwu, hwm⟩ := (h.offers m).mp ⟨hm, hu⟩
      exact ⟨w, hw, hwu, m, hwm, hmv⟩
    · rintro ⟨w, hw, hwu, m, hwm, hmv⟩
      obtain ⟨hm, hu⟩ := (h.offers m).mpr ⟨w, hw, hwu, hwm⟩
      exact ⟨m, hm, hu, hmv⟩
  deals t ht hparty := by
    rcases List.mem_append.mp ht with ht | ht
    · exact h.deals t ht hparty
    · obtain ⟨m, hm, hu, hrested⟩ := h'.deals t ht hparty
      -- what rests later has rested from the start, with the same id, price and type
      obtain ⟨w, hw, hwu, hleft⟩ := (h.offers m).mp ⟨hm, hu⟩
      rw [hleft.eq] at hrested
      exact ⟨w, hw, hwu, hrested.resting, hrested.price, hrested.buyer, hrested.seller⟩

/-- A trade of someone else's incoming offer that the user is a party of is one of the user's
resting offer. -/
theorem rested {o r : OfferView} (hbest : a.best? o = some r) (ho : o.ownerId ≠ u)
    (hparty : (a.tradeOf o r).deal.buyerId = u ∨ (a.tradeOf o r).deal.sellerId = u) :
    r.ownerId = u ∧ Rested u (a.tradeOf o r) r := by
  obtain ⟨-, htype, -⟩ := best?_spec hbest
  cases hside : o.type with
  | BUY =>
    simp only [tradeOf, dealOf, hside, if_true, reduceCtorEq, if_false, ho, false_or] at hparty
    rw [hside] at htype
    refine ⟨hparty, rfl, rfl, ?_, ?_⟩
    · simp [tradeOf, dealOf, hside, ho, htype, OfferType.opposite]
    · simp [tradeOf, dealOf, hside, hparty, htype, OfferType.opposite]
  | SELL =>
    simp only [tradeOf, dealOf, hside, if_true, reduceCtorEq, if_false, ho, or_false] at hparty
    rw [hside] at htype
    refine ⟨hparty, rfl, rfl, ?_, ?_⟩
    · simp [tradeOf, dealOf, hside, hparty, htype, OfferType.opposite]
    · simp [tradeOf, dealOf, hside, ho, htype, OfferType.opposite]

/-- A trade of someone else's incoming offer. -/
theorem trade {o r : OfferView} (hbest : a.best? o = some r) (ho : o.ownerId ≠ u) :
    Stood u a (a.trade o r) [a.tradeOf o r] where
  trades := rfl
  account := rfl
  offers v := by
    have hr := best?_mem hbest
    have hconsumed : ∀ w : OfferView, consumed w.id [a.tradeOf o r] =
        if r.id = w.id then min o.amount r.amount else 0 := by
      intro w
      rw [consumed, sumWhere_cons, sumWhere_nil, Nat.add_zero]
      simp only [decide_eq_true_eq]
      rfl
    show v ∈ Reference.consume a.live r (min o.amount r.amount) ∧ _ ↔ _
    rw [mem_consume hr]
    constructor
    · rintro ⟨⟨hv, hne⟩ | ⟨rfl, h0⟩, hu⟩
      · refine ⟨v, hv, hu, ⟨?_, ?_⟩⟩
        · rw [hconsumed, if_neg (Ne.symm hne)]
          rfl
        · rintro ⟨t, ht, hid⟩
          rw [List.mem_singleton.mp ht] at hid
          exact absurd hid.symm hne
      · refine ⟨r, hr, hu, ⟨?_, fun _ => h0⟩⟩
        rw [hconsumed, if_pos rfl]
    · rintro ⟨w, hw, hu, ⟨rfl, hleft⟩⟩
      refine ⟨?_, hu⟩
      rw [hconsumed] at hleft ⊢
      by_cases hid : r.id = w.id
      · obtain rfl : r = w := KeySet.key_inj hr hw hid
        rw [if_pos rfl] at hleft ⊢
        exact .inr ⟨rfl, hleft ⟨_, List.mem_singleton_self _, rfl⟩⟩
      · rw [if_neg hid]
        exact .inl ⟨hw, Ne.symm hid⟩
  deals t ht hparty := by
    rw [List.mem_singleton.mp ht] at hparty ⊢
    obtain ⟨hu, hrested⟩ := rested hbest ho hparty
    exact ⟨r, best?_mem hbest, hu, hrested⟩

/-- All trades of someone else's incoming offer. -/
theorem post {o : OfferView} (h : Matches a o ts b) (ho : o.ownerId ≠ u) : Stood u a b ts := by
  induction h with
  | @rest a o hnone =>
    refine of_same (a := a) rfl rfl fun v hv => ?_
    show v ∈ a.live.insert o ↔ v ∈ a.live
    rw [KeySet.mem_insert]
    constructor
    · rintro (hv | ⟨rfl, -⟩)
      · exact hv
      · exact absurd hv ho
    · exact .inl
  | fill hbest _ => exact trade hbest ho
  | more hbest _ _ ih => exact (trade hbest ho).trans (ih ho)

/-- A call that does not name a registered user. -/
theorem move {op : Op} {r : Reply} (hm : Moves a op r b) (hw : WellFormed a)
    (hreg : (a.accounts u).isSome) (hop : op.user ≠ some u) : ∃ ts, Stood u a b ts := by
  cases hm with
  | stay hr hpost => exact ⟨[], refl u a⟩
  | register username =>
    refine ⟨[], of_same rfl (Function.update_of_ne ?_ _ _) fun _ _ => Iff.rfl⟩
    exact (hw.account_lt u hreg).ne
  | depositUSD amount hx =>
    refine ⟨[], of_same rfl (Function.update_of_ne ?_ _ _) fun _ _ => Iff.rfl⟩
    rintro rfl
    exact hop rfl
  | depositRUB amount hx =>
    refine ⟨[], of_same rfl (Function.update_of_ne ?_ _ _) fun _ _ => Iff.rfl⟩
    rintro rfl
    exact hop rfl
  | lost type price amount hx => exact ⟨[], of_same rfl rfl fun _ _ => Iff.rfl⟩
  | @post v x ts b type price amount hx hm =>
    have hstood := post (u := u) hm fun e => hop (congrArg some e)
    exact ⟨ts, hstood.trades, hstood.account, hstood.offers, hstood.deals⟩
  | @cancel v hv =>
    refine ⟨[], of_same rfl rfl fun w hw => ?_⟩
    show w ∈ a.live.erase v.id ↔ w ∈ a.live
    rw [KeySet.mem_erase]
    refine ⟨And.left, fun hmem => ⟨hmem, fun hid => ?_⟩⟩
    rw [KeySet.key_inj hmem hv hid] at hw
    exact hop (congrArg some hw)

end Stood

/-! The balances of someone who stood by. -/

theorem afterDeals_eq (u : Nat) (x : Account) (ds : List DealView) :
    (x.afterDeals u ds).usd = x.usd + usdOf u ds ∧ (x.afterDeals u ds).rub = x.rub + rubOf u ds ∧
      (x.afterDeals u ds).deals =
        x.deals ++ ds.filter (fun d => u = d.buyerId ∨ u = d.sellerId) := by
  induction ds using List.reverseRecOn with
  | nil => simp [Account.afterDeals, usdOf, rubOf, bought, sold, earned, paid]
  | append_singleton ds d ih =>
    obtain ⟨husd, hrub, hdeals⟩ := ih
    have hlast : x.afterDeals u (ds ++ [d]) = (x.afterDeals u ds).afterDeal u d := by
      simp [Account.afterDeals]
    have hb : u = d.buyerId ↔ d.buyerId = u := eq_comm
    have hs : u = d.sellerId ↔ d.sellerId = u := eq_comm
    rw [hlast, usdOf_concat, rubOf_concat, List.filter_append]
    simp only [Account.afterDeal, husd, hrub, hdeals]
    refine ⟨?_, ?_, ?_⟩
    · simp only [hb, hs]
      omega
    · simp only [hb, hs]
      omega
    · by_cases hparty : u = d.buyerId ∨ u = d.sellerId
      · simp [hparty]
      · simp [hparty]

end Reference

end ForexMarket
