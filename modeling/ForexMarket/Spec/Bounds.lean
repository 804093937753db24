import ForexMarket.Spec.Laws

/- The exact balances that a list of deals comes to, one deal after the other, and
   whether they stay signed 32-bit integers at every leg of every deal. Where nothing is
   deposited the accounts of the reference hold the balances its deals come to
   (`Undeposited`), within a call too; where every posted price is an `int`, so is every
   price there is (`IntPrices`). -/
namespace ForexMarket

open Sums Wrap

namespace Reference

/-- The USD the deals come to for the user. -/
def usdOf (u : Nat) (ds : List DealView) : Int := bought u ds - sold u ds

/-- The RUB the deals come to for the user. -/
def rubOf (u : Nat) (ds : List DealView) : Int := earned u ds - paid u ds

/-- After the deals `ds` each leg of `d` leaves a balance that fits, the buyer's coming first. The
legs of a seller who is the buyer lead back to the balances before the deal. -/
def DealFits (ds : List DealView) (d : DealView) : Prop :=
  Fits32 (usdOf d.buyerId ds + d.amount) ∧ Fits32 (rubOf d.buyerId ds - d.amount * d.price) ∧
    (d.sellerId ≠ d.buyerId → Fits32 (usdOf d.sellerId ds - d.amount) ∧
      Fits32 (rubOf d.sellerId ds + d.amount * d.price))

/-- The deals fit one after the other, the deals `ds` having been made before. -/
def DealsFit : List DealView → List DealView → Prop
  | _, [] => True
  | ds, d :: rest => DealFits ds d ∧ DealsFit (ds ++ [d]) rest

instance (ds : List DealView) (d : DealView) : Decidable (DealFits ds d) :=
  inferInstanceAs (Decidable (_ ∧ _ ∧ (_ → _)))

instance DealsFit.decidable : (ds rest : List DealView) → Decidable (DealsFit ds rest)
  | _, [] => .isTrue trivial
  | ds, d :: rest =>
    have := DealsFit.decidable (ds ++ [d]) rest
    inferInstanceAs (Decidable (DealFits ds d ∧ DealsFit (ds ++ [d]) rest))

/-- The balances of every user fit after the deals. -/
def BalancesFit (ds : List DealView) : Prop := ∀ u, Fits32 (usdOf u ds) ∧ Fits32 (rubOf u ds)

theorem balancesFit_nil : BalancesFit [] := by
  intro u
  simp only [usdOf, rubOf, bought, sold, earned, paid, sumWhere_nil]
  decide

theorem usdOf_concat (u : Nat) (ds : List DealView) (d : DealView) :
    usdOf u (ds ++ [d]) = usdOf u ds + (if d.buyerId = u then (d.amount : Int) else 0)
      - (if d.sellerId = u then (d.amount : Int) else 0) := by
  simp only [usdOf, bought, sold, sumWhere_append, sumWhere_cons, sumWhere_nil, decide_eq_true_eq]
  omega

theorem rubOf_concat (u : Nat) (ds : List DealView) (d : DealView) :
    rubOf u (ds ++ [d]) = rubOf u ds - (if d.buyerId = u then (d.amount * d.price : Int) else 0)
      + (if d.sellerId = u then (d.amount * d.price : Int) else 0) := by
  simp only [rubOf, earned, paid, sumWhere_append, sumWhere_cons, sumWhere_nil, decide_eq_true_eq]
  omega

/-- Balances that fit before a deal that fits do so after it. -/
theorem BalancesFit.concat {ds : List DealView} {d : DealView} (h : BalancesFit ds)
    (hd : DealFits ds d) : BalancesFit (ds ++ [d]) := by
  intro u
  obtain ⟨husd, hrub⟩ := h u
  obtain ⟨hbu, hbr, hseller⟩ := hd
  rw [usdOf_concat, rubOf_concat]
  by_cases hb : d.buyerId = u
  · by_cases hs : d.sellerId = u
    · simp only [if_pos hb, if_pos hs, add_sub_cancel_right, sub_add_cancel]
      exact ⟨husd, hrub⟩
    · simp only [if_pos hb, if_neg hs, sub_zero, add_zero]
      rw [hb] at hbu hbr
      exact ⟨hbu, hbr⟩
  · by_cases hs : d.sellerId = u
    · simp only [if_neg hb, if_pos hs, sub_zero, add_zero]
      obtain ⟨hsu, hsr⟩ := hseller fun e => hb (by rw [← e, hs])
      rw [hs] at hsu hsr
      exact ⟨hsu, hsr⟩
    · simp only [if_neg hb, if_neg hs, sub_zero, add_zero]
      exact ⟨husd, hrub⟩

/-! Accounts without deposits. -/

/-- The deals made. -/
def dealList (a : Reference) : List DealView := a.trades.map TradeView.deal

/-- The accounts hold what the deals come to. -/
def Undeposited (a : Reference) : Prop :=
  ∀ u x, a.accounts u = some x → x.usd = usdOf u a.dealList ∧ x.rub = rubOf u a.dealList

theorem dealList_trade (a : Reference) (o r : OfferView) :
    (a.trade o r).dealList = a.dealList ++ [a.dealOf o r] := by
  simp [dealList, trade, tradeOf]

namespace Undeposited

variable {a a' : Reference} {o r : OfferView}

theorem trade (h : Undeposited a) (o r : OfferView) : Undeposited (a.trade o r) := by
  intro u x hx
  obtain ⟨y, hy, rfl⟩ := Option.map_eq_some_iff.mp hx
  obtain ⟨husd, hrub⟩ := h u y hy
  have hb : u = (a.dealOf o r).buyerId ↔ (a.dealOf o r).buyerId = u := eq_comm
  have hs : u = (a.dealOf o r).sellerId ↔ (a.dealOf o r).sellerId = u := eq_comm
  rw [dealList_trade, usdOf_concat, rubOf_concat]
  simp only [Account.afterDeal, husd, hrub, hb, hs]
  exact ⟨trivial, trivial⟩

theorem post (h : Undeposited a) {ts : List TradeView} (hm : Matches a o ts a') :
    Undeposited a' := by
  induction hm with
  | rest _ => exact h
  | fill _ _ => exact h.trade _ _
  | more _ _ _ ih => exact ih (h.trade _ _)

/-- Every call but a deposit keeps it. -/
theorem move {op : Op} {r : Reply} (h : Undeposited a) (hw : WellFormed a) (hm : Moves a op r a')
    (hop : op.served = true) : Undeposited a' := by
  cases hm with
  | stay _ _ => exact h
  | depositUSD amount hx => cases hop
  | depositRUB amount hx => cases hop
  | lost type price amount hx => exact h
  | cancel hv => exact h
  | post type price amount hx hm => exact post (a := { a with offerId := a.offerId + 1 }) h hm
  | register username =>
    intro u x hx
    simp only [Function.update_apply] at hx
    split at hx
    · next hu =>
      -- a new user is a party of no deal
      have hnone : ∀ d ∈ a.dealList, d.buyerId ≠ a.userId ∧ d.sellerId ≠ a.userId := by
        intro d hd
        obtain ⟨t, ht, rfl⟩ := List.mem_map.mp hd
        obtain ⟨hb, hs⟩ := hw.trade_party t ht
        exact ⟨(hw.account_lt _ hb).ne, (hw.account_lt _ hs).ne⟩
      rw [← Option.some.inj hx, hu]
      have hb : ∀ d ∈ a.dealList, decide (d.buyerId = a.userId) = false :=
        fun d hd => decide_eq_false (hnone d hd).1
      have hs : ∀ d ∈ a.dealList, decide (d.sellerId = a.userId) = false :=
        fun d hd => decide_eq_false (hnone d hd).2
      show (0 : Int) = usdOf a.userId a.dealList ∧ (0 : Int) = rubOf a.userId a.dealList
      simp only [usdOf, rubOf, bought, sold, earned, paid, sumWhere_of_none hb,
        sumWhere_of_none hs, sub_zero, and_self]
    · exact h u x hx

end Undeposited

/-! Prices that are `int`s. -/

/-- A posted price is an `int`. -/
def IntPrice : Op → Prop
  | .postOffer _ _ price _ => Fits32 price
  | _ => True

/-- The prices of the live offers and of the deals are. -/
structure IntPrices (a : Reference) : Prop where
  live : ∀ v ∈ a.live, Fits32 v.price
  trades : ∀ t ∈ a.trades, Fits32 t.deal.price

namespace IntPrices

variable {a a' : Reference}

theorem empty (i j k : Nat) : IntPrices (Reference.empty i j k) where
  live v hv := absurd hv (KeySet.not_mem_empty v)
  trades t ht := by cases ht

/-- A price that is left live or traded at was live before or is the posted one. -/
theorem post (h : IntPrices a) {o : OfferView} {ts : List TradeView} (ho : Fits32 o.price)
    (hm : Matches a o ts a') : IntPrices a' where
  live v hv := by
    obtain ⟨w, hw, -, -, -, hprice, -⟩ := hm.origin hv
    rw [hprice]
    rcases hw with rfl | hw
    · exact ho
    · exact h.live w hw
  trades t ht := by
    rw [hm.trades_eq] at ht
    rcases List.mem_append.mp ht with ht | ht
    · exact h.trades t ht
    · obtain ⟨-, r, hr, -, -, hprice, -⟩ := hm.resting t ht
      rw [← hprice]
      exact h.live r hr

theorem move {op : Op} {r : Reply} (h : IntPrices a) (hm : Moves a op r a') (hop : IntPrice op) :
    IntPrices a' := by
  cases hm with
  | post type price amount hx hm =>
    have hprices : IntPrices { a with offerId := a.offerId + 1 } := ⟨h.live, h.trades⟩
    have hprice : Fits32 price := hop
    exact hprices.post hprice hm
  | cancel hv => exact ⟨fun w hw => h.live w (KeySet.mem_erase.mp hw).1, h.trades⟩
  | _ => exact ⟨h.live, h.trades⟩

end IntPrices

end Reference

end ForexMarket
