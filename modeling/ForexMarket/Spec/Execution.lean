import Mathlib.Algebra.BigOperators.Ring.Finset
import ForexMarket.Lib.Allocation
import ForexMarket.Spec.Trades

/- What a posted offer pays. The offers it may trade with are goods with a price and a supply
   each; its trades take whole what is cheaper than the last of them and nothing that is dearer,
   so they are a cheapest way to get as much, and they get as much as there is. -/
namespace ForexMarket

open Sums

/-- What a unit at this price costs whom an offer of this type is for. -/
def OfferType.cost (type : OfferType) (price : Int) : Int :=
  match type with
  | .BUY => price
  | .SELL => -price

namespace Reference

/-- The live offers the incoming one may trade with. -/
def crossing (a : Reference) (o : OfferView) : List OfferView := a.live.elems.filter (matchable o)

/-- What the trades take from a resting offer. -/
def takenAt (ts : List TradeView) (v : OfferView) : Nat :=
  sumWhere (fun t => t.resting = v.id) (fun t => t.deal.amount) ts

theorem cost_le_of_rank {type : OfferType} {v w : OfferView} (h : rank type v ≤ rank type w) :
    type.cost v.price ≤ type.cost w.price := by
  cases type with
  | BUY =>
    simp only [rank, Prod.Lex.toLex_le_toLex, OfferType.cost] at *
    omega
  | SELL =>
    simp only [rank, Prod.Lex.toLex_le_toLex, OfferType.cost] at *
    omega

variable {a a' : Reference} {o r v : OfferView} {ts : List TradeView}

theorem mem_crossing : v ∈ a.crossing o ↔ v ∈ a.live ∧ matchable o v = true := List.mem_filter

theorem crossing_of_best (h : a.best? o = some r) : r ∈ a.crossing o :=
  mem_crossing.mpr (Select.best?_mem h)

theorem crossing_eq_nil (h : a.best? o = none) : a.crossing o = [] :=
  List.filter_eq_nil_iff.mpr fun v hv => by simp [Select.best?_eq_none.mp h v hv]

theorem cost_best_le (h : a.best? o = some r) (hv : v ∈ a.crossing o) :
    o.type.cost r.price ≤ o.type.cost v.price :=
  cost_le_of_rank (Select.best?_le h (mem_crossing.mp hv).1 (mem_crossing.mp hv).2)

/-- After a trade that leaves some of the incoming offer it may trade with the others. -/
theorem mem_crossing_trade (hleft : r.amount < o.amount) :
    v ∈ (a.trade o r).crossing (remainder o r) ↔ v ∈ a.crossing o ∧ v.id ≠ r.id := by
  rw [mem_crossing, mem_crossing, mem_trade_of_lt hleft]
  exact and_right_comm

theorem sum_crossing_trade {M : Type} [AddCommMonoid M] (f : OfferView → M)
    (h : a.best? o = some r) (hleft : r.amount < o.amount) :
    ((a.crossing o).map f).sum = f r + (((a.trade o r).crossing (remainder o r)).map f).sum := by
  have hperm := (KeySet.perm_erase (best?_mem h)).filter (matchable o)
  rw [List.filter_cons_of_pos (Select.best?_mem h).2] at hperm
  rw [crossing, crossing, trade_live_of_lt hleft, (hperm.map f).sum_eq, List.map_cons,
    List.sum_cons]
  rfl

theorem takenAt_cons (t : TradeView) (ts : List TradeView) (v : OfferView) :
    takenAt (t :: ts) v = (if t.resting = v.id then t.deal.amount else 0) + takenAt ts v := by
  rw [takenAt, sumWhere_cons]
  simp [takenAt]

namespace Matches

/-- The trades take as much as is asked for and there is. -/
theorem tradedTotal_eq (h : Matches a o ts a') :
    tradedTotal ts = min o.amount ((a.crossing o).map OfferView.amount).sum := by
  induction h with
  | rest h => rw [crossing_eq_nil h]; exact (Nat.min_zero _).symm
  | @fill a o r h hfull =>
    have hle : r.amount ≤ ((a.crossing o).map OfferView.amount).sum :=
      List.le_sum_of_mem (List.mem_map_of_mem (crossing_of_best h))
    simp only [tradedTotal_cons, tradedTotal_nil, tradeOf, dealOf]
    omega
  | @more a a' o r ts h hleft hrest ih =>
    rw [sum_crossing_trade OfferView.amount h hleft, tradedTotal_cons, ih]
    simp only [tradeOf, dealOf, remainder]
    omega

/-- Each trade is with an offer there was, at its price. -/
theorem resting_crossing (h : Matches a o ts a') : ∀ t ∈ ts, ∃ v ∈ a.crossing o,
    v.id = t.resting ∧ v.price = t.deal.price := by
  intro t ht
  obtain ⟨-, v, hv, hid, htype, hprice, hcrosses, -⟩ := h.resting t ht
  refine ⟨v, mem_crossing.mpr ⟨hv, matchable_iff.mpr ⟨htype, ?_⟩⟩, hid, hprice⟩
  rw [hprice]
  exact hcrosses

theorem takenAt_of_ne (h : Matches a o ts a') (hv : ∀ w ∈ a.live, w.id ≠ v.id) :
    takenAt ts v = 0 := by
  apply sumWhere_of_none
  intro t ht
  obtain ⟨-, w, hw, hid, -⟩ := h.resting t ht
  simpa [← hid] using hv w hw

/-- A first trade that leaves some of the incoming offer takes the best offer whole, and the others
are left to the rest. -/
theorem takenAt_more (h : a.best? o = some r) (hleft : r.amount < o.amount)
    (hrest : Matches (a.trade o r) (remainder o r) ts a') (hv : v ∈ a.crossing o) :
    (v = r ∧ takenAt (a.tradeOf o r :: ts) v = v.amount) ∨
      (v ∈ (a.trade o r).crossing (remainder o r) ∧
        takenAt (a.tradeOf o r :: ts) v = takenAt ts v) := by
  rw [takenAt_cons, show (a.tradeOf o r).resting = r.id from rfl]
  by_cases hid : r.id = v.id
  · have heq : v = r := (KeySet.key_inj (best?_mem h) (mem_crossing.mp hv).1 hid).symm
    have hzero : takenAt ts v = 0 :=
      hrest.takenAt_of_ne fun w hw => hid ▸ ((mem_trade_of_lt hleft).mp hw).2
    have hamount : (a.tradeOf o r).deal.amount = r.amount := Nat.min_eq_right hleft.le
    refine .inl ⟨heq, ?_⟩
    rw [if_pos hid, hzero, hamount, heq, Nat.add_zero]
  · refine .inr ⟨(mem_crossing_trade hleft).mpr ⟨hv, Ne.symm hid⟩, ?_⟩
    rw [if_neg hid, Nat.zero_add]

/-- There is a cost below which all there is is taken and above which nothing is. By induction on
the trades: the greatest of the costs at which they are made. -/
theorem threshold (h : Matches a o ts a') :
    ∃ p, Allocation.Threshold (a.crossing o) (fun v => o.type.cost v.price)
      (fun v => (v.amount : Int)) (fun v => (takenAt ts v : Int)) p := by
  induction h with
  | rest h =>
    rw [crossing_eq_nil h]
    exact ⟨0, fun v hv => (by cases hv), fun v hv => (by cases hv)⟩
  | @fill a o r h hfull =>
    refine ⟨o.type.cost r.price, fun v hv hlt => ?_, fun v hv hlt => ?_⟩
    · exact absurd (cost_best_le h hv) hlt.not_ge
    · have hne : r.id ≠ v.id := by
        intro hid
        rw [KeySet.key_inj (best?_mem h) (mem_crossing.mp hv).1 hid] at hlt
        exact lt_irrefl _ hlt
      rw [takenAt_cons]
      simp [tradeOf, hne, takenAt]
  | @more a a' o r ts h hleft hrest ih =>
    obtain ⟨p, hthreshold⟩ := ih
    refine ⟨max (o.type.cost r.price) p, fun v hv hlt => ?_, fun v hv hlt => ?_⟩
    · rcases takenAt_more h hleft hrest hv with ⟨-, htaken⟩ | ⟨hv', htaken⟩
      · rw [htaken]
      · rw [htaken]
        rcases lt_max_iff.mp hlt with hlt | hlt
        · exact absurd (cost_best_le h hv) hlt.not_ge
        · exact hthreshold.below v hv' hlt
    · obtain ⟨hr, hp⟩ := max_lt_iff.mp hlt
      rcases takenAt_more h hleft hrest hv with ⟨rfl, -⟩ | ⟨hv', htaken⟩
      · exact absurd hr (lt_irrefl _)
      · rw [htaken]
        exact hthreshold.above v hv' hp

/-- What is taken from the offers, each at its price, is what is traded. -/
theorem sum_takenAt (h : Matches a o ts a') (f : Int → Int) :
    ((a.crossing o).map fun v => (takenAt ts v : Int) * f v.price).sum =
      (ts.map fun t => t.deal.amount * f t.deal.price).sum := by
  have hnodup : ((a.crossing o).map OfferView.id).Nodup := by
    refine List.pairwise_map.mpr ((a.live.sorted.filter _).imp fun hlt => hlt.ne)
  have hclasses := sum_classes TradeView.resting (f := fun t => t.deal.amount * f t.deal.price)
    hnodup (l := ts) fun t ht => by
      obtain ⟨v, hv, hid, -⟩ := h.resting_crossing t ht
      exact hid ▸ List.mem_map_of_mem hv
  rw [← hclasses, List.map_map]
  congr 1
  apply List.map_congr_left
  intro v hv
  have hprice : ∀ t ∈ ts, t.resting = v.id → t.deal.price = v.price := by
    intro t ht hid
    obtain ⟨w, hw, hwid, hwprice⟩ := h.resting_crossing t ht
    rw [← hwprice, KeySet.key_inj (mem_crossing.mp hw).1 (mem_crossing.mp hv).1 (hwid.trans hid)]
  simp only [Function.comp_apply, takenAt]
  clear hclasses hnodup h
  induction ts with
  | nil => simp
  | cons t ts ih =>
    have hrest := ih fun t' ht' => hprice t' (List.mem_cons_of_mem t ht')
    rw [sumWhere_cons, sumWhere_cons, ← hrest]
    by_cases hid : t.resting = v.id
    · rw [hprice t List.mem_cons_self hid]
      simp [hid, add_mul]
    · simp [hid]

theorem tradedTotal_cast (ts : List TradeView) :
    ((tradedTotal ts : Nat) : Int) = (ts.map fun t => (t.deal.amount : Int)).sum := by
  simp only [tradedTotal, Nat.cast_list_sum, List.map_map, Function.comp_def]

/-- No other way to take as much of what may be traded with is cheaper. -/
theorem cheapest (h : Matches a o ts a') {x : OfferView → Nat}
    (hsupply : ∀ v ∈ a.crossing o, x v ≤ v.amount)
    (htotal : ((a.crossing o).map x).sum = tradedTotal ts) :
    (ts.map fun t => t.deal.amount * o.type.cost t.deal.price).sum ≤
      ((a.crossing o).map fun v => (x v : Int) * o.type.cost v.price).sum := by
  obtain ⟨p, hthreshold⟩ := h.threshold
  rw [← h.sum_takenAt o.type.cost]
  refine hthreshold.cheapest (fun v _ => Int.natCast_nonneg _)
    (fun v hv => Int.ofNat_le.mpr (hsupply v hv)) ?_
  have htaken := h.sum_takenAt fun _ => 1
  simp only [mul_one, ← tradedTotal_cast] at htaken
  rw [htaken, ← htotal, Nat.cast_list_sum, List.map_map, Function.comp_def]

end Matches

end Reference

end ForexMarket
