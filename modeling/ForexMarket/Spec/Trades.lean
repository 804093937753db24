import ForexMarket.Lib.SumWhere
import ForexMarket.Spec.Reference

/- The trades of one posted offer. `Matches a o ts a'` reads the recursion of
   `matchOffer` as a derivation that collects the trades it makes; what a call does is
   proved by induction on it: which offers are consumed and in what order, at what
   price, which are left alone, and where the amounts go. -/
namespace ForexMarket

open Sums

namespace Reference

/-- From `a` the incoming offer `o` makes the trades `ts` and leaves `a'`. -/
inductive Matches : Reference → OfferView → List TradeView → Reference → Prop where
  | rest {a : Reference} {o : OfferView} (h : a.best? o = none) :
      Matches a o [] { a with live := a.live.insert o }
  | fill {a : Reference} {o r : OfferView} (h : a.best? o = some r) (hfull : o.amount ≤ r.amount) :
      Matches a o [a.tradeOf o r] (a.trade o r)
  | more {a a' : Reference} {o r : OfferView} {ts : List TradeView} (h : a.best? o = some r)
      (hleft : r.amount < o.amount) (hrest : Matches (a.trade o r) (remainder o r) ts a') :
      Matches a o (a.tradeOf o r :: ts) a'

theorem matchOffer_matches (a : Reference) (o : OfferView) :
    ∃ ts, Matches a o ts (a.matchOffer o) := by
  induction a, o using matchOffer.induct with
  | case1 a o h => exact ⟨[], by rw [matchOffer_of_none h]; exact .rest h⟩
  | case2 a o r h hr =>
    refine ⟨[a.tradeOf o r], ?_⟩
    rw [matchOffer_of_some h, if_pos hr]
    have hr : o.amount - min o.amount r.amount = 0 := hr
    exact .fill h (by omega)
  | case3 a o r h hr ih =>
    obtain ⟨ts, hts⟩ := ih
    refine ⟨a.tradeOf o r :: ts, ?_⟩
    rw [matchOffer_of_some h, if_neg hr]
    exact .more h (lt_of_remainder_ne_zero hr) hts

theorem matchable_iff {incoming o : OfferView} :
    matchable incoming o = true ↔
      o.type = incoming.type.opposite ∧ crosses incoming.type incoming.price o.price := by
  simp [matchable]

theorem best?_spec {a : Reference} {o r : OfferView} (h : a.best? o = some r) :
    r ∈ a.live ∧ r.type = o.type.opposite ∧ crosses o.type o.price r.price ∧
      ∀ v ∈ a.live, v.type = o.type.opposite → crosses o.type o.price v.price →
        rank o.type r ≤ rank o.type v := by
  obtain ⟨hr, hm⟩ := Select.best?_mem h
  obtain ⟨ht, hc⟩ := matchable_iff.mp hm
  exact ⟨hr, ht, hc, fun v hv hvt hvc => Select.best?_le h hv (matchable_iff.mpr ⟨hvt, hvc⟩)⟩

/-- The rank of the resting offer of a trade. -/
def tradeRank (type : OfferType) (t : TradeView) : Int ×ₗ Nat :=
  match type with
  | .BUY => toLex (t.deal.price, t.resting)
  | .SELL => toLex (-t.deal.price, t.resting)

theorem tradeRank_tradeOf (a : Reference) (type : OfferType) (o r : OfferView) :
    tradeRank type (a.tradeOf o r) = rank type r := by
  cases type <;> rfl

/-- An offer of better rank crosses where one of worse rank does. -/
theorem crosses_of_rank_le {type : OfferType} {limit : Int} {v r : OfferView}
    (h : rank type v ≤ rank type r) (hr : crosses type limit r.price) :
    crosses type limit v.price := by
  cases type with
  | BUY =>
    simp only [rank, Prod.Lex.toLex_le_toLex, crosses] at *
    omega
  | SELL =>
    simp only [rank, Prod.Lex.toLex_le_toLex, crosses] at *
    omega

theorem rank_inj {type : OfferType} {v r : OfferView} (h : rank type v = rank type r) :
    v.id = r.id := by
  cases type with
  | BUY => exact (Prod.mk.inj (toLex_inj.mp h)).2
  | SELL => exact (Prod.mk.inj (toLex_inj.mp h)).2

/-- A trade that leaves some of the incoming offer leaves the others as they are. -/
theorem mem_trade_of_lt {a : Reference} {o r v : OfferView} (h : r.amount < o.amount) :
    v ∈ (a.trade o r).live ↔ v ∈ a.live ∧ v.id ≠ r.id := by
  rw [trade_live_of_lt h, KeySet.mem_erase]

namespace Matches

variable {a a' : Reference} {o : OfferView} {ts : List TradeView}

/-! The record. -/

theorem trades_eq (h : Matches a o ts a') : a'.trades = a.trades ++ ts := by
  induction h with
  | rest h => simp
  | fill h hfull => rfl
  | more h hleft hrest ih => rw [ih]; simp [trade]

/-- The deals of a call are numbered upward in the order they are made. -/
theorem dealIds (h : Matches a o ts a') :
    ts.map (fun t => t.deal.id) = List.range' a.dealId ts.length := by
  induction h with
  | rest h => rfl
  | fill h hfull => rfl
  | more h hleft hrest ih =>
    rw [List.map_cons, ih, List.length_cons, List.range'_succ]
    rfl

theorem dealId_eq (h : Matches a o ts a') : a'.dealId = a.dealId + ts.length := by
  induction h with
  | rest h => rfl
  | fill h hfull => rfl
  | @more a a' o r ts h hleft hrest ih =>
    have hone : (a.trade o r).dealId = a.dealId + 1 := rfl
    rw [ih, hone, List.length_cons]
    omega

theorem counters (h : Matches a o ts a') : a'.offerId = a.offerId ∧ a'.userId = a.userId := by
  induction h with
  | rest h => exact ⟨rfl, rfl⟩
  | fill h hfull => exact ⟨rfl, rfl⟩
  | more h hleft hrest ih => exact ih

/-- The quote afterwards is the price of the last deal. -/
theorem quote_eq (h : Matches a o ts a') :
    a'.quote = (ts.getLast?.map (fun t => t.deal.price)).or a.quote := by
  induction h with
  | rest h => rfl
  | fill h hfull => rfl
  | @more a a' o r ts h hleft hrest ih =>
    rw [ih]
    cases hl : ts.getLast? with
    | none => rw [List.getLast?_eq_none_iff.mp hl]; rfl
    | some t => rw [List.getLast?_cons, hl]; rfl

/-! What is consumed. -/

/-- The trade is one of `o` with a live offer of the other type, at its price, within the limit. -/
def Consumes (a : Reference) (o : OfferView) (t : TradeView) : Prop :=
  t.incoming = o.id ∧ ∃ r ∈ a.live, r.id = t.resting ∧ r.type = o.type.opposite ∧
    r.price = t.deal.price ∧ crosses o.type o.price t.deal.price ∧ t.deal.amount ≤ r.amount ∧
    t.deal.buyerId = (if o.type = .BUY then o.ownerId else r.ownerId) ∧
    t.deal.sellerId = (if o.type = .SELL then o.ownerId else r.ownerId)

theorem consumes_best {o r : OfferView} (h : a.best? o = some r) :
    Consumes a o (a.tradeOf o r) := by
  obtain ⟨hr, ht, hc, -⟩ := best?_spec h
  exact ⟨rfl, r, hr, rfl, ht, rfl, hc, Nat.min_le_right _ _, rfl, rfl⟩

theorem resting (h : Matches a o ts a') : ∀ t ∈ ts, Consumes a o t := by
  induction h with
  | rest h => simp
  | fill h hfull =>
    intro t ht
    rw [List.mem_singleton.mp ht]
    exact consumes_best h
  | more h hleft hrest ih =>
    intro t ht
    rcases List.mem_cons.mp ht with rfl | ht
    · exact consumes_best h
    · -- what the rest of the call consumes was live before its first trade
      obtain ⟨hi, v, hv, hfacts⟩ := ih t ht
      exact ⟨hi, v, ((mem_trade_of_lt hleft).mp hv).1, hfacts⟩

/-- The consumed offers come in the order of their rank. -/
theorem ranks (h : Matches a o ts a') :
    ts.Pairwise (fun t t' => tradeRank o.type t < tradeRank o.type t') := by
  induction h with
  | rest h => exact .nil
  | fill h hfull => exact List.pairwise_singleton _ _
  | @more a a' o r ts h hleft hrest ih =>
    refine List.pairwise_cons.mpr ⟨?_, ih⟩
    intro t ht
    -- a later trade is with an offer that is live now, and so of worse rank than the best
    obtain ⟨-, v, hv, hid, hvt, hprice, hcross, -⟩ := hrest.resting t ht
    obtain ⟨hv, hne⟩ := (mem_trade_of_lt hleft).mp hv
    have hcross : crosses o.type o.price v.price := hprice ▸ hcross
    have hle := (best?_spec h).2.2.2 v hv hvt hcross
    have hlt : rank o.type r < rank o.type v := lt_of_le_of_ne hle fun e => hne (rank_inj e).symm
    have hrank : tradeRank o.type t = rank o.type v := by
      cases o.type <;> simp only [tradeRank, rank, hid, hprice]
    rw [tradeRank_tradeOf, hrank]
    exact hlt

/-- An offer that is not live stays so, but for the incoming one. -/
theorem not_revived (h : Matches a o ts a') {i : Nat} (hi : ∀ v ∈ a.live, v.id ≠ i)
    (hne : o.id ≠ i) : ∀ v ∈ a'.live, v.id ≠ i := by
  induction h with
  | rest h =>
    intro v hv
    rcases KeySet.mem_insert.mp hv with hv | ⟨rfl, -⟩
    · exact hi v hv
    · exact hne
  | @fill a o r h hfull =>
    intro v hv
    rcases (mem_consume (best?_mem h)).mp hv with ⟨hv, -⟩ | ⟨rfl, -⟩
    · exact hi v hv
    · exact hi r (best?_mem h)
  | more h hleft hrest ih =>
    exact ih (fun v hv => hi v ((mem_trade_of_lt hleft).mp hv).1) hne

/-- Before an offer is consumed every live offer of better rank is gone. -/
theorem better_gone (h : Matches a o ts a') (hfresh : ∀ v ∈ a.live, v.id ≠ o.id) : ∀ t ∈ ts,
    ∀ v ∈ a.live, v.type = o.type.opposite → rank o.type v < tradeRank o.type t →
      ∀ w ∈ a'.live, w.id ≠ v.id := by
  induction h with
  | rest h => simp
  | @fill a o r h hfull =>
    intro t ht v hv hvt hlt
    rw [List.mem_singleton.mp ht, tradeRank_tradeOf] at hlt
    have hcross := crosses_of_rank_le hlt.le (best?_spec h).2.2.1
    exact absurd ((best?_spec h).2.2.2 v hv hvt hcross) hlt.not_ge
  | @more a a' o r ts h hleft hrest ih =>
    intro t ht v hv hvt hlt
    rcases List.mem_cons.mp ht with rfl | ht
    · rw [tradeRank_tradeOf] at hlt
      have hcross := crosses_of_rank_le hlt.le (best?_spec h).2.2.1
      exact absurd ((best?_spec h).2.2.2 v hv hvt hcross) hlt.not_ge
    · by_cases hvr : v.id = r.id
      · -- the best offer itself was consumed whole
        refine hrest.not_revived ?_ (fun e => hfresh v hv e.symm)
        intro w hw e
        exact ((mem_trade_of_lt hleft).mp hw).2 (e.trans hvr)
      · exact ih (fun w hw => hfresh w ((mem_trade_of_lt hleft).mp hw).1) t ht v
          ((mem_trade_of_lt hleft).mpr ⟨hv, hvr⟩) hvt hlt

/-- A live offer that is not consumed stays as it is. -/
theorem kept (h : Matches a o ts a') {v : OfferView} (hv : v ∈ a.live)
    (hnot : ∀ t ∈ ts, t.resting ≠ v.id) : v ∈ a'.live := by
  induction h with
  | rest h => exact KeySet.mem_insert.mpr (.inl hv)
  | fill h hfull =>
    refine (mem_consume (best?_mem h)).mpr (.inl ⟨hv, fun e => ?_⟩)
    exact hnot _ (List.mem_singleton_self _) e.symm
  | more h hleft hrest ih =>
    refine ih ((mem_trade_of_lt hleft).mpr ⟨hv, fun e => ?_⟩) fun t ht =>
      hnot t (List.mem_cons_of_mem _ ht)
    exact hnot _ List.mem_cons_self e.symm

/-- What is live afterwards was live, or is what is left of the incoming offer. -/
theorem origin (h : Matches a o ts a') {v : OfferView} (hv : v ∈ a'.live) :
    ∃ w, (w = o ∨ w ∈ a.live) ∧ v.id = w.id ∧ v.ownerId = w.ownerId ∧ v.type = w.type ∧
      v.price = w.price ∧ v.amount ≤ w.amount := by
  induction h with
  | rest h =>
    rcases KeySet.mem_insert.mp hv with hv | ⟨rfl, -⟩
    · exact ⟨v, .inr hv, rfl, rfl, rfl, rfl, le_refl _⟩
    · exact ⟨v, .inl rfl, rfl, rfl, rfl, rfl, le_refl _⟩
  | @fill a o r h hfull =>
    rcases (mem_consume (best?_mem h)).mp hv with ⟨hv, -⟩ | ⟨rfl, -⟩
    · exact ⟨v, .inr hv, rfl, rfl, rfl, rfl, le_refl _⟩
    · exact ⟨r, .inr (best?_mem h), rfl, rfl, rfl, rfl, Nat.sub_le _ _⟩
  | @more a a' o r ts h hleft hrest ih =>
    obtain ⟨w, hw, hid, hu, ht, hp, hle⟩ := ih hv
    rcases hw with rfl | hw
    · exact ⟨o, .inl rfl, hid, hu, ht, hp, le_trans hle (Nat.sub_le _ _)⟩
    · exact ⟨w, .inr ((mem_trade_of_lt hleft).mp hw).1, hid, hu, ht, hp, hle⟩

end Matches

/-! Where the amounts go. -/

/-- The remaining amount of the offer under `p`, nothing when it is not live. -/
def remaining (live : KeySet OfferView OfferView.id) (p : Nat) : Nat :=
  ((live.find? p).map OfferView.amount).getD 0

/-- The remaining amounts of the offers of a type. -/
def sideTotal (l : List OfferView) (t : OfferType) : Nat :=
  sumWhere (fun o => o.type = t) OfferView.amount l

/-- The amounts of the trades that take from the offer under `p`. -/
def takenFrom (p : Nat) (ts : List TradeView) : Nat :=
  sumWhere (fun t => t.incoming = p ∨ t.resting = p) (fun t => t.deal.amount) ts

/-- The amounts of some trades. -/
def tradedTotal (ts : List TradeView) : Nat := (ts.map (fun t => t.deal.amount)).sum

@[simp] theorem tradedTotal_nil : tradedTotal [] = 0 := rfl

@[simp] theorem tradedTotal_cons (t : TradeView) (ts : List TradeView) :
    tradedTotal (t :: ts) = t.deal.amount + tradedTotal ts := by
  simp [tradedTotal]

theorem tradedTotal_append (ts ts' : List TradeView) :
    tradedTotal (ts ++ ts') = tradedTotal ts + tradedTotal ts' := by
  simp [tradedTotal]

@[simp] theorem takenFrom_nil (p : Nat) : takenFrom p [] = 0 := rfl

theorem takenFrom_cons (p : Nat) (t : TradeView) (ts : List TradeView) :
    takenFrom p (t :: ts) =
      (if t.incoming = p ∨ t.resting = p then t.deal.amount else 0) + takenFrom p ts := by
  rw [takenFrom, sumWhere_cons]
  simp [takenFrom]

theorem remaining_of_not_live {live : KeySet OfferView OfferView.id} {p : Nat}
    (h : ∀ v ∈ live, v.id ≠ p) : remaining live p = 0 := by
  rw [remaining, KeySet.find?_eq_none.mpr h]
  rfl

theorem remaining_of_mem {live : KeySet OfferView OfferView.id} {v : OfferView} (h : v ∈ live) :
    remaining live v.id = v.amount := by
  rw [remaining, KeySet.find?_of_mem h]
  rfl

theorem remaining_insert {live : KeySet OfferView OfferView.id} {o : OfferView}
    (h : ∀ v ∈ live, v.id ≠ o.id) (p : Nat) :
    remaining (live.insert o) p = remaining live p + if p = o.id then o.amount else 0 := by
  by_cases hp : p = o.id
  · rw [hp, if_pos rfl, remaining_of_not_live h,
      remaining_of_mem ((KeySet.mem_insert_of_fresh h).mpr (.inr rfl)), Nat.zero_add]
  · have hp' : o.id ≠ p := fun e => hp e.symm
    simp [remaining, hp, hp']

theorem remaining_consume {live : KeySet OfferView OfferView.id} {r : OfferView} {n : Nat}
    (hr : r ∈ live) (hn : n ≤ r.amount) (p : Nat) :
    remaining (consume live r n) p + (if p = r.id then n else 0) = remaining live p := by
  -- only the consumed offer changes; it is gone when nothing of it remains
  by_cases hp : p = r.id
  · rw [hp, if_pos rfl, remaining_of_mem hr]
    by_cases h0 : r.amount - n = 0
    · rw [remaining_of_not_live]
      · omega
      · intro v hv e
        rcases (mem_consume hr).mp hv with ⟨-, hne⟩ | ⟨-, hne⟩
        · exact hne e
        · exact hne h0
    · have hmem : ({ r with amount := r.amount - n } : OfferView) ∈ consume live r n :=
        (mem_consume hr).mpr (.inr ⟨rfl, h0⟩)
      have := remaining_of_mem hmem
      simp only at this
      omega
  · unfold consume
    split
    · simp [remaining, hp]
    · simp [remaining, hp]

theorem sideTotal_cons (o : OfferView) (l : List OfferView) (t : OfferType) :
    sideTotal (o :: l) t = (if o.type = t then o.amount else 0) + sideTotal l t := by
  rw [sideTotal, sumWhere_cons]
  simp [sideTotal]

theorem sideTotal_perm {l l' : List OfferView} (h : l.Perm l') (t : OfferType) :
    sideTotal l t = sideTotal l' t :=
  sumWhere_perm h

theorem sideTotal_insert {live : KeySet OfferView OfferView.id} {o : OfferView}
    (h : ∀ v ∈ live, v.id ≠ o.id) (t : OfferType) :
    sideTotal (live.insert o).elems t =
      (if o.type = t then o.amount else 0) + sideTotal live.elems t := by
  rw [sideTotal_perm (KeySet.perm_insert h), sideTotal_cons]

theorem sideTotal_erase {live : KeySet OfferView OfferView.id} {o : OfferView} (h : o ∈ live)
    (t : OfferType) :
    sideTotal live.elems t =
      (if o.type = t then o.amount else 0) + sideTotal (live.erase o.id).elems t := by
  rw [sideTotal_perm (KeySet.perm_erase h), sideTotal_cons]

theorem sideTotal_consume {live : KeySet OfferView OfferView.id} {r : OfferView} {n : Nat}
    (hr : r ∈ live) (hn : n ≤ r.amount) (t : OfferType) :
    (if r.type = t then n else 0) + sideTotal (consume live r n).elems t =
      sideTotal live.elems t := by
  have herase := sideTotal_erase hr t
  by_cases h0 : r.amount - n = 0
  · rw [consume, if_pos h0, herase]
    have hle : n = r.amount := by omega
    rw [hle]
  · have hstore := KeySet.perm_store (a := { r with amount := r.amount - n }) hr rfl
    rw [consume, if_neg h0, sideTotal_perm hstore, sideTotal_cons, herase]
    dsimp only
    split <;> omega

namespace Matches

variable {a a' : Reference} {o : OfferView} {ts : List TradeView}

/-- What one trade takes from an offer is what its remaining amount loses. -/
theorem taken_trade {o r : OfferView} (hb : a.best? o = some r)
    (hfresh : ∀ v ∈ a.live, v.id ≠ o.id) (p : Nat) :
    (if (a.tradeOf o r).incoming = p ∨ (a.tradeOf o r).resting = p then
      (a.tradeOf o r).deal.amount else 0) + remaining (a.trade o r).live p =
      remaining a.live p + if p = o.id then min o.amount r.amount else 0 := by
  have hne := hfresh r (best?_mem hb)
  have hcon := remaining_consume (best?_mem hb) (Nat.min_le_right o.amount r.amount) p
  show (if o.id = p ∨ r.id = p then min o.amount r.amount else 0) +
    remaining (consume a.live r (min o.amount r.amount)) p = _
  by_cases hpo : p = o.id
  · -- the incoming offer is not live
    have hpr : p ≠ r.id := fun e => hne (e.symm.trans hpo)
    rw [if_neg hpr] at hcon
    rw [if_pos (.inl hpo.symm), if_pos hpo]
    omega
  · have hop : o.id ≠ p := fun e => hpo e.symm
    by_cases hpr : p = r.id
    · rw [if_pos hpr] at hcon
      rw [if_pos (.inr hpr.symm), if_neg hpo]
      omega
    · have hrp : r.id ≠ p := fun e => hpr e.symm
      rw [if_neg hpr] at hcon
      rw [if_neg (by simp [hop, hrp]), if_neg hpo]
      omega

/-- What the trades take from an offer is what its remaining amount loses. -/
theorem taken (h : Matches a o ts a') (hfresh : ∀ v ∈ a.live, v.id ≠ o.id) (p : Nat) :
    takenFrom p ts + remaining a'.live p =
      remaining a.live p + if p = o.id then o.amount else 0 := by
  induction h with
  | rest h => rw [takenFrom_nil, remaining_insert hfresh, Nat.zero_add]
  | fill h hfull =>
    have hfirst := taken_trade h hfresh p
    rw [Nat.min_eq_left hfull] at hfirst
    rw [takenFrom_cons, takenFrom_nil]
    exact hfirst
  | @more a a' o r ts h hleft hrest ih =>
    have hfirst := taken_trade h hfresh p
    have hrem : takenFrom p ts + remaining a'.live p = remaining (a.trade o r).live p +
        if p = o.id then o.amount - min o.amount r.amount else 0 :=
      ih fun v hv => hfresh v ((mem_trade_of_lt hleft).mp hv).1
    rw [takenFrom_cons]
    by_cases hp : p = o.id
    · rw [if_pos hp] at hfirst hrem ⊢
      omega
    · rw [if_neg hp] at hfirst hrem ⊢
      omega

/-- One trade takes its amount from the other side, and nothing from its own. -/
theorem totals_trade {o r : OfferView} (hb : a.best? o = some r) :
    min o.amount r.amount + sideTotal (a.trade o r).live.elems o.type.opposite =
      sideTotal a.live.elems o.type.opposite ∧
    sideTotal (a.trade o r).live.elems o.type = sideTotal a.live.elems o.type := by
  obtain ⟨hr, ht, -⟩ := best?_spec hb
  have hn := Nat.min_le_right o.amount r.amount
  have hopp := sideTotal_consume hr hn o.type.opposite
  have hown := sideTotal_consume hr hn o.type
  rw [if_pos ht] at hopp
  rw [if_neg (by rw [ht]; exact OfferType.opposite_ne _), Nat.zero_add] at hown
  exact ⟨hopp, hown⟩

/-- The trades take their amounts from the other side, and leave the incoming offer the rest of
its own. -/
theorem totals (h : Matches a o ts a') (hfresh : ∀ v ∈ a.live, v.id ≠ o.id) :
    tradedTotal ts + sideTotal a'.live.elems o.type.opposite =
      sideTotal a.live.elems o.type.opposite ∧
    tradedTotal ts + sideTotal a'.live.elems o.type =
      sideTotal a.live.elems o.type + o.amount := by
  have hne : o.type ≠ o.type.opposite := (OfferType.opposite_ne o.type).symm
  induction h with
  | rest h =>
    rw [tradedTotal_nil, sideTotal_insert hfresh, sideTotal_insert hfresh, if_neg hne, if_pos rfl]
    omega
  | @fill a o r h hfull =>
    obtain ⟨hopp, hown⟩ := totals_trade h
    have hamount : (a.tradeOf o r).deal.amount = o.amount := Nat.min_eq_left hfull
    rw [Nat.min_eq_left hfull] at hopp
    rw [tradedTotal_cons, tradedTotal_nil, hamount]
    omega
  | @more a a' o r ts h hleft hrest ih =>
    obtain ⟨hopp, hown⟩ := totals_trade h
    obtain ⟨hopp', hown'⟩ := ih (fun v hv => hfresh v ((mem_trade_of_lt hleft).mp hv).1) hne
    have hamount : (a.tradeOf o r).deal.amount = r.amount := Nat.min_eq_right hleft.le
    rw [Nat.min_eq_right hleft.le] at hopp
    rw [tradedTotal_cons, hamount]
    simp only [remainder, Nat.min_eq_right hleft.le] at hopp' hown'
    omega

/-- With positive amounts every trade has a positive amount, and leaves positive amounts. -/
theorem positive (h : Matches a o ts a') (hlive : ∀ v ∈ a.live, 1 ≤ v.amount)
    (ho : 1 ≤ o.amount) :
    (∀ t ∈ ts, 1 ≤ t.deal.amount) ∧ ∀ v ∈ a'.live, 1 ≤ v.amount := by
  induction h with
  | rest h =>
    refine ⟨by simp, fun v hv => ?_⟩
    rcases KeySet.mem_insert.mp hv with hv | ⟨rfl, -⟩
    · exact hlive v hv
    · exact ho
  | @fill a o r h hfull =>
    refine ⟨fun t ht => ?_, fun v hv => ?_⟩
    · rw [List.mem_singleton.mp ht]
      exact Nat.le_min.mpr ⟨ho, hlive r (best?_mem h)⟩
    · rcases (mem_consume (best?_mem h)).mp hv with ⟨hv, -⟩ | ⟨rfl, h0⟩
      · exact hlive v hv
      · exact Nat.one_le_iff_ne_zero.mpr h0
  | @more a a' o r ts h hleft hrest ih =>
    obtain ⟨htrades, hlive'⟩ := ih (fun v hv => hlive v ((mem_trade_of_lt hleft).mp hv).1)
      (by simp only [remainder]; omega)
    refine ⟨fun t ht => ?_, hlive'⟩
    rcases List.mem_cons.mp ht with rfl | ht
    · exact Nat.le_min.mpr ⟨ho, hlive r (best?_mem h)⟩
    · exact htrades t ht

/-- With nothing to trade the call makes a deal of amount 0 or leaves an offer of amount 0. -/
theorem nothing (h : Matches a o ts a') (hfresh : ∀ v ∈ a.live, v.id ≠ o.id)
    (ho : o.amount = 0) :
    (∃ t ∈ ts, t.deal.amount = 0) ∨ ∃ v ∈ a'.live, v.amount = 0 := by
  cases h with
  | rest h => exact .inr ⟨o, (KeySet.mem_insert_of_fresh hfresh).mpr (.inr rfl), ho⟩
  | fill h hfull =>
    refine .inl ⟨_, List.mem_singleton_self _, ?_⟩
    show min o.amount _ = 0
    omega
  | more h hleft hrest =>
    refine .inl ⟨_, List.mem_cons_self, ?_⟩
    show min o.amount _ = 0
    omega

end Matches

end Reference

end ForexMarket
