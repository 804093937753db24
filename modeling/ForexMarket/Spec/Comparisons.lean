import ForexMarket.Spec.Laws
import ForexMarket.Spec.Trades

/- The trades of a posted offer in two cases that differ in one thing: its limit, or
   whether a live offer it does not trade with is there. A tighter limit cuts the trades
   off at the first price out of it (`Matches.within`), and an offer that is not traded
   with may be deleted before the trades as well as after them (`Matches.erase`). -/
namespace ForexMarket

namespace Reference

variable {a a' : Reference} {o r : OfferView} {ts : List TradeView}

/-- The trades of an offer and what they leave are those of `matchOffer`. -/
theorem Matches.eq_matchOffer (h : Matches a o ts a') : a' = a.matchOffer o := by
  induction h with
  | rest h => rw [matchOffer_of_none h]
  | fill h hfull =>
    have hr : (remainder _ _).amount = 0 := Nat.sub_eq_zero_of_le (le_min (le_refl _) hfull)
    rw [matchOffer_of_some h, if_pos hr]
  | @more a a' o r ts h hleft hrest ih =>
    have hr : (remainder o r).amount ≠ 0 := by
      simp only [remainder]
      omega
    rw [matchOffer_of_some h, if_neg hr, ih]

/-! Two limits. -/

/-- What a limit admits, a looser one admits. -/
theorem crosses_trans {type : OfferType} {p q x : Int} (h : crosses type q p)
    (hx : crosses type p x) : crosses type q x := by
  cases type with
  | BUY => exact le_trans hx h
  | SELL => exact le_trans h hx

theorem best?_none_within {p : Int} (hp : crosses o.type o.price p) (h : a.best? o = none) :
    a.best? { o with price := p } = none := by
  refine Select.best?_eq_none.mpr fun v hv => Bool.eq_false_iff.mpr fun hm => ?_
  obtain ⟨ht, hc⟩ := matchable_iff.mp hm
  have hm' : matchable o v = true := matchable_iff.mpr ⟨ht, crosses_trans hp hc⟩
  rw [Select.best?_eq_none.mp h v hv] at hm'
  cases hm'

/-- Under a tighter limit the best offer is the same, or there is none. -/
theorem best?_within {p : Int} (hp : crosses o.type o.price p) (h : a.best? o = some r) :
    a.best? { o with price := p } = if crosses o.type p r.price then some r else none := by
  obtain ⟨hr, ht, -, hmin⟩ := best?_spec h
  split
  · next hc =>
    refine Select.best?_eq_some hr (matchable_iff.mpr ⟨ht, hc⟩) fun v hv hm hne => ?_
    obtain ⟨hvt, hvc⟩ := matchable_iff.mp hm
    refine lt_of_le_of_ne (hmin v hv hvt (crosses_trans hp hvc)) fun e => hne ?_
    exact KeySet.key_inj hv hr (rank_inj e).symm
  · next hc =>
    refine Select.best?_eq_none.mpr fun v hv => Bool.eq_false_iff.mpr fun hm => hc ?_
    obtain ⟨hvt, hvc⟩ := matchable_iff.mp hm
    exact crosses_of_rank_le (hmin v hv hvt (crosses_trans hp hvc)) hvc

theorem takeWhile_trade (a : Reference) (o r : OfferView) (ts : List TradeView) (p : Int) :
    ((a.tradeOf o r :: ts).takeWhile fun t => crosses o.type p t.deal.price) =
      if crosses o.type p r.price then
        a.tradeOf o r :: ts.takeWhile fun t => crosses o.type p t.deal.price
      else [] := by
  simp only [List.takeWhile_cons, tradeOf, dealOf, decide_eq_true_eq]

/-- Under a tighter limit the trades are the same up to the first whose price is out of it. -/
theorem Matches.within (h : Matches a o ts a') {p : Int} (hp : crosses o.type o.price p) :
    ∃ a'', Matches a { o with price := p }
      (ts.takeWhile fun t => crosses o.type p t.deal.price) a'' := by
  induction h with
  | rest h => exact ⟨_, .rest (best?_none_within hp h)⟩
  | @fill a o r h hfull =>
    have hbest := best?_within hp h
    rw [takeWhile_trade]
    by_cases hc : crosses o.type p r.price
    · rw [if_pos hc] at hbest ⊢
      exact ⟨_, .fill hbest hfull⟩
    · rw [if_neg hc] at hbest ⊢
      exact ⟨_, .rest hbest⟩
  | @more a a' o r ts h hleft hrest ih =>
    have hbest := best?_within hp h
    rw [takeWhile_trade]
    by_cases hc : crosses o.type p r.price
    · rw [if_pos hc] at hbest ⊢
      obtain ⟨a'', hrest'⟩ := ih hp
      exact ⟨a'', .more hbest hleft hrest'⟩
    · rw [if_neg hc] at hbest ⊢
      exact ⟨_, .rest hbest⟩

/-! An offer that is not traded with. -/

/-- The reference without the offer under `i`. -/
def without (a : Reference) (i : Nat) : Reference := { a with live := a.live.erase i }

theorem best?_without {i : Nat} (h : a.best? o = some r) (hi : r.id ≠ i) :
    (a.without i).best? o = some r := by
  obtain ⟨hr, ht, hc, hmin⟩ := best?_spec h
  refine Select.best?_eq_some (KeySet.mem_erase.mpr ⟨hr, hi⟩) (matchable_iff.mpr ⟨ht, hc⟩)
    fun v hv hm hne => ?_
  have hv := (KeySet.mem_erase.mp hv).1
  obtain ⟨hvt, hvc⟩ := matchable_iff.mp hm
  exact lt_of_le_of_ne (hmin v hv hvt hvc) fun e => hne (KeySet.key_inj hv hr (rank_inj e).symm)

theorem consume_erase (live : KeySet OfferView OfferView.id) {i n : Nat} (hi : r.id ≠ i) :
    consume (live.erase i) r n = (consume live r n).erase i := by
  unfold consume
  split
  · exact KeySet.erase_comm _ _ _
  · exact KeySet.store_erase hi

theorem trade_without {i : Nat} (hi : r.id ≠ i) :
    (a.without i).trade o r = (a.trade o r).without i := by
  unfold trade without
  rw [consume_erase _ hi]
  rfl

/-- An offer that is not traded with may be deleted first. -/
theorem Matches.erase (h : Matches a o ts a') {i : Nat} (hi : o.id ≠ i)
    (hquiet : ∀ t ∈ ts, t.resting ≠ i) : Matches (a.without i) o ts (a'.without i) := by
  induction h with
  | @rest a o h =>
    have hnone : (a.without i).best? o = none :=
      Select.best?_eq_none.mpr fun v hv => Select.best?_eq_none.mp h v (KeySet.mem_erase.mp hv).1
    unfold without
    rw [← KeySet.insert_erase hi]
    exact .rest hnone
  | @fill a o r h hfull =>
    have hr : r.id ≠ i := hquiet _ (List.mem_singleton_self _)
    rw [← trade_without hr]
    exact .fill (best?_without h hr) hfull
  | @more a a' o r ts h hleft hrest ih =>
    have hr : r.id ≠ i := hquiet _ List.mem_cons_self
    have hrest' := ih hi fun t ht => hquiet t (List.mem_cons_of_mem _ ht)
    rw [← trade_without hr] at hrest'
    exact .more (best?_without h hr) hleft hrest'

/-- Nor is it changed by the trades. -/
theorem Matches.find? (h : Matches a o ts a') {i : Nat} (hi : o.id ≠ i)
    (hquiet : ∀ t ∈ ts, t.resting ≠ i) : a'.live.find? i = a.live.find? i := by
  cases hfind : a.live.find? i with
  | none =>
    exact KeySet.find?_eq_none.mpr (h.not_revived (KeySet.find?_eq_none.mp hfind) hi)
  | some v =>
    obtain ⟨hv, rfl⟩ := KeySet.find?_eq_some.mp hfind
    exact KeySet.find?_of_mem (h.kept hv hquiet)

/-! The calls. -/

theorem step_removeOffer (a : Reference) (v i : Nat) :
    a.step (.removeOffer v i) =
      if (a.accounts v).isNone then (.fault .outOfRange, a)
      else if (a.live.find? i).any (fun o => o.ownerId = v) then (.removed true, a.without i)
      else (.removed false, a) := by
  cases hx : a.accounts v <;> simp only [step, hx] <;> rfl

/-- The trades a call makes. -/
def tradesOf (a : Reference) (op : Op) : List TradeView :=
  (a.step op).2.trades.drop a.trades.length

section Posts

variable {u i : Nat} {type : OfferType} {price : Int} {amount : UInt64}

/-- The trades of a post at a tighter limit are the first ones of the post at the looser. -/
theorem tradesOf_within {p : Int} (hp : crosses type price p) :
    a.tradesOf (.postOffer u type p amount) =
      (a.tradesOf (.postOffer u type price amount)).takeWhile
        fun t => crosses type p t.deal.price := by
  cases hx : a.accounts u with
  | none => simp only [tradesOf, step, hx, List.drop_length, List.takeWhile_nil]
  | some x =>
    obtain ⟨ts, hts⟩ := matchOffer_matches { a with offerId := a.offerId + 1 }
      { id := a.offerId, ownerId := u, type := type, price := price, amount := amount.toNat }
    obtain ⟨a'', hwithin⟩ := hts.within hp
    have htight := hwithin.trades_eq
    rw [hwithin.eq_matchOffer] at htight
    simp only [tradesOf, step, hx, htight, hts.trades_eq, List.drop_left]

/-- A post leaves an offer it does not trade with as it is, and makes the same of a market
without that offer. -/
theorem post_without (hi : i ≠ a.offerId)
    (hquiet : ∀ t ∈ a.tradesOf (.postOffer u type price amount), t.resting ≠ i) :
    (a.step (.postOffer u type price amount)).2.live.find? i = a.live.find? i ∧
      (a.without i).step (.postOffer u type price amount) =
        ((a.step (.postOffer u type price amount)).1,
          (a.step (.postOffer u type price amount)).2.without i) := by
  cases hx : a.accounts u with
  | none => simp only [step, without, hx, and_self]
  | some x =>
    obtain ⟨ts, hts⟩ := matchOffer_matches { a with offerId := a.offerId + 1 }
      { id := a.offerId, ownerId := u, type := type, price := price, amount := amount.toNat }
    have htrades : a.tradesOf (.postOffer u type price amount) = ts := by
      simp only [tradesOf, step, hx, hts.trades_eq, List.drop_left]
    rw [htrades] at hquiet
    have herase := (hts.erase hi.symm hquiet).eq_matchOffer
    simp only [step, hx]
    refine ⟨hts.find? hi.symm hquiet, ?_⟩
    have hx' : (a.without i).accounts u = some x := hx
    rw [herase, hx']
    rfl

/-- A cancellation of an offer that a post does not trade with comes before the post or after it. -/
theorem cancel_post (v : Nat) (hi : i ≠ a.offerId)
    (hquiet : ∀ t ∈ a.tradesOf (.postOffer u type price amount), t.resting ≠ i) :
    (a.step (.postOffer u type price amount)).2.step (.removeOffer v i) =
        ((a.step (.removeOffer v i)).1,
          ((a.step (.removeOffer v i)).2.step (.postOffer u type price amount)).2) ∧
      ((a.step (.removeOffer v i)).2.step (.postOffer u type price amount)).1 =
        (a.step (.postOffer u type price amount)).1 := by
  obtain ⟨hfind, hpost⟩ := post_without hi hquiet
  have hisNone : ((a.step (.postOffer u type price amount)).2.accounts v).isNone =
      (a.accounts v).isNone := by
    have husers := (a.step_users (.postOffer u type price amount)).2 v
    simp only [registers, Bool.false_eq_true, false_and, or_false] at husers
    rw [← Option.not_isSome, ← Option.not_isSome, Bool.eq_iff_iff.mpr husers]
  rw [step_removeOffer, step_removeOffer, hfind, hisNone]
  split
  · exact ⟨rfl, rfl⟩
  · split
    · rw [hpost]
      exact ⟨rfl, rfl⟩
    · exact ⟨rfl, rfl⟩

end Posts

end Reference

end ForexMarket
