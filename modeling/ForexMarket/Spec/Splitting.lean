import ForexMarket.Spec.Trades

/- One offer or two that share its amount. Until the first part is filled both ways make
   the same trades, so the two runs are compared where they part: the first part rests,
   or it ends at the end of a resting offer, or inside one, which the second part then
   finds reduced and still the best. From there two offers on the same terms meet the
   same live offers (`Even`), and what differs at the end are ids drawn since (`Agree`). -/
namespace ForexMarket

open Sums

/-- What a user holds. -/
def Account.holdings (x : Account) : Int × Int := (x.usd, x.rub)

theorem Account.holdings_afterDeal {x y : Account} (h : x.holdings = y.holdings) (u : Nat)
    {d e : DealView} (hbuyer : d.buyerId = e.buyerId) (hseller : d.sellerId = e.sellerId)
    (hprice : d.price = e.price) (hamount : d.amount = e.amount) :
    (x.afterDeal u d).holdings = (y.afterDeal u e).holdings := by
  obtain ⟨husd, hrub⟩ := Prod.mk.inj h
  simp only [holdings, afterDeal, husd, hrub, hbuyer, hseller, hprice, hamount]

/-- Two deals with one seller and one buyer at one price are worth one of their amounts. -/
theorem Account.holdings_two_deals {x : Account} (u : Nat) {d e w : DealView}
    (hbuyer : d.buyerId = w.buyerId ∧ e.buyerId = w.buyerId)
    (hseller : d.sellerId = w.sellerId ∧ e.sellerId = w.sellerId)
    (hprice : d.price = w.price ∧ e.price = w.price) (hamount : w.amount = d.amount + e.amount) :
    (x.afterDeal u w).holdings = ((x.afterDeal u d).afterDeal u e).holdings := by
  simp only [holdings, afterDeal, hbuyer.1, hbuyer.2, hseller.1, hseller.2, hprice.1, hprice.2,
    hamount]
  refine Prod.ext ?_ ?_
  · push_cast
    split <;> split <;> omega
  · push_cast
    rw [Int.add_mul]
    split <;> split <;> omega

namespace Reference

/-- The amount that the live offers of an owner have at a price on a side. -/
def levelTotal (l : List OfferView) (t : OfferType) (price : Int) (u : Nat) : Nat :=
  sumWhere (fun o => o.type = t ∧ o.price = price ∧ o.ownerId = u) OfferView.amount l

theorem levelTotal_cons (o : OfferView) (l : List OfferView) (t : OfferType) (price : Int)
    (u : Nat) : levelTotal (o :: l) t price u =
      (if o.type = t ∧ o.price = price ∧ o.ownerId = u then o.amount else 0) +
        levelTotal l t price u := by
  rw [levelTotal, sumWhere_cons]
  simp [levelTotal]

theorem levelTotal_insert {live : KeySet OfferView OfferView.id} {o : OfferView}
    (h : ∀ v ∈ live, v.id ≠ o.id) (t : OfferType) (price : Int) (u : Nat) :
    levelTotal (live.insert o).elems t price u =
      (if o.type = t ∧ o.price = price ∧ o.ownerId = u then o.amount else 0) +
        levelTotal live.elems t price u := by
  rw [levelTotal, sumWhere_perm (KeySet.perm_insert h)]
  exact levelTotal_cons o live.elems t price u

theorem fresh_of_lt {live : KeySet OfferView OfferView.id} {k : Nat}
    (hlive : ∀ v ∈ live, v.id < k) {z : OfferView} (hz : k ≤ z.id) : ∀ v ∈ live, v.id ≠ z.id := by
  intro v hv
  have hlt := hlive v hv
  omega

/-- An offer that is new is none of the older ones. -/
theorem mem_insert_older {live : KeySet OfferView OfferView.id} {k : Nat} {v z : OfferView}
    (hfresh : ∀ o ∈ live, o.id ≠ z.id) (hz : k ≤ z.id) (hv : v.id < k) :
    v ∈ live.insert z ↔ v ∈ live := by
  have hne : v ≠ z := by
    rintro rfl
    omega
  rw [KeySet.mem_insert_of_fresh hfresh, or_iff_left hne]

/-! References that a next offer finds the same. -/

/-- The two have the same live offers, holdings and quote. -/
structure Even (a b : Reference) : Prop where
  live : a.live = b.live
  holdings : ∀ u, (a.accounts u).map Account.holdings = (b.accounts u).map Account.holdings
  quote : a.quote = b.quote

/-- The two offers differ in their ids at most. -/
structure SameTerms (v w : OfferView) : Prop where
  owner : v.ownerId = w.ownerId
  type : v.type = w.type
  price : v.price = w.price
  amount : v.amount = w.amount

/-- The two agree on everything but offers with ids from `k` on, whose amounts they agree on. -/
structure Agree (k : Nat) (a b : Reference) : Prop where
  holdings : ∀ u, (a.accounts u).map Account.holdings = (b.accounts u).map Account.holdings
  quote : a.quote = b.quote
  older : ∀ v : OfferView, v.id < k → (v ∈ a.live ↔ v ∈ b.live)
  totals : ∀ t price u,
    levelTotal a.live.elems t price u = levelTotal b.live.elems t price u

theorem Even.agree {a b : Reference} (h : Even a b) (k : Nat) : Agree k a b where
  holdings := h.holdings
  quote := h.quote
  older v _ := by rw [h.live]
  totals t price u := by rw [h.live]

/-- Which offer is taken depends on the type and the limit of the incoming one alone. -/
theorem best?_congr {a b : Reference} (h : a.live = b.live) {v w : OfferView}
    (htype : v.type = w.type) (hprice : v.price = w.price) : a.best? v = b.best? w := by
  have hmatch : matchable v = matchable w := by
    funext o
    simp only [matchable, htype, hprice]
  rw [best?, best?, h, hmatch, htype]

section Trade

variable {a b : Reference} {v w r : OfferView} {k : Nat}

theorem Even.trade (h : Even a b) (hs : SameTerms v w) : Even (a.trade v r) (b.trade w r) where
  live := by
    simp only [Reference.trade, h.live, hs.amount]
  holdings := by
    intro u
    have hu := h.holdings u
    simp only [Reference.trade, settle]
    cases hx : a.accounts u with
    | none =>
      rw [hx, Option.map_none, eq_comm, Option.map_eq_none_iff] at hu
      simp [hu]
    | some x =>
      rw [hx, Option.map_some, eq_comm, Option.map_eq_some_iff] at hu
      obtain ⟨y, hy, hxy⟩ := hu
      rw [hy]
      simp only [Option.map_some, Option.some.injEq]
      apply Account.holdings_afterDeal hxy.symm
      · simp only [dealOf, hs.type, hs.owner]
      · simp only [dealOf, hs.type, hs.owner]
      · rfl
      · simp only [dealOf, hs.amount]
  quote := rfl

theorem SameTerms.remainder (hs : SameTerms v w) (r : OfferView) :
    SameTerms (remainder v r) (remainder w r) where
  owner := hs.owner
  type := hs.type
  price := hs.price
  amount := by simp only [Reference.remainder, hs.amount]

/-- An offer that rests adds its amount to the total of its level. -/
theorem Even.insert (h : Even a b) (hs : SameTerms v w) (hlive : ∀ o ∈ a.live, o.id < k)
    (hv : k ≤ v.id) (hw : k ≤ w.id) :
    Agree k { a with live := a.live.insert v } { b with live := b.live.insert w } := by
  have hfreshv := fresh_of_lt hlive hv
  have hfreshw := fresh_of_lt hlive hw
  refine ⟨h.holdings, h.quote, fun o ho => ?_, fun t price u => ?_⟩
  · show o ∈ a.live.insert v ↔ o ∈ b.live.insert w
    rw [← h.live, mem_insert_older hfreshv hv ho, mem_insert_older hfreshw hw ho]
  · show levelTotal (a.live.insert v).elems t price u = levelTotal (b.live.insert w).elems t price u
    rw [← h.live, levelTotal_insert hfreshv, levelTotal_insert hfreshw, hs.type,
      hs.price, hs.owner, hs.amount]

/-- Offers on the same terms, posted on references that are even, by induction on the trades. -/
theorem Even.matchOffer (h : Even a b) (hs : SameTerms v w) (hlive : ∀ o ∈ a.live, o.id < k)
    (hv : k ≤ v.id) (hw : k ≤ w.id) : Agree k (a.matchOffer v) (b.matchOffer w) := by
  induction a, v using matchOffer.induct generalizing b w with
  | case1 a v hbest =>
    have hbest' : b.best? w = none := by rw [← best?_congr h.live hs.type hs.price, hbest]
    rw [matchOffer_of_none hbest, matchOffer_of_none hbest']
    exact h.insert hs hlive hv hw
  | case2 a v r hbest hr =>
    have hbest' : b.best? w = some r := by rw [← best?_congr h.live hs.type hs.price, hbest]
    have hr' : (Reference.remainder w r).amount = 0 := by rw [← (hs.remainder r).amount, hr]
    rw [matchOffer_of_some hbest, matchOffer_of_some hbest', if_pos hr, if_pos hr']
    exact (h.trade hs).agree k
  | case3 a v r hbest hr ih =>
    have hbest' : b.best? w = some r := by rw [← best?_congr h.live hs.type hs.price, hbest]
    have hr' : (Reference.remainder w r).amount ≠ 0 := by rw [← (hs.remainder r).amount]; exact hr
    rw [matchOffer_of_some hbest, matchOffer_of_some hbest', if_neg hr, if_neg hr']
    refine ih (h.trade hs) (hs.remainder r) (fun o ho => hlive o ?_) hv hw
    rw [trade_live_of_lt (lt_of_remainder_ne_zero hr)] at ho
    exact (KeySet.mem_erase.mp ho).1

end Trade

/-! The two parts of one offer. -/

section Parts

variable {a b : Reference} {o r : OfferView} {k j n : Nat}

/-- The offer with `n` more. -/
def more (o : OfferView) (n : Nat) : OfferView := { o with amount := o.amount + n }

/-- The rest of the offer, posted later. -/
def part (o : OfferView) (j n : Nat) : OfferView := { o with id := j, amount := n }

/-- A resting offer, reduced. -/
def reduced (r : OfferView) (n : Nat) : OfferView := { r with amount := r.amount - n }

/-- An offer that was taken from but not used up is the best one still. -/
theorem best?_reduced (hbest : a.best? o = some r)
    (hlive : b.live = a.live.store (reduced r n)) {v : OfferView} (htype : v.type = o.type)
    (hprice : v.price = o.price) : b.best? v = some (reduced r n) := by
  obtain ⟨hr, hrtype, hcross, hmin⟩ := best?_spec hbest
  have hrank : rank v.type (reduced r n) = rank v.type r := by
    cases v.type <;> rfl
  rw [best?, hlive]
  apply Select.best?_eq_some
  · exact KeySet.mem_store.mpr (.inr ⟨rfl, r, hr, rfl⟩)
  · rw [matchable_iff, htype, hprice]
    exact ⟨hrtype, hcross⟩
  · intro c hc hm hne
    obtain ⟨hctype, hccross⟩ := matchable_iff.mp hm
    rw [htype] at hctype
    rw [htype, hprice] at hccross
    rcases KeySet.mem_store.mp hc with ⟨hcmem, hcid⟩ | ⟨rfl, -⟩
    · rw [hrank, htype]
      apply lt_of_le_of_ne (hmin c hcmem hctype hccross)
      intro heq
      exact hcid (rank_inj heq).symm
    · exact absurd rfl hne

/-- What two trades with one resting offer leave of it is what one trade of both leaves. -/
theorem consume_consume (live : KeySet OfferView OfferView.id) {m : Nat} (h : n < r.amount)
    (hr : r ∈ live) :
    consume (consume live r n) (reduced r n) m = consume live r (n + m) := by
  have hstore : consume live r n = live.store (reduced r n) := by
    rw [consume, if_neg (by omega)]
    rfl
  have hleft : (reduced r n).amount - m = r.amount - (n + m) := by
    show r.amount - n - m = _
    omega
  apply KeySet.ext_mem
  intro c
  have hr' : reduced r n ∈ consume live r n := by
    rw [hstore]
    exact KeySet.mem_store.mpr (.inr ⟨rfl, r, hr, rfl⟩)
  have hagain : ({ reduced r n with amount := (reduced r n).amount - m } : OfferView) =
      { r with amount := r.amount - (n + m) } := by
    rw [hleft]
    rfl
  rw [mem_consume hr', mem_consume hr, mem_consume hr, hagain, hleft]
  constructor
  · rintro (⟨⟨hc, hne⟩ | ⟨rfl, -⟩, hne'⟩ | h)
    · exact .inl ⟨hc, hne⟩
    · exact absurd rfl hne'
    · exact .inr h
  · rintro (⟨hc, hne⟩ | h)
    · exact .inl ⟨.inl ⟨hc, hne⟩, hne⟩
    · exact .inr h

/-- The whole offer takes from a resting offer at once what its parts take one after the other. -/
theorem Even.trade_parts (h : Even (a.trade o r) b) (hr : r ∈ a.live) (hlt : o.amount < r.amount) :
    Even (a.trade (more o n) r) (b.trade (part o j n) (reduced r o.amount)) where
  live := by
    have hmin : min o.amount r.amount = o.amount := by omega
    have hsum : min (o.amount + n) r.amount = o.amount + min n (r.amount - o.amount) := by omega
    have hb : b.live = consume a.live r o.amount := by
      rw [← h.live]
      simp only [Reference.trade, hmin]
    show consume a.live r (min (o.amount + n) r.amount) =
      consume b.live (reduced r o.amount) (min n (r.amount - o.amount))
    rw [hb, consume_consume a.live hlt hr, hsum]
  holdings := by
    intro u
    have hu := h.holdings u
    simp only [Reference.trade, settle] at hu ⊢
    cases hx : a.accounts u with
    | none =>
      rw [hx, Option.map_none, Option.map_none, eq_comm, Option.map_eq_none_iff] at hu
      simp [hu]
    | some x =>
      rw [hx, Option.map_some, Option.map_some, eq_comm, Option.map_eq_some_iff] at hu
      obtain ⟨y, hy, hxy⟩ := hu
      rw [hy]
      simp only [Option.map_some, Option.some.injEq]
      rw [Account.holdings_two_deals u (d := a.dealOf o r)
        (e := b.dealOf (part o j n) (reduced r o.amount))]
      · exact Account.holdings_afterDeal hxy.symm u rfl rfl rfl rfl
      · exact ⟨rfl, rfl⟩
      · exact ⟨rfl, rfl⟩
      · exact ⟨rfl, rfl⟩
      · show min (o.amount + n) r.amount = min o.amount r.amount + min n (r.amount - o.amount)
        omega
  quote := rfl

/-- A trade that the first part makes to the end of the resting offer is the whole one's. -/
theorem trade_more (h : r.amount ≤ o.amount) : a.trade (more o n) r = a.trade o r := by
  have hmin : min o.amount r.amount = r.amount := by omega
  have hmin' : min (o.amount + n) r.amount = r.amount := by omega
  simp only [Reference.trade, tradeOf, dealOf, more, hmin, hmin']
  rfl

/-- What rests of one offer, or of its two parts. -/
theorem agree_rested (h : Even { a with live := a.live.insert o } b)
    (hlive : ∀ v ∈ a.live, v.id < k) (ho : k ≤ o.id) (hj : o.id < j) :
    Agree k { a with live := a.live.insert (more o n) }
      { b with live := b.live.insert (part o j n) } := by
  have hb : b.live = a.live.insert o := h.live.symm
  have hfresh : ∀ v ∈ a.live, v.id ≠ o.id := fresh_of_lt hlive ho
  have hlater : ∀ v ∈ b.live, v.id ≠ j := by
    intro v hv
    rw [hb] at hv
    rcases (KeySet.mem_insert_of_fresh hfresh).mp hv with hv | rfl
    · have hlt := hlive v hv
      omega
    · omega
  refine ⟨h.holdings, h.quote, fun v hv => ?_, fun t price u => ?_⟩
  · show v ∈ a.live.insert (more o n) ↔ v ∈ b.live.insert (part o j n)
    rw [mem_insert_older (z := part o j n) hlater (show k ≤ j by omega) hv, hb,
      mem_insert_older hfresh ho hv, mem_insert_older (z := more o n) hfresh ho hv]
  · show levelTotal (a.live.insert (more o n)).elems t price u =
      levelTotal (b.live.insert (part o j n)).elems t price u
    rw [levelTotal_insert (o := part o j n) hlater, hb, levelTotal_insert hfresh,
      levelTotal_insert (o := more o n) hfresh]
    by_cases hat : o.type = t ∧ o.price = price ∧ o.ownerId = u
    · simp only [more, part, hat, and_self, if_true]
      omega
    · simp only [more, part, hat, if_false]
      omega

/-- The second part finds nothing either once the first one rests. -/
theorem best?_part_rested (hbest : a.best? o = none) (hlive : b.live = a.live.insert o)
    (hfresh : ∀ v ∈ a.live, v.id ≠ o.id) : b.best? (part o j n) = none := by
  apply Select.best?_eq_none.mpr
  intro v hv
  rw [hlive] at hv
  rcases (KeySet.mem_insert_of_fresh hfresh).mp hv with hv | rfl
  · exact Select.best?_eq_none.mp hbest v hv
  · have hside : v.type ≠ v.type.opposite := by cases v.type <;> decide
    exact decide_eq_false fun hm => hside hm.1

/-- A first part that ends inside a resting offer, which the second one finds reduced. -/
theorem agree_inside (h : Even (a.trade o r) b) (hbest : a.best? o = some r)
    (hlt : o.amount < r.amount) (hlive : ∀ v ∈ (a.trade (more o n) r).live, v.id < k)
    (ho : k ≤ o.id) (hj : o.id < j) :
    Agree k (a.matchOffer (more o n)) (b.matchOffer (part o j n)) := by
  have hwhole : a.best? (more o n) = some r := (best?_congr rfl rfl rfl).trans hbest
  have hleft : b.live = a.live.store (reduced r o.amount) := by
    have hmin : min o.amount r.amount = o.amount := by omega
    have hne : ¬ r.amount - o.amount = 0 := by omega
    rw [← h.live]
    simp only [Reference.trade, hmin, consume, hne, if_false, reduced]
  have hpart : b.best? (part o j n) = some (reduced r o.amount) :=
    best?_reduced hbest hleft rfl rfl
  have heven := h.trade_parts (n := n) (j := j) (best?_mem hbest) hlt
  have hterms : SameTerms (remainder (more o n) r)
      (remainder (part o j n) (reduced r o.amount)) := by
    refine ⟨rfl, rfl, rfl, ?_⟩
    show o.amount + n - min (o.amount + n) r.amount = n - min n (r.amount - o.amount)
    omega
  rw [matchOffer_of_some hwhole, matchOffer_of_some hpart, ← hterms.amount]
  split
  · exact heven.agree k
  · exact heven.matchOffer hterms hlive ho (show k ≤ j by omega)

/-- One offer, or the same with a part of it posted later, by induction on the trades the first
part makes. -/
theorem agree_parts (h : Even (a.matchOffer o) b) (hn : 1 ≤ n) (hlive : ∀ v ∈ a.live, v.id < k)
    (ho : k ≤ o.id) (hj : o.id < j) :
    Agree k (a.matchOffer (more o n)) (b.matchOffer (part o j n)) := by
  induction a, o using matchOffer.induct generalizing b with
  | case1 a o hbest =>
    -- the first part rests, and the second finds nothing either
    have hwhole : a.best? (more o n) = none := (best?_congr rfl rfl rfl).trans hbest
    rw [matchOffer_of_none hbest] at h
    have hpart : b.best? (part o j n) = none :=
      best?_part_rested hbest h.live.symm (fresh_of_lt hlive ho)
    rw [matchOffer_of_none hwhole, matchOffer_of_none hpart]
    exact agree_rested h hlive ho hj
  | case2 a o r hbest hr =>
    have hwhole : a.best? (more o n) = some r := (best?_congr rfl rfl rfl).trans hbest
    rw [matchOffer_of_some hbest, if_pos hr] at h
    have hle : o.amount ≤ r.amount := by
      have hr : o.amount - min o.amount r.amount = 0 := hr
      omega
    have hshrink : ∀ v ∈ (a.trade (more o n) r).live, v.id < k := by
      intro v hv
      rcases (mem_consume (best?_mem hbest)).mp hv with ⟨hv, -⟩ | ⟨rfl, -⟩
      · exact hlive v hv
      · exact hlive r (best?_mem hbest)
    rcases Nat.lt_or_eq_of_le hle with hlt | heq
    · exact agree_inside h hbest hlt hshrink ho hj
    · -- the cut is at the end of the resting offer
      have hleft : (remainder (more o n) r).amount = n := by
        show o.amount + n - min (o.amount + n) r.amount = n
        omega
      rw [matchOffer_of_some hwhole, if_neg (by omega)]
      rw [trade_more heq.ge] at hshrink ⊢
      exact h.matchOffer ⟨rfl, rfl, rfl, hleft⟩ hshrink ho (show k ≤ j by omega)
  | case3 a o r hbest hr ih =>
    have hlt := lt_of_remainder_ne_zero hr
    have hwhole : a.best? (more o n) = some r := (best?_congr rfl rfl rfl).trans hbest
    have hleft : (remainder (more o n) r).amount = (remainder o r).amount + n := by
      show o.amount + n - min (o.amount + n) r.amount = o.amount - min o.amount r.amount + n
      omega
    have hmore : remainder (more o n) r = more (remainder o r) n := by
      show ({ o with amount := (remainder (more o n) r).amount } : OfferView) =
        { o with amount := (remainder o r).amount + n }
      rw [hleft]
    rw [matchOffer_of_some hbest, if_neg hr] at h
    rw [matchOffer_of_some hwhole, if_neg (by omega), hmore, trade_more hlt.le]
    refine ih h (fun v hv => hlive v ?_) ho hj
    exact ((mem_trade_of_lt hlt).mp hv).1

end Parts

end Reference

end ForexMarket
