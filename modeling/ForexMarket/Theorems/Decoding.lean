import ForexMarket.Lib.Double
import ForexMarket.Theorems.Framing

/- How the fields of a post are read. `PRICE` is narrowed to 32 bits and `AMOUNT` to an
   unsigned 64, both modulo, and whatever is not `"BUY"` is a SELL, so an offer is posted
   for every pair of integers that the library stores as such and every side. It is the
   offer of the request when the integers are in the ranges of their types and the side
   is one of the two. A request with a number that no double is as large as is refused
   by `parse`, before a field of it is read. -/
namespace ForexMarket

open Wrap
open Json (Written strtof truncate)

/-- The value that is stored for the digits of an integer: an integer where one of 64 bits, signed
or unsigned, is enough, and a double otherwise. -/
def Stores (n : Int) (v : Json) : Prop := (Written.integer n).value? = some v

/-- The integers that are stored as integers. -/
def Fits64 (n : Int) : Prop := -2 ^ 63 ≤ n ∧ n < 2 ^ 64

instance (n : Int) : Decidable (Fits64 n) := inferInstanceAs (Decidable (_ ∧ _))

section Stores

variable {n : Int} {v : Json}

theorem stores_of_fits (h : Fits64 n) : Stores n v ↔ v = .int n := by
  have hvalue : (Written.integer n).value? = some (.int n) :=
    (Json.number?_integerToken n).trans (if_pos h)
  rw [Stores, hvalue, Option.some_inj]
  exact eq_comm

/-- The other integers are stored as doubles that are as large. -/
theorem stores_of_not_fits (h : ¬ Fits64 n) (hv : Stores n v) :
    ∃ m e, v = .float m e ∧ (truncate m e < -2 ^ 62 ∨ 2 ^ 64 ≤ truncate m e) := by
  have hvalue : (Written.integer n).value? = (strtof n 0).map fun d => .float d.1 d.2 :=
    (Json.number?_integerToken n).trans (if_neg h)
  obtain ⟨⟨m, e⟩, hread, rfl⟩ := Option.map_eq_some_iff.mp (hvalue.symm.trans hv)
  refine ⟨m, e, rfl, ?_⟩
  have hsize : 2 ^ 63 ≤ n.natAbs := by
    simp only [Fits64, not_and_or] at h
    omega
  rw [Double.truncate_strtof (by omega) hread]
  split
  · have hle := Double.le_nearest_of_le hsize
    left
    omega
  · have hle := Double.le_nearest_of_le (k := 64) (n := n.natAbs) (by
      simp only [Fits64, not_and_or] at h
      omega)
    right
    omega

theorem getInt_of_stores (hv : Stores n v) :
    v.getInt = if Fits64 n then .ok (wrap32 n) else .error .undefined := by
  by_cases h : Fits64 n
  · rw [(stores_of_fits h).mp hv, if_pos h]
    rfl
  · obtain ⟨m, e, rfl, hsize⟩ := stores_of_not_fits h hv
    rw [if_neg h, Json.getInt, if_neg (by omega)]

theorem getUInt64_of_stores (hv : Stores n v) :
    v.getUInt64 = if Fits64 n then .ok (UInt64.ofInt n) else .error .undefined := by
  by_cases h : Fits64 n
  · rw [(stores_of_fits h).mp hv, if_pos h]
    rfl
  · obtain ⟨m, e, rfl, hsize⟩ := stores_of_not_fits h hv
    rw [if_neg h, Json.getUInt64, if_neg (by omega)]

end Stores

/-- The request posts an offer for a registered user, at a price and for an amount that are
integers. -/
structure PostRequest (s : Market) (request : Written) (u : UInt64) (price amount : Int)
    (side : Bytes) : Prop where
  type : request.member jsonField.type = some (.string requests.postOffer)
  side : request.member jsonField.offerSide = some (.string side)
  userId : ∃ w v, request.member jsonField.userId = some w ∧ w.value? = some v ∧
    v.getUInt64 = .ok u
  registered : ∃ d, s.users.find? u.toNat = some d
  price : request.member jsonField.price = some (.integer price)
  amount : request.member jsonField.amount = some (.integer amount)

/-- The side names the type. -/
def NamesType (side : Bytes) (type : OfferType) : Prop :=
  (side = jsonField.buy ∧ type = .BUY) ∨ (side = jsonField.sell ∧ type = .SELL)

namespace Session

variable {δ : Type} (db : Database δ)

/-- The market is unchanged, or as it is when the user posts an offer, with an `int` price, that has
this price, amount and side. -/
def Exact (s s' : Server δ) (u : UInt64) (price amount : Int) (side : Bytes) : Prop :=
  s'.market = s.market ∨ ∃ type p n, Fits32 p ∧
    s'.market = (s.market.step (.postOffer u.toNat type p n)).2 ∧
    p = price ∧ (n.toNat : Int) = amount ∧ NamesType side type

/-- The request is refused with an exception, or replied to; what is undefined is neither. -/
def Outcome.Exact (s : Server δ) (u : UInt64) (price amount : Int) (side : Bytes) :
    Outcome δ → Prop
  | .replied _ _ _ s' => Session.Exact s s' u price amount side
  | .threw _ e s' => e ≠ .json .undefined ∧ Session.Exact s s' u price amount side
  | .rejected => True
  | .undefined => False

variable {s : Server δ} {request : Json} {u : UInt64} {price amount : Int} {side : Bytes}

/-- How the request is read. -/
theorem commandOf_postRequest {w : Written} (h : PostRequest s.market w u price amount side)
    (hv : w.value? = some request) :
    commandOf request =
      if Fits64 price ∧ Fits64 amount then
        .ok (.post u (if side = jsonField.buy then .BUY else .SELL) (wrap32 price)
          (UInt64.ofInt amount))
      else .error .undefined := by
  obtain ⟨p, hprice, hp, -⟩ := Written.at'_of_member hv h.price
  obtain ⟨a, hamount, ha, -⟩ := Written.at'_of_member hv h.amount
  obtain ⟨_, rfl, -, htype⟩ : ∃ x, x = Json.string requests.postOffer ∧ _ := by
    obtain ⟨x, hx, hat⟩ := Written.at'_of_member hv h.type
    exact ⟨x, (Option.some.inj hx).symm, hat⟩
  obtain ⟨_, rfl, hside, -⟩ : ∃ x, x = Json.string side ∧ _ := by
    obtain ⟨x, hx, hat⟩ := Written.at'_of_member hv h.side
    exact ⟨x, (Option.some.inj hx).symm, hat⟩
  have huser : (request.at' jsonField.userId).bind Json.getUInt64 = .ok u := by
    obtain ⟨m, x, hm, hx, hread⟩ := h.userId
    obtain ⟨y, hy, hat, -⟩ := Written.at'_of_member hv hm
    rw [hat, ← Option.some.inj (hx.symm.trans hy)]
    exact hread
  have hkind : commandOf request = postCommand request := by
    rw [commandOf, htype]
    rfl
  have hbuy : (Json.string side).isString jsonField.buy = decide (side = jsonField.buy) := rfl
  rw [hkind, postCommand, hside, huser, hp, ha]
  simp only [bind, Except.bind, getInt_of_stores hprice, getUInt64_of_stores hamount, hbuy,
    decide_eq_true_eq]
  by_cases hp : Fits64 price
  · by_cases ha : Fits64 amount
    · simp only [hp, ha, and_self, if_true]
      rfl
    · simp only [hp, ha, and_false, if_true, if_false]
  · simp only [hp, false_and, if_false]

/-- A request that is read as a command of a registered user makes its call and is replied to. -/
theorem serve_registered (hs : s.market.Reachable) {c : Command} (hc : commandOf request = .ok c)
    (hu : c.user = some u) (hregistered : ∃ d, s.market.users.find? u.toNat = some d) {op : Op}
    (hop : c.call (db.usernameExist s.db) = some op) :
    ∃ reply s', serve db s request = (.ok reply, s') ∧ s'.market = (s.market.step op).2 := by
  obtain ⟨a, hstands⟩ := hs.stands
  obtain ⟨d, hd⟩ := hregistered
  have hok := execute_isOk db hstands c
  have hmarket := execute_market db s c
  rw [answered_of_user hu, hd] at hok
  rw [hop] at hmarket
  rw [serve_eq, hc, attempt_ok]
  cases hexec : execute db s c with
  | mk result s' =>
    rw [hexec] at hok hmarket
    cases result with
    | error e => cases hok
    | ok reply => exact ⟨reply, s', rfl, hmarket⟩

/-- The market after the post that is read, where the request has integers of 64 bits. -/
theorem exact_posted_iff (hs : s.market.Reachable) {s' : Server δ}
    (hmarket : s'.market = (s.market.step (.postOffer u.toNat
      (if side = jsonField.buy then .BUY else .SELL) (wrap32 price) (UInt64.ofInt amount))).2) :
    Exact s s' u price amount side ↔
      Fits32 price ∧ (0 ≤ amount ∧ amount < 2 ^ 64) ∧
        (side = jsonField.buy ∨ side = jsonField.sell) := by
  constructor
  · rintro (hsame | ⟨type, p, n, hp, -, rfl, rfl, hside⟩)
    · -- a post draws an offer id
      obtain ⟨a, hstands⟩ := hs.stands
      have hid := hstands.step_offerId (.postOffer u.toNat
        (if side = jsonField.buy then .BUY else .SELL) (wrap32 price) (UInt64.ofInt amount))
      rw [← hmarket, hsame] at hid
      simp [Reference.isPost] at hid
    · have hlt := n.toNat_lt
      exact ⟨hp, ⟨Int.natCast_nonneg _, by omega⟩, hside.imp And.left And.left⟩
  · rintro ⟨hprice, ⟨hmin, hmax⟩, hside⟩
    refine .inr ⟨_, wrap32 price, UInt64.ofInt amount, fits32_wrap32 price, hmarket,
      wrap32_eq_self_iff.mpr hprice, ?_, ?_⟩
    · have hlt : amount.toNat < 2 ^ 64 := by omega
      rw [UInt64.ofInt, Int.emod_eq_of_lt hmin hmax, UInt64.toNat_ofNat_of_lt' hlt]
      exact Int.toNat_of_nonneg hmin
    · rcases hside with rfl | rfl
      · exact .inl ⟨rfl, rfl⟩
      · exact .inr ⟨rfl, rfl⟩

/-- From a reachable state, a message that is a post by a registered user is refused with the market
unchanged, or the offer of the message is posted, exactly when the message leaves room for the
terminator, and either has a number that no double is as large as, or its integers are in the ranges
of `int` and `size_t` and its side is one of the two. -/
theorem handleRead_exact_iff (data : Bytes) (hs : s.market.Reachable) {bytes : Bytes} {w : Written}
    (htext : Json.Lexer.tokens bytes = some w.tokens)
    (h : PostRequest s.market w u price amount side) :
    (handleRead db data s bytes).Exact s u price amount side ↔
      bytes.length < maxLength ∧
        (w.TooLarge ∨ Fits32 price ∧ (0 ≤ amount ∧ amount < 2 ^ 64) ∧
          (side = jsonField.buy ∨ side = jsonField.sell)) := by
  by_cases hlen : bytes.length < maxLength
  case neg =>
    rw [handleRead, if_neg hlen]
    exact ⟨False.elim, fun hcond => absurd hcond.1 hlen⟩
  simp only [handleRead, hlen, if_true, true_and, parse_data, Json.parse_written htext]
  cases hv : w.value? with
  | none =>
    -- `parse` throws
    exact ⟨fun _ => .inl ((Written.value?_eq_none_iff w).mp hv), fun _ => trivial⟩
  | some request =>
    have hstored : ¬ w.TooLarge := fun hlarge => by
      rw [(Written.value?_eq_none_iff w).mpr hlarge] at hv
      cases hv
    rw [or_iff_right hstored]
    have hc := commandOf_postRequest h hv
    by_cases hfits : Fits64 price ∧ Fits64 amount
    · rw [if_pos hfits] at hc
      obtain ⟨reply, s', hserve, hmarket⟩ := serve_registered db hs hc rfl h.registered rfl
      simp only [hserve]
      exact exact_posted_iff hs hmarket
    · -- a double that is in neither range is converted
      have hserve : serve db s request = (.error (.json .undefined), s) := by
        rw [serve_eq, hc, if_neg hfits]
        rfl
      simp only [hserve]
      refine ⟨fun hexact => absurd rfl hexact.1, fun hcond => absurd ?_ hfits⟩
      obtain ⟨hprice, hamount, -⟩ := hcond
      simp only [Fits32, Fits64] at hprice ⊢
      omega

/-! Posts of a registered user on a small market. -/

/-- A request of user 1 to BUY at 9. -/
def buyAtNine (amount : Int) : Json :=
  .ofMembers [(jsonField.type, .string requests.postOffer), (jsonField.userId, .int 1),
    (jsonField.offerSide, .string jsonField.buy), (jsonField.price, .int 9),
    (jsonField.amount, .int amount)]

/-- Its text. -/
def buyAtNineText (amount : Int) : Bytes := (buyAtNine amount).dump.getD []

theorem tokens_buyAtNine (amount : Int) :
    Json.Lexer.tokens (buyAtNineText amount) = some (buyAtNine amount).written.tokens :=
  Json.tokens_of_dump (v := buyAtNine amount) trivial rfl

theorem buyAtNine_postRequest (amount : Int) :
    PostRequest sampleServer.market (buyAtNine amount).written 1 9 amount jsonField.buy where
  type := rfl
  side := rfl
  userId := ⟨_, _, rfl, rfl, rfl⟩
  registered := ⟨_, rfl⟩
  price := rfl
  amount := rfl

/-- More than every double. -/
def hugeAmount : Int := 10 ^ 400

/-- The amount 5 is posted, and the huge one is refused. -/
theorem buyAtNine_exact :
    (handleRead userTable [] sampleServer (buyAtNineText 5)).Exact sampleServer 1 9 5
        jsonField.buy ∧
      (handleRead userTable [] sampleServer (buyAtNineText hugeAmount)).Exact sampleServer 1 9
        hugeAmount jsonField.buy := by
  rw [handleRead_exact_iff userTable [] Market.sample_reachable (tokens_buyAtNine 5)
      (buyAtNine_postRequest 5),
    handleRead_exact_iff userTable [] Market.sample_reachable (tokens_buyAtNine hugeAmount)
      (buyAtNine_postRequest hugeAmount)]
  exact ⟨⟨by decide, .inr (by decide)⟩, by decide +kernel, .inl (by decide +kernel)⟩

/-- The counter of offer ids when a message was replied to. -/
def Outcome.offerId : Outcome δ → Option Nat
  | .replied _ _ _ s' => some s'.market.offerId
  | _ => none

/-- No negative amount is posted as it is. -/
theorem Outcome.not_exact_of_neg {o : Outcome δ} {n : Nat} (hid : o.offerId = some n)
    (hn : n ≠ s.market.offerId) (hneg : amount < 0) : ¬ o.Exact s u price amount side := by
  intro h
  cases o with
  | replied request reply data s' =>
    rcases h with hsame | ⟨_, _, m, -, -, -, hm, -⟩
    · rw [Outcome.offerId, hsame, Option.some_inj] at hid
      exact absurd hid.symm hn
    · omega
  | _ => cases hid

theorem negativeAmount_offerId :
    (handleRead userTable [] sampleServer (buyAtNineText (-1))).offerId =
      some 5 := by
  decide +kernel

/-- A negative amount is posted, as another one. -/
theorem negativeAmount_not_exact :
    ¬ (handleRead userTable [] sampleServer (buyAtNineText (-1))).Exact
        sampleServer 1 9 (-1) jsonField.buy :=
  Outcome.not_exact_of_neg negativeAmount_offerId (by decide) (by decide)

end Session

end ForexMarket
