import ForexMarket.Proofs.Answers
import ForexMarket.Spec.Desk

/- The server reads a request as what the client asked for (`commandOf_toJson`), and the client
   prints of a reply what the desk tells it (`printResult_replyValue`). So on the wire
   nothing is lost of a command or of its answer. -/
namespace ForexMarket

open Wrap

/-! Requests. -/

namespace ClientRequest

/-- What a client at a terminal asks for: the values are those `SafeIntInput` lets through. -/
def Entered : ClientRequest → Prop
  | register .. | login .. => True
  | idOnly type _ =>
    type = requests.quotes ∨ type = requests.balance ∨ type = requests.activeOffers ∨
      type = requests.closedDeals
  | postOffer _ _ amount price => (0 < amount ∧ amount < 2 ^ 31) ∧ Fits32 price
  | cancelOffer _ offerId => 0 ≤ offerId ∧ offerId < 2 ^ 31

theorem getInt_ofInt {n : Int} (h : Fits32 n) : (Json.ofInt n).getInt = .ok n := by
  have hsame := wrap32_eq_self_iff.mpr h
  simp only [Json.ofInt, Json.getInt, hsame]

theorem getUInt64_ofInt {n : Int} (h : Fits32 n) : (Json.ofInt n).getUInt64 = .ok (.ofInt n) := by
  simp only [Json.ofInt, Json.getUInt64, wrap32_eq_self_iff.mpr h]

theorem isString_side (offerSide : Int) :
    (Json.string (if offerSide = 1 then jsonField.buy else jsonField.sell)).isString
      jsonField.buy = decide (offerSide = 1) := by
  by_cases h : offerSide = 1
  · simp [h, Json.isString]
  · simp only [if_neg h, decide_eq_false h]
    decide

theorem userCommand_idOnly (type : Bytes) (userId : UInt64) (f : UInt64 → Command) :
    Session.userCommand (idOnly type userId).toJson f = .ok (f userId) := by
  calc Session.userCommand (idOnly type userId).toJson f
      = (Json.ofUInt64 userId).getUInt64 >>= fun u => .ok (f u) := rfl
    _ = .ok (f userId) := by rw [Json.getUInt64_ofUInt64]; rfl

theorem authCommand_authObject (type username : Bytes) (pwHash : UInt64)
    (f : Bytes → UInt64 → Command) :
    Session.authCommand (authObject type username pwHash) f = .ok (f username pwHash) := by
  calc Session.authCommand (authObject type username pwHash) f
      = (Json.ofUInt64 pwHash).getUInt64 >>= fun h => .ok (f username h) := rfl
    _ = .ok (f username pwHash) := by rw [Json.getUInt64_ofUInt64]; rfl

/-- The server reads a request as what the client asked for. -/
theorem commandOf_toJson {r : ClientRequest} (h : r.Entered) :
    Session.commandOf r.toJson = .ok r.command := by
  cases r with
  | register username pwHash =>
    exact authCommand_authObject requests.registration username pwHash .register
  | login username pwHash =>
    exact authCommand_authObject requests.login username pwHash .login
  | idOnly type userId =>
    rcases h with rfl | rfl | rfl | rfl
    · rfl
    · exact userCommand_idOnly requests.balance userId .balance
    · exact userCommand_idOnly requests.activeOffers userId .activeOffers
    · exact userCommand_idOnly requests.closedDeals userId .closedDeals
  | postOffer userId offerSide amount price =>
    obtain ⟨⟨hpos, hlt⟩, hprice⟩ := h
    have hamount : Fits32 amount := ⟨by omega, hlt⟩
    calc Session.commandOf (postOffer userId offerSide amount price).toJson
        = (do
            let u ← (Json.ofUInt64 userId).getUInt64
            let p ← (Json.ofInt price).getInt
            let n ← (Json.ofInt amount).getUInt64
            .ok (.post u (if (Json.string (if offerSide = 1 then jsonField.buy
              else jsonField.sell)).isString jsonField.buy then .BUY else .SELL) p n)) := rfl
      _ = .ok (postOffer userId offerSide amount price).command := by
        rw [Json.getUInt64_ofUInt64, getInt_ofInt hprice, getUInt64_ofInt hamount, isString_side]
        simp only [decide_eq_true_eq]
        rfl
  | cancelOffer userId offerId =>
    have hid : Fits32 offerId := ⟨by have h0 := h.1; omega, h.2⟩
    calc Session.commandOf (cancelOffer userId offerId).toJson
        = (do
            let u ← (Json.ofUInt64 userId).getUInt64
            let i ← (Json.ofInt offerId).getUInt64
            .ok (.cancel u i)) := rfl
      _ = .ok (cancelOffer userId offerId).command := by
        rw [Json.getUInt64_ofUInt64, getUInt64_ofInt hid]
        rfl

end ClientRequest

/-! Responses. -/

namespace Answer

/-- The value the server replies with. -/
def value : Command → Answer → Json
  | .register _ _, auth userId => Serializer.authReply requests.regConfirmation userId
  | .login _ _, auth userId => Serializer.authReply requests.login userId
  | .balance _, market _ (.balance b) => Serializer.balanceReply b
  | .activeOffers _, market _ (.offers l) => Serializer.activeOffersReply l
  | .closedDeals u, market _ (.deals l) => Serializer.closedDealsReply u.toNat l
  | .post _ _ _ _, market _ (.posted _) => .string (text "Offer was posted.")
  | .quotes, market quote (.quotes q) => Serializer.quotesReply quote q
  | .cancel _ _, market _ (.removed deleted) => Serializer.cancelReply deleted
  | _, _ => .string (text "ERROR: Unknown request type")

/-- The kind of answer a command gets. -/
inductive Answers : Command → Answer → Prop
  | register (username : Bytes) (pwHash : UInt64) (userId : Option UInt64) :
    Answers (.register username pwHash) (auth userId)
  | login (username : Bytes) (pwHash : UInt64) (userId : Option UInt64) :
    Answers (.login username pwHash) (auth userId)
  | balance (u : UInt64) (quote : Option Int) (b : Balance) :
    Answers (.balance u) (market quote (.balance b))
  | activeOffers (u : UInt64) (quote : Option Int) (l : List OfferView) :
    Answers (.activeOffers u) (market quote (.offers l))
  | closedDeals (u : UInt64) (quote : Option Int) (l : List DealView) :
    Answers (.closedDeals u) (market quote (.deals l))
  | post (u : UInt64) (side : OfferType) (price : Int) (amount : UInt64) (quote : Option Int)
      (id : Nat) : Answers (.post u side price amount) (market quote (.posted id))
  | quotes (quote : Option Int) (q : AskBidQuotesInfo) :
    Answers .quotes (market quote (.quotes q))
  | cancel (u i : UInt64) (quote : Option Int) (deleted : Bool) :
    Answers (.cancel u i) (market quote (.removed deleted))

end Answer

/-- The command a request of the menu is for. -/
inductive RequestType.Asks (userId : UInt64) : RequestType → Command → Prop
  | post (side : OfferType) (price : Int) (amount : UInt64) :
    Asks userId postOffer (.post userId side price amount)
  | cancel (i : UInt64) : Asks userId cancelOffer (.cancel userId i)
  | quotes : Asks userId getQuotes .quotes
  | balance : Asks userId getBalance (.balance userId)
  | activeOffers : Asks userId getActive (.activeOffers userId)
  | closedDeals : Asks userId getClosed (.closedDeals userId)

namespace Client

theorem nullableIntToString_nullable (q : Option Int) :
    nullableIntToString (nullable q) = .ok (Answer.quoteText q) := by
  cases q with
  | none => rfl
  | some n =>
    have hget : (Json.ofInt n).getInt = .ok (wrap32 n) := by
      simp only [Json.ofInt, Json.getInt, wrap32_eq_self_iff.mpr (fits32_wrap32 n)]
    calc nullableIntToString (nullable (some n))
        = (Json.ofInt n).getInt.map Json.dumpInteger := rfl
      _ = .ok (Answer.quoteText (some n)) := by rw [hget]; rfl

/-- The quotes are printed as they were replied. -/
theorem printResult_quotes (quote : Option Int) (q : AskBidQuotesInfo) :
    GetQuotesHandler.printResult (Serializer.quotesReply quote q) =
      .ok (Answer.quotesText quote q) := by
  have hline : ∀ (label : String) (key : Bytes) (n : Option Int),
      (Serializer.quotesReply quote q).at' key = .ok (nullable n) →
      printQuote label key (Serializer.quotesReply quote q) =
        .ok (Answer.line label (Answer.quoteText n)) := by
    intro label key n hat
    calc printQuote label key (Serializer.quotesReply quote q)
        = (do
            let shown ← nullableIntToString (nullable n)
            .ok (text label ++ shown ++ text "\n")) := by rw [printQuote, hat]; rfl
      _ = _ := by rw [nullableIntToString_nullable]; rfl
  rw [GetQuotesHandler.printResult, hline _ _ quote rfl, hline _ _ q.askQuote rfl,
    hline _ _ q.bidQuote rfl, hline _ _ q.spread rfl]
  rfl

theorem printResult_balance (b : Balance) :
    GetBalanceRequest.printResult (Serializer.balanceReply b) = .ok (Answer.balanceText b) := rfl

theorem printOffer_offerObject (o : OfferView) :
    printOffer (Serializer.offerObject o) = .ok (Answer.offerText o) := rfl

theorem printDeal_dealObject (d : DealView) :
    printDeal (Serializer.dealObject d) = .ok (Answer.dealText d) := rfl

/-- The entries of a list are printed one by one. -/
theorem mapM_map {α : Type} {f : α → Json} {print : Json → Except Json.Exception Bytes}
    {shown : α → Bytes} (h : ∀ a, print (f a) = .ok (shown a)) (l : List α) :
    (l.map f).mapM print = .ok (l.map shown) := by
  induction l with
  | nil => rfl
  | cons a l ih =>
    rw [List.map_cons, List.mapM_cons, h, ih]
    rfl

theorem printList_map {α : Type} {f : α → Json} {print : Json → Except Json.Exception Bytes}
    {shown : α → Bytes} (h : ∀ a, print (f a) = .ok (shown a)) (heading : String) (l : List α) :
    printList heading print (.array (l.map f)) = .ok (Answer.listText heading (l.map shown)) := by
  rw [printList, Answer.listText]
  cases l with
  | nil => rfl
  | cons a l =>
    have hitems : (Json.array ((a :: l).map f)).items = (a :: l).map f := rfl
    rw [hitems, mapM_map h]
    rfl

/-- A list is empty when its parts are. -/
theorem isEmpty_filter_or {α : Type} {p q : α → Bool} (h : ∀ a, p a = true ∨ q a = true)
    (l : List α) : ((l.filter p).isEmpty && (l.filter q).isEmpty) = l.isEmpty := by
  cases l with
  | nil => rfl
  | cons a l =>
    rcases h a with ha | ha
    · simp [List.filter_cons_of_pos ha]
    · simp [List.filter_cons_of_pos ha]

theorem printResult_activeOffers (l : List OfferView) :
    GetActiveOffersRequest.printResult (Serializer.activeOffersReply l) =
      .ok (Answer.offersText l) := by
  have hempty := isEmpty_filter_or (p := fun o : OfferView => decide (o.type = .BUY))
    (q := fun o => decide (o.type = .SELL)) (fun o => by cases o.type <;> simp) l
  have hbuy : (Serializer.activeOffersReply l).at' jsonField.buy =
      .ok (.array ((l.filter fun o => o.type = .BUY).map Serializer.offerObject)) := rfl
  have hsell : (Serializer.activeOffersReply l).at' jsonField.sell =
      .ok (.array ((l.filter fun o => o.type = .SELL).map Serializer.offerObject)) := rfl
  rw [GetActiveOffersRequest.printResult, hbuy, hsell]
  simp only [bind, Except.bind, printList_map printOffer_offerObject, Json.empty,
    List.isEmpty_map, hempty]
  rfl

theorem printResult_closedDeals (u : Nat) (l : List DealView) :
    GetClosedDealsRequest.printResult (Serializer.closedDealsReply u l) =
      .ok (Answer.dealsText u l) := by
  have hempty : ((l.filter fun d => d.buyerId ≠ d.sellerId ∧ d.buyerId = u).isEmpty &&
      (l.filter fun d => d.buyerId ≠ d.sellerId ∧ d.buyerId ≠ u).isEmpty &&
      (l.filter fun d => d.buyerId = d.sellerId).isEmpty) = l.isEmpty := by
    cases l with
    | nil => rfl
    | cons d l =>
      by_cases hself : d.buyerId = d.sellerId
      · simp [hself]
      · by_cases hu : d.buyerId = u
        · have hother : u ≠ d.sellerId := hu ▸ hself
          simp [hu, hother]
        · simp [hself, hu]
  have hbuy : (Serializer.closedDealsReply u l).at' jsonField.buy =
      .ok (.array ((l.filter fun d => d.buyerId ≠ d.sellerId ∧ d.buyerId = u).map
        Serializer.dealObject)) := rfl
  have hsell : (Serializer.closedDealsReply u l).at' jsonField.sell =
      .ok (.array ((l.filter fun d => d.buyerId ≠ d.sellerId ∧ d.buyerId ≠ u).map
        Serializer.dealObject)) := rfl
  have hself : (Serializer.closedDealsReply u l).at' jsonField.buySell =
      .ok (.array ((l.filter fun d => d.buyerId = d.sellerId).map Serializer.dealObject)) := rfl
  rw [GetClosedDealsRequest.printResult, hbuy, hsell, hself]
  simp only [bind, Except.bind, printList_map printDeal_dealObject, Json.empty,
    List.isEmpty_map, hempty]
  rfl

theorem printResult_cancel (deleted : Bool) :
    CancleOfferRequest.printResult (Serializer.cancelReply deleted) =
      .ok (Answer.cancelText deleted) := by
  cases deleted <;> rfl

/-- The client prints of the reply to its request what the answer says. -/
theorem printResult_value {type : RequestType} {userId : UInt64} {c : Command} {ans : Answer}
    (hc : type.Asks userId c) (h : ans.Answers c) :
    ∃ shown, ans.shown type userId = some shown ∧ printResult type (ans.value c) = .ok shown := by
  cases hc with
  | post => cases h; exact ⟨_, rfl, rfl⟩
  | cancel => cases h with | cancel _ _ _ deleted => exact ⟨_, rfl, printResult_cancel deleted⟩
  | quotes => cases h with | quotes quote q => exact ⟨_, rfl, printResult_quotes quote q⟩
  | balance => cases h with | balance _ _ b => exact ⟨_, rfl, printResult_balance b⟩
  | activeOffers =>
    cases h with | activeOffers _ _ l => exact ⟨_, rfl, printResult_activeOffers l⟩
  | closedDeals =>
    cases h with | closedDeals _ _ l => exact ⟨_, rfl, printResult_closedDeals userId.toNat l⟩

end Client

/-! Replies. -/

/-- The kind of reply a call gets. -/
inductive Op.Answered : Op → Reply → Prop
  | fault (op : Op) (f : Fault) : Answered op (.fault f)
  | registered (username : String) (exist : Bool) (id : Option Nat) :
    Answered (.registerUser username exist) (.registered id)
  | depositedUSD (u : Nat) (amount : UInt64) : Answered (.depositUSD u amount) .done
  | depositedRUB (u : Nat) (amount : UInt64) : Answered (.depositRUB u amount) .done
  | balance (u : Nat) (b : Balance) : Answered (.getUserBalance u) (.balance b)
  | offers (u : Nat) (l : List OfferView) : Answered (.getActiveOffers u) (.offers l)
  | deals (u : Nat) (l : List DealView) : Answered (.getClosedDeals u) (.deals l)
  | posted (u : Nat) (type : OfferType) (price : Int) (amount : UInt64) (id : Nat) :
    Answered (.postOffer u type price amount) (.posted id)
  | removed (u i : Nat) (b : Bool) : Answered (.removeOffer u i) (.removed b)
  | quote (q : Option Int) : Answered .getQuote (.quote q)
  | quotes (q : AskBidQuotesInfo) : Answered .getAskBidQuotes (.quotes q)

theorem Reference.step_answered (a : Reference) (op : Op) : op.Answered (a.step op).1 := by
  cases op with
  | registerUser username exist => cases exist <;> exact .registered _ _ _
  | getQuote => exact .quote _
  | getAskBidQuotes => exact .quotes _
  | removeOffer u i =>
    simp only [step]
    split
    · exact .fault _ _
    · split <;> exact .removed _ _ _
  | postOffer u type price amount =>
    simp only [step]
    split
    · exact .fault _ _
    · exact .posted _ _ _ _ _
  | depositUSD u amount =>
    simp only [step, writeUser]
    split
    · exact .fault _ _
    · exact .depositedUSD _ _
  | depositRUB u amount =>
    simp only [step, writeUser]
    split
    · exact .fault _ _
    · exact .depositedRUB _ _
  | getUserBalance u =>
    simp only [step, readUser]
    split
    · exact .fault _ _
    · exact .balance _ _
  | getActiveOffers u =>
    simp only [step, readUser]
    split
    · exact .fault _ _
    · exact .offers _ _
  | getClosedDeals u =>
    simp only [step, readUser]
    split
    · exact .fault _ _
    · exact .deals _ _

section Replies

variable {δ : Type} {db : Database δ} {s : Server δ} {a : Reference}

/-- A command that is answered is replied to with the value of the answer, and one that is not
throws. -/
theorem Stands.execute_answer (db : Database δ) (h : Stands s.market a) {c : Command}
    (hc : c ≠ .unknown) :
    (∃ ans, Desk.answerTo db a s.db c = some ans ∧ ans.Answers c ∧
        (Session.execute db s c).1 = replyOf (ans.value c)) ∨
      (Desk.answerTo db a s.db c = none ∧ ∃ e, (Session.execute db s c).1 = .error e) := by
  have hquote : s.market.quote = a.quote := h.sim.quote
  -- a call of the market is answered as the reference answers it
  have hcall : ∀ op, c.call (db.usernameExist s.db) = some op →
      op.Answered (Session.answerOf (db.usernameExist s.db) s.market c) ∧
        (a.step op).1 = Session.answerOf (db.usernameExist s.db) s.market c := by
    intro op hop
    have hreply : Session.answerOf (db.usernameExist s.db) s.market c = (a.step op).1 := by
      simp only [Session.answerOf, hop]
      exact h.reply_eq op
    rw [hreply]
    exact ⟨a.step_answered op, rfl⟩
  rw [Session.execute_reply, hquote]
  unfold Desk.answerTo
  cases c with
  | unknown => exact absurd rfl hc
  | register username pwHash =>
    simp only [Command.call, Session.queryOf]
    cases hexist : (db.usernameExist s.db username).1 with
    | error e => exact .inr ⟨rfl, e, rfl⟩
    | ok exist =>
      obtain ⟨hkind, hstep⟩ := hcall _ (Command.call_register.mpr ⟨exist, hexist, rfl⟩)
      simp only [Except.toOption, Option.map_some, hstep]
      generalize Session.answerOf (db.usernameExist s.db) s.market _ = r at hkind
      cases hkind with
      | fault f => exact .inr ⟨rfl, _, rfl⟩
      | _ => exact .inl ⟨_, rfl, by constructor, rfl⟩
  | login username pwHash =>
    simp only [Command.call, Session.queryOf]
    cases (db.getUserId s.db username pwHash).1 with
    | error e => exact .inr ⟨rfl, e, rfl⟩
    | ok userId => exact .inl ⟨_, rfl, .login username pwHash userId, rfl⟩
  | _ =>
    obtain ⟨hkind, hstep⟩ := hcall _ rfl
    simp only [Command.call, hstep]
    generalize Session.answerOf (db.usernameExist s.db) s.market _ = r at hkind
    cases hkind with
    | fault f => exact .inr ⟨rfl, _, rfl⟩
    | _ => exact .inl ⟨_, rfl, by constructor, rfl⟩

theorem Stands.answers_of_answerTo (h : Stands s.market a) {c : Command} (hc : c ≠ .unknown)
    {ans : Answer} (hans : Desk.answerTo db a s.db c = some ans) : ans.Answers c := by
  rcases h.execute_answer db hc with ⟨ans', hans', hkind, -⟩ | ⟨hnone, -⟩
  · exact Option.some.inj (hans.symm.trans hans') ▸ hkind
  · rw [hnone] at hans
    cases hans

end Replies

end ForexMarket
