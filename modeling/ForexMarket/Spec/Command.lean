import ForexMarket.Model.Session
import ForexMarket.Spec.Bounds

/- What a request asks for, apart from how it is written. A request is read as one
   command or throws before the market is called (`serve_eq`), and a command makes at
   most one call that can change the market (`execute_market`), never a deposit and never
   at a price outside `int` (`call_bounded`). -/
namespace ForexMarket

open Wrap

inductive Command where
  | register (username : Bytes) (pwHash : UInt64)
  | login (username : Bytes) (pwHash : UInt64)
  | balance (userId : UInt64)
  | activeOffers (userId : UInt64)
  | closedDeals (userId : UInt64)
  | post (userId : UInt64) (type : OfferType) (price : Int) (amount : UInt64)
  | quotes
  | cancel (userId offerId : UInt64)
  | unknown
  deriving DecidableEq, Repr

namespace Command

/-- The call of the market, given what `UsernameExist` answers; none when it throws. -/
def call {δ : Type} (exist : Bytes → Except Exception Bool × δ) : Command → Option Op
  | register username _ => (exist username).1.toOption.map (.registerUser (nameOf username))
  | balance u => some (.getUserBalance u.toNat)
  | activeOffers u => some (.getActiveOffers u.toNat)
  | closedDeals u => some (.getClosedDeals u.toNat)
  | post u type price amount => some (.postOffer u.toNat type price amount)
  | quotes => some .getAskBidQuotes
  | cancel u i => some (.removeOffer u.toNat i.toNat)
  | login _ _ | unknown => none

/-- A registration calls the market when `UsernameExist` returns. -/
theorem call_register {δ : Type} {exist : Bytes → Except Exception Bool × δ} {username : Bytes}
    {pwHash : UInt64} {op : Op} : (register username pwHash).call exist = some op ↔
      ∃ b, (exist username).1 = .ok b ∧ op = .registerUser (nameOf username) b := by
  rw [call]
  cases (exist username).1 with
  | error e => simp [Except.toOption]
  | ok b => simp [Except.toOption, eq_comm]

/-- The user a command names. -/
def user : Command → Option UInt64
  | balance u | activeOffers u | closedDeals u | post u _ _ _ | cancel u _ => some u
  | register _ _ | login _ _ | quotes | unknown => none

/-- The name in a command. -/
def username : Command → Option Bytes
  | register username _ | login username _ => some username
  | _ => none

end Command

namespace Session

/-! Reading a request. -/

def userCommand (request : Json) (f : UInt64 → Command) : Except Json.Exception Command := do
  let userId ← (request.index jsonField.userId).bind Json.getUInt64
  return f userId

def authCommand (request : Json) (f : Bytes → UInt64 → Command) :
    Except Json.Exception Command := do
  let username ← (request.index jsonField.username).bind Json.getString
  let pwHash ← (request.index jsonField.pwHash).bind Json.getUInt64
  return f username pwHash

def postCommand (request : Json) : Except Json.Exception Command := do
  let side ← request.at' jsonField.offerSide
  let userId ← (request.at' jsonField.userId).bind Json.getUInt64
  let price ← (request.at' jsonField.price).bind Json.getInt
  let amount ← (request.at' jsonField.amount).bind Json.getUInt64
  return .post userId (if side.isString jsonField.buy then .BUY else .SELL) price amount

def cancelCommand (request : Json) : Except Json.Exception Command := do
  let userId ← (request.at' jsonField.userId).bind Json.getUInt64
  let offerId ← (request.at' jsonField.offerId).bind Json.getUInt64
  return .cancel userId offerId

/-- The command a request is read as. -/
def commandOf (request : Json) : Except Json.Exception Command := do
  let type ← request.index jsonField.type
  if type.isString requests.registration then authCommand request .register
  else if type.isString requests.login then authCommand request .login
  else if type.isString requests.balance then userCommand request .balance
  else if type.isString requests.activeOffers then userCommand request .activeOffers
  else if type.isString requests.closedDeals then userCommand request .closedDeals
  else if type.isString requests.postOffer then postCommand request
  else if type.isString requests.quotes then return .quotes
  else if type.isString requests.cancel then cancelCommand request
  else return .unknown

/-! What was read is in the range of its type. -/

theorem getInt_fits {v : Json} {n : Int} (h : v.getInt = .ok n) : Fits32 n := by
  cases v with
  | int m =>
    rw [← Except.ok.inj h]
    exact fits32_wrap32 m
  | float m e =>
    simp only [Json.getInt] at h
    split at h
    · next hrange => rw [← Except.ok.inj h]; exact hrange
    · cases h
  | bool b =>
    rw [← Except.ok.inj h]
    cases b <;> decide
  | _ => cases h

/-- What holds of the command for every value read holds of the command that is read. -/
theorem of_bind_ok {α : Type} {P : Command → Prop} {x : Except Json.Exception α}
    {f : α → Except Json.Exception Command} (hf : ∀ a, x = .ok a → ∀ c, f a = .ok c → P c)
    {c : Command} (h : x >>= f = .ok c) : P c := by
  cases x with
  | error e => cases h
  | ok a => exact hf a rfl c h

/-- The price of an offer. -/
def IntPriced : Command → Prop
  | .post _ _ price _ => Fits32 price
  | _ => True

theorem commandOf_intPriced {request : Json} {c : Command} (h : commandOf request = .ok c) :
    IntPriced c := by
  refine of_bind_ok (fun type _ c h => ?_) h
  have huser : ∀ {f : UInt64 → Command}, (∀ u, IntPriced (f u)) →
      userCommand request f = .ok c → IntPriced c := by
    intro f hf h
    exact of_bind_ok (fun u _ c h => Except.ok.inj h ▸ hf u) h
  have hauth : ∀ {f : Bytes → UInt64 → Command},
      (∀ username pwHash, IntPriced (f username pwHash)) →
      authCommand request f = .ok c → IntPriced c := by
    intro f hf h
    exact of_bind_ok (fun n _ c h => of_bind_ok (fun w _ c h => Except.ok.inj h ▸ hf n w) h) h
  revert h
  repeat' split
  · exact hauth fun _ _ => trivial
  · exact hauth fun _ _ => trivial
  · exact huser fun _ => trivial
  · exact huser fun _ => trivial
  · exact huser fun _ => trivial
  · intro h
    refine of_bind_ok (fun side _ c h => ?_) h
    refine of_bind_ok (fun userId _ c h => ?_) h
    refine of_bind_ok (fun price hprice c h => ?_) h
    have hfits : Fits32 price := by
      cases hv : request.at' jsonField.price with
      | error e => rw [hv] at hprice; cases hprice
      | ok v => rw [hv] at hprice; exact getInt_fits hprice
    exact of_bind_ok (fun amount _ c h => Except.ok.inj h ▸ hfits) h
  · intro h
    exact Except.ok.inj h ▸ trivial
  · exact of_bind_ok fun userId _ c h => of_bind_ok (fun i _ c h => Except.ok.inj h ▸ trivial) h
  · intro h
    exact Except.ok.inj h ▸ trivial

/-- A command that was read deposits nothing, and posts at an `int` price. -/
theorem call_bounded {request : Json} {c : Command} (h : commandOf request = .ok c) {δ : Type}
    {exist : Bytes → Except Exception Bool × δ} {op : Op} (hop : c.call exist = some op) :
    op.served = true ∧ Reference.IntPrice op := by
  have hprice := commandOf_intPriced h
  cases c with
  | register username pwHash =>
    obtain ⟨b, -, rfl⟩ := Command.call_register.mp hop
    exact ⟨rfl, trivial⟩
  | login username pwHash => cases hop
  | unknown => cases hop
  | _ =>
    rw [← Option.some.inj hop]
    exact ⟨rfl, hprice⟩

/-! Executing a command. -/

section Execute

variable {δ : Type} (db : Database δ)

/-- The reply to a post that returns. -/
def confirmed (r : Except Exception Unit × Server δ) : Except Exception Bytes × Server δ :=
  match r with
  | (.ok (), s) => (.ok (text "\"Offer was posted.\""), s)
  | (.error e, s) => (.error e, s)

def execute (s : Server δ) : Command → Except Exception Bytes × Server δ
  | .register username pwHash => Serializer.registerUser db s username pwHash
  | .login username pwHash => Serializer.login db s username pwHash
  | .balance u => (Serializer.getBalance s.market u.toNat, s)
  | .activeOffers u => (Serializer.getActiveOffers s.market u.toNat, s)
  | .closedDeals u => (Serializer.getClosedDeals s.market u.toNat, s)
  | .post u type price amount =>
    confirmed (onMarket s (Serializer.postOffer s.market u.toNat type price amount))
  | .quotes => onMarket s (Serializer.getQuotes s.market)
  | .cancel u i => onMarket s (Serializer.cancelOffer s.market u.toNat i.toNat)
  | .unknown => (.ok (text "\"ERROR: Unknown request type\""), s)

/-- Executing what was read. -/
def attempt (s : Server δ) (c : Except Json.Exception Command) :
    Except Exception Bytes × Server δ :=
  reading s c (execute db s)

end Execute

variable {δ : Type} (db : Database δ) (s : Server δ)

@[simp] theorem attempt_ok (c : Command) : attempt db s (.ok c) = execute db s c := rfl

@[simp] theorem attempt_error (e : Json.Exception) :
    attempt db s (.error e) = (.error (.json e), s) := rfl

theorem attempt_bind {α : Type} (x : Except Json.Exception α)
    (f : α → Except Json.Exception Command) :
    attempt db s (x >>= f) = reading s x fun a => attempt db s (f a) := by
  cases x <;> rfl

theorem reading_congr {α β : Type} {x : Except Json.Exception α}
    {f g : α → Except Exception β × Server δ} (h : ∀ a, f a = g a) :
    reading s x f = reading s x g :=
  congrArg (reading s x) (funext h)

theorem serveUser_eq (request : Json) (f : UInt64 → Command)
    {g : Market → Nat → Except Exception Bytes}
    (h : ∀ u, execute db s (f u) = (g s.market u.toNat, s)) :
    serveUser s request g = attempt db s (userCommand request f) := by
  rw [userCommand, attempt_bind]
  apply reading_congr
  intro userId
  exact (h userId).symm

theorem serveAuth_eq (request : Json) (f : Bytes → UInt64 → Command)
    {g : Bytes → UInt64 → Except Exception Bytes × Server δ}
    (h : ∀ username pwHash, execute db s (f username pwHash) = g username pwHash) :
    serveAuth s request g = attempt db s (authCommand request f) := by
  rw [authCommand, attempt_bind]
  apply reading_congr
  intro username
  rw [attempt_bind]
  apply reading_congr
  intro pwHash
  exact (h username pwHash).symm

theorem servePost_eq (request : Json) :
    servePost s request = attempt db s (postCommand request) := by
  rw [postCommand, attempt_bind]
  apply reading_congr
  intro side
  rw [attempt_bind]
  apply reading_congr
  intro userId
  rw [attempt_bind]
  apply reading_congr
  intro price
  rw [attempt_bind]
  rfl

theorem serveCancel_eq (request : Json) :
    serveCancel s request = attempt db s (cancelCommand request) := by
  rw [cancelCommand, attempt_bind]
  apply reading_congr
  intro userId
  rw [attempt_bind]
  rfl

/-- Serving a request is reading its command and executing it. -/
theorem serve_eq (request : Json) : serve db s request = attempt db s (commandOf request) := by
  rw [commandOf, attempt_bind]
  apply reading_congr
  intro type
  repeat' split
  · exact serveAuth_eq db s request .register fun _ _ => rfl
  · exact serveAuth_eq db s request .login fun _ _ => rfl
  · exact serveUser_eq db s request .balance fun _ => rfl
  · exact serveUser_eq db s request .activeOffers fun _ => rfl
  · exact serveUser_eq db s request .closedDeals fun _ => rfl
  · exact servePost_eq db s request
  · rfl
  · exact serveCancel_eq db s request
  · rfl

/-! The market after a command. -/

/-- The call a command makes leaves the market that the command leaves. -/
theorem execute_market (c : Command) :
    (execute db s c).2.market =
      match c.call (db.usernameExist s.db) with
      | some op => (s.market.step op).2
      | none => s.market := by
  cases c with
  | register username pwHash =>
    simp only [execute, Command.call, Serializer.registerUser]
    obtain ⟨exist, table⟩ := db.usernameExist s.db username
    cases exist <;> rfl
  | login username pwHash =>
    simp only [execute, Command.call, Serializer.login]
    obtain ⟨userId, table⟩ := db.getUserId s.db username pwHash
    cases userId <;> rfl
  | balance u => exact (s.market.readUser_snd _ _).symm
  | activeOffers u => exact (s.market.readUser_snd _ _).symm
  | closedDeals u => exact (s.market.readUser_snd _ _).symm
  | post u type price amount =>
    simp only [execute, Command.call, Market.step, Serializer.postOffer]
    cases s.market.postOffer u.toNat type price amount with
    | mk result s' => cases result <;> rfl
  | quotes =>
    simp only [execute, Command.call, Market.step, Serializer.getQuotes]
    cases s.market.getAskBidQuotes with
    | mk result s' => cases result <;> rfl
  | cancel u i =>
    simp only [execute, Command.call, Market.step, Serializer.cancelOffer]
    cases s.market.removeActiveOffer u.toNat i.toNat <;> rfl
  | unknown => rfl

/-- The reply to a command, made of what the market answers to its call, of the quote and of what
the query of the command comes to. -/
def reply (quote : Option Int) (queried : Except Exception (Option UInt64)) (c : Command)
    (answer : Reply) : Except Exception Bytes := do
  let userId ← queried
  match c, answer with
  | .login _ _, _ => replyOf (Serializer.authReply requests.login userId)
  | .unknown, _ => .ok (text "\"ERROR: Unknown request type\"")
  | _, .fault f => .error (.market f)
  | .register _ _, .registered id =>
    replyOf (Serializer.authReply requests.regConfirmation (id.map UInt64.ofNat))
  | .balance _, .balance b => replyOf (Serializer.balanceReply b)
  | .activeOffers _, .offers l => replyOf (Serializer.activeOffersReply l)
  | .closedDeals u, .deals l => replyOf (Serializer.closedDealsReply u.toNat l)
  | .post _ _ _ _, .posted _ => .ok (text "\"Offer was posted.\"")
  | .quotes, .quotes q => replyOf (Serializer.quotesReply quote q)
  | .cancel _ _, .removed b => replyOf (Serializer.cancelReply b)
  -- no answer to the call
  | _, _ => .error (.market .outOfRange)

/-- What the query of a command comes to: the id for a login, or what it throws. -/
def queryOf (table : δ) : Command → Except Exception (Option UInt64)
  | .register username _ => (db.usernameExist table username).1.map fun _ => none
  | .login username pwHash => (db.getUserId table username pwHash).1
  | _ => .ok none

/-- What the market answers to the call of a command. -/
def answerOf (exist : Bytes → Except Exception Bool × δ) (s : Market) (c : Command) : Reply :=
  match c.call exist with
  | some op => (s.step op).1
  | none => .done

theorem execute_reply (c : Command) :
    (execute db s c).1 = reply s.market.quote (queryOf db s.db c) c
      (answerOf (db.usernameExist s.db) s.market c) := by
  have hread : ∀ (u : UInt64) (f : UserData → Json) (g : UserData → Reply) (c : Command),
      (∀ d, reply s.market.quote (.ok none) c (g d) = replyOf (f d)) →
      (∀ e, reply s.market.quote (.ok none) c (.fault e) = .error (.market e)) →
      Serializer.readUser s.market u.toNat f =
        reply s.market.quote (.ok none) c (s.market.readUser u.toNat g).1 := by
    intro u f g c hok herror
    unfold Serializer.readUser Market.readUser
    cases s.market.users.find? u.toNat with
    | none => exact (herror _).symm
    | some d => exact (hok d).symm
  cases c with
  | register username pwHash =>
    simp only [execute, answerOf, Command.call, queryOf, Serializer.registerUser]
    obtain ⟨exist, table⟩ := db.usernameExist s.db username
    cases exist <;> rfl
  | login username pwHash =>
    simp only [execute, queryOf, Serializer.login]
    obtain ⟨userId, table⟩ := db.getUserId s.db username pwHash
    cases userId <;> rfl
  | balance u => exact hread u _ _ (.balance u) (fun _ => rfl) fun _ => rfl
  | activeOffers u => exact hread u _ _ (.activeOffers u) (fun _ => rfl) fun _ => rfl
  | closedDeals u => exact hread u _ _ (.closedDeals u) (fun _ => rfl) fun _ => rfl
  | post u type price amount =>
    simp only [execute, answerOf, Command.call, Market.step, Serializer.postOffer, onMarket]
    cases s.market.postOffer u.toNat type price amount with
    | mk result s' => cases result <;> rfl
  | quotes =>
    simp only [execute, answerOf, Command.call, Market.step, Serializer.getQuotes, onMarket]
    cases s.market.getAskBidQuotes with
    | mk result s' => cases result <;> rfl
  | cancel u i =>
    simp only [execute, answerOf, Command.call, Market.step, Serializer.cancelOffer, onMarket]
    cases s.market.removeActiveOffer u.toNat i.toNat <;> rfl
  | unknown => rfl

/-- The table after a command, where `userId` is the next id. -/
def tableAfter (table : δ) (userId : Nat) : Command → δ
  | .register username pwHash =>
    match db.usernameExist table username with
    | (.ok false, table) => db.addUser table (.ofNat userId) username pwHash
    | (_, table) => table
  | .login username pwHash => (db.getUserId table username pwHash).2
  | _ => table

/-- Only registrations and logins reach the table. -/
theorem execute_db (c : Command) :
    (execute db s c).2.db = tableAfter db s.db s.market.userId c := by
  cases c with
  | register username pwHash =>
    simp only [execute, Serializer.registerUser, tableAfter]
    obtain ⟨exist, table⟩ := db.usernameExist s.db username
    cases exist with
    | error e => rfl
    | ok exist => cases exist <;> rfl
  | login username pwHash =>
    simp only [execute, Serializer.login, tableAfter]
    obtain ⟨userId, table⟩ := db.getUserId s.db username pwHash
    cases userId <;> rfl
  | post u type price amount =>
    simp only [execute, confirmed, onMarket]
    split
    · next h =>
      rw [← (Prod.mk.inj h).2]
      rfl
    · next h =>
      rw [← (Prod.mk.inj h).2]
      rfl
  | _ => rfl

theorem execute_db_of_user {c : Command} {u : UInt64} (hu : c.user = some u) :
    (execute db s c).2.db = s.db := by
  rw [execute_db]
  cases c with
  | register username pwHash => cases hu
  | login username pwHash => cases hu
  | _ => rfl

end Session

end ForexMarket
