import ForexMarket.Proofs.Correspondence
import ForexMarket.Proofs.Messages
import ForexMarket.Spec.Command

/- Which requests the server answers. Serving a request makes at most one call of the
   market, so a server keeps to reachable markets (`reachable_serve`), and there every call
   on a registered user returns. A request throws for a field that is missing or of
   another type, for a user who is not registered, and for a registration or a login whose
   query throws (`serve_isOk`). -/
namespace ForexMarket

variable {s : Market} {a : Reference}

/-! Calls on a market that stands for a reference. -/

namespace Stands

theorem postOffer_isOk (h : Stands s a) (u : Nat) (type : OfferType) (price : Int)
    (amount : UInt64) :
    (Serializer.postOffer s u type price amount).1.isOk = (s.users.find? u).isSome := by
  -- the reference posts for every user it has an account of, and the market answers as it does
  have hreply := h.reply_eq (.postOffer u type price amount)
  rw [h.isSome_eq]
  simp only [Market.step, Reference.step] at hreply
  simp only [Serializer.postOffer]
  cases hpost : s.postOffer u type price amount with
  | mk result s' =>
    rw [hpost] at hreply
    cases result <;> cases haccount : a.accounts u <;> rw [haccount] at hreply
    · rfl
    · cases hreply
    · cases hreply
    · rfl

theorem getQuotes_isOk (h : Stands s a) : (Serializer.getQuotes s).1.isOk = true := by
  have hreply := h.reply_eq .getAskBidQuotes
  simp only [Market.step, Reference.step] at hreply
  simp only [Serializer.getQuotes]
  cases hquotes : s.getAskBidQuotes with
  | mk result s' =>
    rw [hquotes] at hreply
    cases result with
    | error f => cases hreply
    | ok q => exact replyOf_isOk (Serializer.writable_quotesReply s.quote q)

end Stands

theorem readUser_isOk (s : Market) (u : Nat) {reply : UserData → Json}
    (h : ∀ d, (reply d).Writable) :
    (Serializer.readUser s u reply).isOk = (s.users.find? u).isSome := by
  unfold Serializer.readUser
  cases s.users.find? u with
  | none => rfl
  | some d => exact replyOf_isOk (h d)

theorem cancelOffer_isOk (s : Market) (u i : Nat) :
    (Serializer.cancelOffer s u i).1.isOk = (s.users.find? u).isSome := by
  unfold Serializer.cancelOffer Market.removeActiveOffer
  cases s.users.find? u with
  | none => rfl
  | some d => exact replyOf_isOk (Serializer.writable_cancelReply (d.removeActiveOffer i).1)

namespace Session

/-! What a request has to hold. -/

/-- A user id that is read, of a registered user. -/
def names (s : Market) : Except Json.Exception UInt64 → Bool
  | .ok userId => (s.users.find? userId.toNat).isSome
  | .error _ => false

section Answerable

variable {δ : Type} (db : Database δ)

/-- A name and a hash that are read, whose query returns. -/
def queries (returns : Bytes → UInt64 → Bool) :
    Except Json.Exception Bytes → Except Json.Exception UInt64 → Bool
  | .ok username, .ok pwHash => returns username pwHash
  | _, _ => false

/-- The fields a request is read for can be read, the user it names is registered, and the query of
a registration or a login returns. -/
def answerable (server : Server δ) (request : Json) : Bool :=
  let s := server.market
  match request.index jsonField.type with
  | .error _ => false
  | .ok type =>
    if type.isString requests.registration then
      queries (fun username _ => (db.usernameExist server.db username).1.isOk)
        ((request.index jsonField.username).bind Json.getString)
        ((request.index jsonField.pwHash).bind Json.getUInt64)
    else if type.isString requests.login then
      queries (fun username pwHash => (db.getUserId server.db username pwHash).1.isOk)
        ((request.index jsonField.username).bind Json.getString)
        ((request.index jsonField.pwHash).bind Json.getUInt64)
    else if type.isString requests.balance ∨ type.isString requests.activeOffers ∨
        type.isString requests.closedDeals then
      names s ((request.index jsonField.userId).bind Json.getUInt64)
    else if type.isString requests.postOffer then
      (request.at' jsonField.offerSide).isOk &&
        names s ((request.at' jsonField.userId).bind Json.getUInt64) &&
        ((request.at' jsonField.price).bind Json.getInt).isOk &&
        ((request.at' jsonField.amount).bind Json.getUInt64).isOk
    else if type.isString requests.quotes then true
    else if type.isString requests.cancel then
      names s ((request.at' jsonField.userId).bind Json.getUInt64) &&
        ((request.at' jsonField.offerId).bind Json.getUInt64).isOk
    else true

end Answerable

variable {δ : Type} {db : Database δ} {s : Server δ}

/-! Commands. -/

theorem registerUser_isOk (username : Bytes) (pwHash : UInt64) :
    (Serializer.registerUser db s username pwHash).1.isOk =
      (db.usernameExist s.db username).1.isOk := by
  unfold Serializer.registerUser
  obtain ⟨answer, table⟩ := db.usernameExist s.db username
  cases answer with
  | error e => rfl
  | ok exist => exact replyOf_isOk (Serializer.writable_authReply rfl _)

theorem login_isOk (username : Bytes) (pwHash : UInt64) :
    (Serializer.login db s username pwHash).1.isOk =
      (db.getUserId s.db username pwHash).1.isOk := by
  unfold Serializer.login
  obtain ⟨answer, table⟩ := db.getUserId s.db username pwHash
  cases answer with
  | error e => rfl
  | ok userId => exact replyOf_isOk (Serializer.writable_authReply rfl _)

/-- The user a command names is registered, and its query returns. -/
def answered (db : Database δ) (s : Server δ) (c : Command) : Bool :=
  (c.user.all fun u => (s.market.users.find? u.toNat).isSome) && (queryOf db s.db c).isOk

theorem answered_register (username : Bytes) (pwHash : UInt64) :
    answered db s (.register username pwHash) = (db.usernameExist s.db username).1.isOk := by
  simp only [answered, queryOf, Command.user, Option.all_none, Bool.true_and]
  cases (db.usernameExist s.db username).1 <;> rfl

theorem answered_of_user {c : Command} {u : UInt64} (hu : c.user = some u) :
    answered db s c = (s.market.users.find? u.toNat).isSome := by
  cases c with
  | register username pwHash => cases hu
  | login username pwHash => cases hu
  | quotes => cases hu
  | unknown => cases hu
  | _ => rw [answered, hu]; exact Bool.and_true _

/-- A command is replied to unless it names a user who is not registered, or its query throws. -/
theorem execute_isOk (db : Database δ) (h : Stands s.market a) (c : Command) :
    (execute db s c).1.isOk = answered db s c := by
  cases c with
  | register username pwHash =>
    rw [answered_register]
    exact registerUser_isOk username pwHash
  | login username pwHash => exact login_isOk username pwHash
  | balance u =>
    rw [answered_of_user rfl]
    exact readUser_isOk _ _ fun _ => Serializer.writable_balanceReply _
  | activeOffers u =>
    rw [answered_of_user rfl]
    exact readUser_isOk _ _ fun _ => Serializer.writable_activeOffersReply _
  | closedDeals u =>
    rw [answered_of_user rfl]
    exact readUser_isOk _ _ fun _ => Serializer.writable_closedDealsReply _ _
  | post u type price amount =>
    have hok := h.postOffer_isOk u.toNat type price amount
    rw [answered_of_user rfl, ← hok]
    simp only [execute, confirmed, onMarket]
    cases (Serializer.postOffer s.market u.toNat type price amount).1 <;> rfl
  | quotes => exact h.getQuotes_isOk
  | cancel u i =>
    rw [answered_of_user rfl]
    exact cancelOffer_isOk _ _ _
  | unknown => rfl

/-- A command leaves a market that stands for a reference. -/
theorem execute_stands (h : Stands s.market a) (c : Command) :
    ∃ a', Stands (execute db s c).2.market a' := by
  rw [execute_market]
  cases c.call (db.usernameExist s.db) with
  | none => exact ⟨a, h⟩
  | some op => exact ⟨_, h.step op⟩

/-! Requests by their kind. -/

section Answers

variable (db : Database δ) (s : Server δ)

/-- What was read is a command that is answered. -/
def answers : Except Json.Exception Command → Bool
  | .ok c => answered db s c
  | .error _ => false

theorem answers_userCommand (request : Json) {f : UInt64 → Command}
    (h : ∀ u, (f u).user = some u) :
    answers db s (userCommand request f) =
      names s.market ((request.index jsonField.userId).bind Json.getUInt64) := by
  unfold userCommand
  cases (request.index jsonField.userId).bind Json.getUInt64 with
  | error e => rfl
  | ok userId => exact answered_of_user (h userId)

theorem answers_register (request : Json) :
    answers db s (authCommand request .register) =
      queries (fun username _ => (db.usernameExist s.db username).1.isOk)
        ((request.index jsonField.username).bind Json.getString)
        ((request.index jsonField.pwHash).bind Json.getUInt64) := by
  unfold authCommand
  cases (request.index jsonField.username).bind Json.getString with
  | error e => rfl
  | ok username =>
    cases (request.index jsonField.pwHash).bind Json.getUInt64 with
    | error e => rfl
    | ok pwHash => exact answered_register username pwHash

theorem answers_login (request : Json) :
    answers db s (authCommand request .login) =
      queries (fun username pwHash => (db.getUserId s.db username pwHash).1.isOk)
        ((request.index jsonField.username).bind Json.getString)
        ((request.index jsonField.pwHash).bind Json.getUInt64) := by
  unfold authCommand
  cases (request.index jsonField.username).bind Json.getString with
  | error e => rfl
  | ok username =>
    cases (request.index jsonField.pwHash).bind Json.getUInt64 with
    | error e => rfl
    | ok pwHash => rfl

theorem answers_postCommand (request : Json) :
    answers db s (postCommand request) =
      ((request.at' jsonField.offerSide).isOk &&
        names s.market ((request.at' jsonField.userId).bind Json.getUInt64) &&
        ((request.at' jsonField.price).bind Json.getInt).isOk &&
        ((request.at' jsonField.amount).bind Json.getUInt64).isOk) := by
  unfold postCommand
  cases request.at' jsonField.offerSide with
  | error e => rfl
  | ok side =>
    cases (request.at' jsonField.userId).bind Json.getUInt64 with
    | error e => rfl
    | ok userId =>
      cases (request.at' jsonField.price).bind Json.getInt with
      | error e => exact ((congrArg (· && _) (Bool.and_false _)).trans (Bool.false_and _)).symm
      | ok price =>
        cases (request.at' jsonField.amount).bind Json.getUInt64 with
        | error e => exact (Bool.and_false _).symm
        | ok amount =>
          refine (answered_of_user rfl).trans ?_
          exact ((Bool.and_true _).trans (Bool.and_true _)).symm

theorem answers_cancelCommand (request : Json) :
    answers db s (cancelCommand request) =
      (names s.market ((request.at' jsonField.userId).bind Json.getUInt64) &&
        ((request.at' jsonField.offerId).bind Json.getUInt64).isOk) := by
  unfold cancelCommand
  cases (request.at' jsonField.userId).bind Json.getUInt64 with
  | error e => rfl
  | ok userId =>
    cases (request.at' jsonField.offerId).bind Json.getUInt64 with
    | error e => exact (Bool.and_false _).symm
    | ok offerId => exact (answered_of_user rfl).trans (Bool.and_true _).symm

/-- What is read of an answerable request is a command that can be replied to. -/
theorem answers_commandOf (request : Json) :
    answers db s (commandOf request) = answerable db s request := by
  unfold commandOf answerable
  cases request.index jsonField.type with
  | error e => rfl
  | ok type =>
    dsimp only [bind, Except.bind]
    split
    · exact answers_register db s request
    split
    · exact answers_login db s request
    by_cases hbalance : type.isString requests.balance
    · simp only [hbalance, if_true, true_or]
      exact answers_userCommand db s request fun _ => rfl
    by_cases hactive : type.isString requests.activeOffers
    · simp only [hbalance, hactive, if_true, true_or, or_true, Bool.false_eq_true, if_false]
      exact answers_userCommand db s request fun _ => rfl
    by_cases hdeals : type.isString requests.closedDeals
    · simp only [hbalance, hactive, hdeals, if_true, or_true, Bool.false_eq_true, if_false]
      exact answers_userCommand db s request fun _ => rfl
    simp only [hbalance, hactive, hdeals, Bool.false_eq_true, if_false, or_self]
    split
    · exact answers_postCommand db s request
    split
    · rfl
    split
    · exact answers_cancelCommand db s request
    · rfl

end Answers

/-- On a reachable market the server replies to exactly the answerable requests. -/
theorem serve_isOk (db : Database δ) (hs : s.market.Reachable) (request : Json) :
    (serve db s request).1.isOk = answerable db s request := by
  obtain ⟨a, h⟩ := hs.stands
  rw [serve_eq, ← answers_commandOf]
  cases commandOf request with
  | error e => rfl
  | ok c => exact execute_isOk db h c

/-! The market that is left. -/

theorem reachable_serve (db : Database δ) (hs : s.market.Reachable) (request : Json) :
    (serve db s request).2.market.Reachable := by
  rw [serve_eq]
  cases commandOf request with
  | error e => exact hs
  | ok c =>
    rw [attempt_ok, execute_market]
    cases c.call (db.usernameExist s.db) with
    | none => exact hs
    | some op => exact hs.step op

end Session

end ForexMarket
