import ForexMarket.Proofs.Printing
import ForexMarket.Theorems.Input

/- What a client program can ask for: the requests it makes are entered at its terminal, and
   those of the menu name the user it was given. -/
namespace ForexMarket

namespace Client

variable {predicate : Int → Bool} {cin cin' : Istream} {n : Int} {userId : UInt64}
  {request : ClientRequest}

/-- An integer that is read is acceptable and an `int`. -/
theorem intInput_sound (h : intInput predicate cin = some (n, cin')) :
    predicate n = true ∧ -2 ^ 31 ≤ n ∧ n < 2 ^ 31 := by
  obtain ⟨⟨l, -, hlead⟩, hp⟩ := safeIntInput_sound h
  obtain ⟨-, hrange⟩ := Option.filter_eq_some_iff.mp hlead
  rw [decide_eq_true_eq] at hrange
  exact ⟨hp, hrange.1, by omega⟩

/-- What follows an integer that is read. -/
theorem bind_intInput {α : Type} {f : Int × Istream → Option α} {a : α}
    (h : intInput predicate cin >>= f = some a) :
    ∃ n cin', intInput predicate cin = some (n, cin') ∧ f (n, cin') = some a := by
  obtain ⟨⟨n, cin'⟩, hread, hf⟩ := Option.bind_eq_some_iff.mp h
  exact ⟨n, cin', hread, hf⟩

theorem processAuthentication_isAuth {hash : Bytes → UInt64}
    (h : processAuthentication hash cin = some (request, cin')) : request.isAuth = true := by
  obtain ⟨option, cin₁, -, h⟩ := bind_intInput h
  dsimp only at h
  split at h
  · rw [← (Prod.mk.inj (Option.some.inj h)).1]
    rfl
  · rw [← (Prod.mk.inj (Option.some.inj h)).1]
    rfl

theorem postOfferRequest_asks (h : postOfferRequest userId cin = some (request, cin')) :
    request.Entered ∧ RequestType.postOffer.Asks userId request.command := by
  obtain ⟨side, cin₁, -, h⟩ := bind_intInput h
  obtain ⟨amount, cin₂, hamount, h⟩ := bind_intInput h
  obtain ⟨price, cin₃, hprice, h⟩ := bind_intInput h
  obtain ⟨hpos, -, hlt⟩ := intInput_sound hamount
  obtain ⟨-, hmin, hmax⟩ := intInput_sound hprice
  rw [← (Prod.mk.inj (Option.some.inj h)).1]
  exact ⟨⟨⟨of_decide_eq_true hpos, hlt⟩, hmin, hmax⟩, .post _ _ _⟩

theorem cancleOfferRequest_asks (h : cancleOfferRequest userId cin = some (request, cin')) :
    request.Entered ∧ RequestType.cancelOffer.Asks userId request.command := by
  obtain ⟨offerId, cin₁, hid, h⟩ := bind_intInput h
  obtain ⟨hpos, -, hlt⟩ := intInput_sound hid
  rw [← (Prod.mk.inj (Option.some.inj h)).1]
  exact ⟨⟨of_decide_eq_true hpos, hlt⟩, .cancel _⟩

/-- A request of the menu is for the user it is made for. -/
theorem sendRequest_asks {type : RequestType}
    (h : sendRequest type userId cin = some (request, cin')) :
    request.Entered ∧ type.Asks userId request.command := by
  cases type with
  | postOffer => exact postOfferRequest_asks h
  | cancelOffer => exact cancleOfferRequest_asks h
  | getQuotes =>
    rw [← (Prod.mk.inj (Option.some.inj h)).1]
    exact ⟨.inl rfl, .quotes⟩
  | getBalance =>
    rw [← (Prod.mk.inj (Option.some.inj h)).1]
    exact ⟨.inr (.inl rfl), .balance⟩
  | getActive =>
    rw [← (Prod.mk.inj (Option.some.inj h)).1]
    exact ⟨.inr (.inr (.inl rfl)), .activeOffers⟩
  | getClosed =>
    rw [← (Prod.mk.inj (Option.some.inj h)).1]
    exact ⟨.inr (.inr (.inr rfl)), .closedDeals⟩

theorem poll_asks {type : RequestType} (h : poll userId cin = some (some (type, request), cin')) :
    request.Entered ∧ type.Asks userId request.command := by
  obtain ⟨option, cin₁, -, h⟩ := bind_intInput h
  dsimp only at h
  split at h
  · cases h
  · obtain ⟨⟨request', cin₂⟩, hsend, h⟩ := Option.bind_eq_some_iff.mp h
    obtain ⟨htype, rfl⟩ := Prod.mk.inj (Option.some.inj (Prod.mk.inj (Option.some.inj h)).1)
    rw [← htype]
    exact sendRequest_asks hsend

end Client

/-! The requests of a program. -/

/-- The client waits for the answer to a command. -/
inductive Phase.Waits : Phase → Command → Prop
  | auth {request : ClientRequest} (h : request.isAuth = true) :
    Waits (.authResponse request) request.command
  | response {type : RequestType} {userId : UInt64} {c : Command} (h : type.Asks userId c) :
    Waits (.response type userId) c

theorem Phase.Waits.ne_threw {phase : Phase} {c : Command} (h : phase.Waits c) :
    phase ≠ .threw := by
  cases h <;> intro heq <;> cases heq

/-- A request has been sent, and the reply has not been read. -/
def Phase.waiting : Phase → Bool
  | authResponse _ | response _ _ => true
  | authentication | poll _ | ended | asking | threw => false

namespace Terminal

variable {hash : Bytes → UInt64} {c c' : Terminal} {request : ClientRequest}

theorem entered_of_isAuth (h : request.isAuth = true) : request.Entered := by
  cases request with
  | register username pwHash => trivial
  | login username pwHash => trivial
  | _ => cases h

/-- The program has made a request: it is entered, and the program waits for the answer to it. -/
theorem prepare_some (h : c.prepare hash = (some request, c')) :
    request.Entered ∧ c'.phase.Waits request.command ∧ c'.cout = c.cout := by
  unfold prepare at h
  split at h
  · split at h
    · cases h
    · next hauth =>
      obtain ⟨hr, rfl⟩ := Prod.mk.inj h
      obtain rfl := Option.some.inj hr
      have hisAuth := Client.processAuthentication_isAuth hauth
      exact ⟨entered_of_isAuth hisAuth, .auth hisAuth, rfl⟩
  · split at h
    · cases h
    · cases h
    · next hpoll =>
      obtain ⟨hr, rfl⟩ := Prod.mk.inj h
      obtain rfl := Option.some.inj hr
      obtain ⟨hentered, hasks⟩ := Client.poll_asks hpoll
      exact ⟨hentered, .response hasks, rfl⟩
  · cases h

/-- A program that waits makes no request. -/
theorem prepare_of_waits {cmd : Command} (h : c.phase.Waits cmd) :
    c.prepare hash = (none, c) := by
  unfold prepare
  cases hphase : c.phase with
  | authentication => rw [hphase] at h; cases h
  | poll userId => rw [hphase] at h; cases h
  | _ => rfl

theorem prepare_none_threw (h : c.prepare hash = (none, c')) :
    c'.phase = .threw ↔ c.phase = .threw := by
  unfold prepare at h
  split at h
  · next hphase =>
    split at h
    · rw [← (Prod.mk.inj h).2, hphase]
      simp
    · cases h
  · next hphase =>
    split at h
    · rw [← (Prod.mk.inj h).2, hphase]
      simp
    · rw [← (Prod.mk.inj h).2, hphase]
      simp
    · cases h
  · rw [← (Prod.mk.inj h).2]

/-- A closed connection is noticed where the program waits. -/
theorem disconnect_phase (c : Terminal) :
    c.disconnect.phase ≠ .threw ↔ c.phase ≠ .threw ∧ ¬ c.phase.waiting = true := by
  unfold disconnect
  cases hphase : c.phase <;> simp [Phase.waiting, hphase]

end Terminal

end ForexMarket
