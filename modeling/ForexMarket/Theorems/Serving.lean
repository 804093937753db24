import ForexMarket.Theorems.Framing
import ForexMarket.Theorems.Sessions

/- Which messages the server survives. The one `catch` is in `main`, behind the event loop,
   so whatever throws while a message is handled ends the service of all sessions. On a
   reachable market these are the texts that are no JSON, the requests that are not
   answerable, and, without an exception, the messages that fill the buffer. -/
namespace ForexMarket

namespace Session

variable {δ : Type} (db : Database δ)

/-- The message leaves room for the terminator and is the text of an answerable request. -/
def Accepts (s : Server δ) (bytes : Bytes) : Prop :=
  bytes.length < maxLength ∧ ∃ request, Json.parse bytes = some request ∧ answerable db s request

/-- `HandleRead` queues a reply to exactly the messages it accepts. -/
theorem handleRead_replied_iff (data : Bytes) {s : Server δ} (hs : s.market.Reachable)
    (bytes : Bytes) :
    (∃ request reply data' s', handleRead db data s bytes = .replied request reply data' s') ↔
      Accepts db s bytes := by
  by_cases hlt : bytes.length < maxLength
  · simp only [handleRead, hlt, if_true, parse_data, Accepts, true_and]
    cases hparse : Json.parse bytes with
    | none =>
      refine ⟨fun h => ?_, fun h => ?_⟩
      · obtain ⟨_, _, _, _, h⟩ := h
        cases h
      · obtain ⟨_, h, -⟩ := h
        cases h
    | some request =>
      have hanswer := serve_isOk db hs request
      dsimp only
      cases hserve : serve db s request with
      | mk result s' =>
        rw [hserve] at hanswer
        cases result with
        | ok reply => exact ⟨fun _ => ⟨request, rfl, hanswer.symm⟩, fun _ => ⟨_, _, _, _, rfl⟩⟩
        | error e =>
          refine ⟨fun h => ?_, fun h => ?_⟩
          · obtain ⟨_, _, _, _, h⟩ := h
            cases h
          · obtain ⟨v, hv, htrue⟩ := h
            rw [← Option.some.inj hv, ← hanswer] at htrue
            cases htrue
  · rw [handleRead, if_neg hlt]
    refine ⟨fun h => ?_, fun h => absurd h.1 hlt⟩
    obtain ⟨_, _, _, _, h⟩ := h
    cases h

end Session

namespace Sessions

variable {δ : Type} (db : Database δ)

/-- The handling of the read ends by queueing a reply, and the server goes on. -/
def Survives (s : Sessions δ) (read : Nat × Bytes) : Prop :=
  (∃ reply, (s.step db read).1 = some reply) ∧ (s.step db read).2.running = true

variable {db} {s : Sessions δ}

theorem survives_iff (hrun : s.running = true) (hs : s.server.market.Reachable)
    (read : Nat × Bytes) : s.Survives db read ↔ Session.Accepts db s.server read.2 := by
  rw [← Session.handleRead_replied_iff db (s.data read.1) hs, Survives, step, if_pos hrun]
  cases Session.handleRead db (s.data read.1) s.server read.2 with
  | replied request reply data server =>
    exact ⟨fun _ => ⟨_, _, _, _, rfl⟩, fun _ => ⟨⟨_, rfl⟩, hrun⟩⟩
  | _ =>
    refine ⟨fun h => ?_, fun h => ?_⟩
    · cases h.2
    · obtain ⟨_, _, _, _, h⟩ := h
      cases h

/-- From any reachable state, whatever messages come on whatever sessions: the server replies to
all of them and goes on exactly when it accepts each in the state it comes to. -/
theorem messages_survived_iff (db : Database δ) (hrun : s.running = true)
    (hs : s.server.market.Reachable) (reads : List (Nat × Bytes)) :
    Machine.Along (step db) (Survives db) s reads ↔
      Machine.Along (step db) (fun s read => Session.Accepts db s.server read.2) s reads := by
  apply Machine.along_congr (I := fun s => s.running = true ∧ s.server.market.Reachable)
  · -- the server is still running after a message it accepts
    intro s read h haccepts
    exact ⟨((survives_iff h.1 h.2 read).mpr haccepts).2, reachable_step db read h.2⟩
  · exact fun s read h => survives_iff h.1 h.2 read
  · exact ⟨hrun, hs⟩

/-- A running server with a small market. -/
def sample : Sessions (List UserRow) :=
  { server := Session.sampleServer, data := fun _ => [], running := true }

/-- Two requests for the quotes, on two sessions. -/
theorem sample_survived_iff :
    Machine.Along (step userTable) (Survives userTable) sample
        [(0, Session.quotesRequest.bytes), (1, Session.quotesRequest.bytes)] ↔
      Machine.Along (step userTable) (fun s read => Session.Accepts userTable s.server read.2)
        sample [(0, Session.quotesRequest.bytes), (1, Session.quotesRequest.bytes)] :=
  messages_survived_iff userTable rfl Market.sample_reachable _

theorem stranger_utf8 : (ClientRequest.idOnly requests.balance 7).Utf8 := rfl

/-- A request for the balance of a user who is not registered. -/
def strangerRequest : Bytes :=
  ((ClientRequest.idOnly requests.balance 7).document stranger_utf8).bytes

/-- A text that is no JSON, an unknown user, and a value that is no object each end the server. -/
theorem sample_not_survived :
    ¬ sample.Survives userTable (0, text "hello") ∧
      ¬ sample.Survives userTable (0, strangerRequest) ∧
      ¬ sample.Survives userTable (0, text "[]") := by
  refine ⟨fun h => ?_, fun h => ?_, fun h => ?_⟩
  · exact absurd h.2 (by decide +kernel)
  · exact absurd h.2 (by decide +kernel)
  · exact absurd h.2 (by decide +kernel)

end Sessions

end ForexMarket
