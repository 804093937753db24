import ForexMarket.Proofs.Terminal
import ForexMarket.Theorems.Framing
import ForexMarket.Theorems.Sessions

/- The server together with its clients. What has arrived at a client is the reply to the
   request it waits for, whole, and the reply says what the reference market and the table
   answer. So where messages are read whole the terminals are those of the desk
   (`exchange_refines_desk`): the JSON, the connections, the sessions and the books are not to
   be seen. -/
namespace ForexMarket

open Json (Document)

/-! Messages. -/

namespace ClientRequest

/-- The server reads the text of a request that leaves room for the terminator as what the client
asked for. -/
theorem commandIn_text {r : ClientRequest} (hr : r.Entered) {b : Bytes}
    (h : r.toJson.dump = some b) (hlen : b.length < Session.maxLength) :
    commandIn (b.take Session.maxLength) = some r.command := by
  rw [List.take_of_length_le (Nat.le_of_lt hlen), commandIn, if_pos hlen, parse_toJson h,
    Option.bind_some, commandOf_toJson hr]
  rfl

theorem command_ne_unknown {r : ClientRequest} (hr : r.Entered) : r.command ≠ .unknown := by
  cases r with
  | idOnly type userId => rcases hr with rfl | rfl | rfl | rfl <;> intro h <;> cases h
  | _ => intro h; cases h

end ClientRequest

/-- The value of an answer has a text, and it is a document. -/
theorem Answer.Answers.document {c : Command} {ans : Answer} (h : ans.Answers c) :
    ∃ d : Document, d.value = ans.value c ∧ replyOf (ans.value c) = .ok d.bytes := by
  have hauth : ∀ (type : Bytes) (id : Option UInt64), (Json.dumpString type).isSome →
      ∃ d : Document, d.value = Serializer.authReply type id ∧
        replyOf (Serializer.authReply type id) = .ok d.bytes :=
    fun type id htype => replyOf_document (Serializer.writable_authReply htype id) trivial
  cases h with
  | register username pwHash id => exact hauth _ id rfl
  | login username pwHash id => exact hauth _ id rfl
  | balance => exact replyOf_document (Serializer.writable_balanceReply _) trivial
  | activeOffers => exact replyOf_document (Serializer.writable_activeOffersReply _) trivial
  | closedDeals => exact replyOf_document (Serializer.writable_closedDealsReply _ _) trivial
  | post => exact replyOf_document (.string rfl) trivial
  | quotes => exact replyOf_document (Serializer.writable_quotesReply _ _) trivial
  | cancel => exact replyOf_document (Serializer.writable_cancelReply _) trivial

/-- The text is the reply to a request with this answer, for a client in this phase. -/
def Told (phase : Phase) (ans : Answer) (reply : Bytes) : Prop :=
  ∃ c, phase.Waits c ∧ ans.Answers c ∧ ∃ d : Document, d.bytes = reply ∧ d.value = ans.value c

theorem Told.ne_nil {phase : Phase} {ans : Answer} {reply : Bytes} (h : Told phase ans reply) :
    reply ≠ [] := by
  obtain ⟨-, -, -, d, rfl, -⟩ := h
  exact d.bytes_ne_nil

/-- A client that reads a reply whole goes on with the answer; one that does not throws. -/
theorem Terminal.receive_told {c : Terminal} {ans : Answer} {reply : Bytes}
    (h : Told c.phase ans reply) (more : Nat) :
    (reply.length ≤ min (more + 1) Client.readLimit →
        c.receive reply more = (c.told ans, []) ∧ (c.told ans).phase ≠ .threw) ∧
      (¬ reply.length ≤ min (more + 1) Client.readLimit →
        (c.receive reply more).1.phase = .threw) := by
  obtain ⟨cmd, hwaits, hans, d, rfl, hvalue⟩ := h
  cases hphase : c.phase with
  | authResponse request =>
    -- the reply holds an id or none
    have hid : ∃ type id, ans = .auth id ∧ d.value = Serializer.authReply type id := by
      rw [hphase] at hwaits
      cases hwaits with
      | auth hisAuth =>
        cases request with
        | register username pwHash =>
          cases hans with
          | register _ _ id => exact ⟨_, id, rfl, hvalue⟩
        | login username pwHash =>
          cases hans with
          | login _ _ id => exact ⟨_, id, rfl, hvalue⟩
        | _ => cases hisAuth
    obtain ⟨type, id, rfl, hreply⟩ := hid
    have hread := Client.readAuthResponse_document hreply more
    constructor
    · intro hle
      rw [if_pos hle] at hread
      cases id with
      | none => simp [receive, told, hphase, hread]
      | some userId => simp [receive, told, hphase, hread]
    · intro hgt
      rw [if_neg hgt] at hread
      simp [receive, hphase, hread]
  | response type userId =>
    rw [hphase] at hwaits
    cases hwaits with
    | response hasks =>
      obtain ⟨shown, hshown, hprint⟩ := Client.printResult_value hasks hans
      have hread := Client.readResponse_document d more
      constructor
      · intro hle
        rw [if_pos hle, hvalue] at hread
        simp [receive, told, hphase, hread, hprint, hshown]
      · intro hgt
        rw [if_neg hgt] at hread
        simp [receive, hphase, hread]
  | _ => rw [hphase] at hwaits; cases hwaits

/-! One turn. -/

section Turns

variable {δ : Type} {db : Database δ} {hash : Bytes → UInt64}

/-- What the server does with the text of a request. -/
theorem Sessions.step_text (db : Database δ) {s : Sessions δ} {a : Reference}
    (hrun : s.running = true) (h : Stands s.server.market a) {r : ClientRequest} (hr : r.Entered)
    {b : Bytes} (hdump : r.toJson.dump = some b) (hlen : b.length < Session.maxLength) (k : Nat) :
    (∀ reply, (s.step db (k, b.take Session.maxLength)).1 = some reply ↔
        ∃ ans, Desk.answerTo db a s.server.db r.command = some ans ∧
          replyOf (ans.value r.command) = .ok reply) ∧
      Stands (s.step db (k, b.take Session.maxLength)).2.server.market
        (Desk.marketAfter db a s.server.db r.command) ∧
      (s.step db (k, b.take Session.maxLength)).2.server.db =
        Session.tableAfter db s.server.db a.userId r.command ∧
      (s.step db (k, b.take Session.maxLength)).2.running =
        (Desk.answerTo db a s.server.db r.command).isSome := by
  obtain ⟨hreply, hserver, hrunning⟩ :=
    Sessions.step_of_some db (k := k) hrun (ClientRequest.commandIn_text hr hdump hlen)
  have hanswer := h.execute_answer db (ClientRequest.command_ne_unknown hr)
  refine ⟨fun reply => ?_, ?_, ?_, ?_⟩
  · rw [hreply]
    rcases hanswer with ⟨ans, hans, -, hexec⟩ | ⟨hnone, e, hexec⟩
    · rw [hexec]
      simp only [hans, Option.some.injEq, exists_eq_left']
      cases replyOf (ans.value r.command) with
      | ok b => simp [Except.toOption]
      | error e => simp [Except.toOption]
    · rw [hexec, hnone]
      simp [Except.toOption]
  · rw [hserver, Session.execute_market, Desk.marketAfter]
    cases hcall : r.command.call (db.usernameExist s.server.db) with
    | none => exact h
    | some op => exact h.step op
  · rw [hserver, Session.execute_db, h.sim.userId]
  · rw [hrunning]
    rcases hanswer with ⟨ans, hans, hkind, hexec⟩ | ⟨hnone, e, hexec⟩
    · obtain ⟨d, -, hreply⟩ := hkind.document
      rw [hexec, hans, hreply]
      rfl
    · rw [hexec, hnone]
      rfl

/-- A text that fills the buffer ends the server. -/
theorem Sessions.step_overrun (db : Database δ) {s : Sessions δ} (hrun : s.running = true)
    {b : Bytes} (hlen : ¬ b.length < Session.maxLength) (k : Nat) :
    s.step db (k, b.take Session.maxLength) = (none, { s with running := false }) := by
  have hfull : ¬ (b.take Session.maxLength).length < Session.maxLength := by
    rw [List.length_take]
    omega
  simp only [Sessions.step, hrun, if_true, Session.handleRead, if_neg hfull]

namespace Exchange

/-- A client has read what it waits for, has thrown, or has the reply to its request there. -/
def Served (c : Terminal) (b : Bytes) : Prop :=
  b = [] ∨ c.phase = .threw ∨ ∃ ans, Told c.phase ans b

structure Sound (x : Exchange δ) : Prop where
  market : ∃ a, Stands x.sessions.server.market a
  inbox : ∀ k, Served (x.terminal k) (x.inbox k)

variable {x : Exchange δ} {k : Nat} {request : ClientRequest} {c' : Terminal}

/-- Nothing is left unread where a request is made. -/
theorem Sound.inbox_of_prepare (h : x.Sound)
    (hprepare : (x.terminal k).prepare hash = (some request, c')) : x.inbox k = [] := by
  rcases h.inbox k with hnil | hthrew | ⟨ans, c, hwaits, -⟩
  · exact hnil
  · simp only [Terminal.prepare, hthrew] at hprepare
    cases hprepare
  · rw [Terminal.prepare_of_waits hwaits] at hprepare
    cases hprepare

/-- A program that makes no request waits for nothing. -/
theorem told_of_prepare_none {ans : Answer} {reply : Bytes}
    (hprepare : (x.terminal k).prepare hash = (none, c'))
    (h : Told (x.terminal k).phase ans reply) : Told c'.phase ans reply := by
  obtain ⟨c, hwaits, hrest⟩ := h
  rw [Terminal.prepare_of_waits hwaits] at hprepare
  rw [← (Prod.mk.inj hprepare).2]
  exact ⟨c, hwaits, hrest⟩

theorem threw_of_prepare_none (hprepare : (x.terminal k).prepare hash = (none, c'))
    (h : (x.terminal k).phase = .threw) : c'.phase = .threw := by
  simp only [Terminal.prepare, h] at hprepare
  rw [← (Prod.mk.inj hprepare).2]
  exact h

/-- The clients other than the one whose turn it is are left as they are. -/
theorem Sound.update (h : x.Sound) (k : Nat) {c : Terminal} {b : Bytes} (hk : Served c b)
    (j : Nat) : Served (Function.update x.terminal k c j) (Function.update x.inbox k b j) := by
  by_cases hj : j = k
  · rw [hj, Function.update_self, Function.update_self]
    exact hk
  · rw [Function.update_of_ne hj, Function.update_of_ne hj]
    exact h.inbox j

theorem Sound.update_terminal (h : x.Sound) (k : Nat) {c : Terminal} (hk : Served c (x.inbox k))
    (j : Nat) : Served (Function.update x.terminal k c j) (x.inbox j) := by
  have hj := h.update k hk j
  rw [Function.update_eq_self] at hj
  exact hj

/-- The reply to a request that is sent, if there is one, is one the client waits for. -/
theorem Sound.told_of_reply (h : x.Sound)
    (hprepare : (x.terminal k).prepare hash = (some request, c')) {b reply : Bytes}
    (hdump : request.toJson.dump = some b)
    (hreply : (x.sessions.step db (k, b.take Session.maxLength)).1 = some reply) :
    ∃ ans, Told c'.phase ans reply := by
  obtain ⟨a, hstands⟩ := h.market
  obtain ⟨hentered, hwaits, -⟩ := Terminal.prepare_some hprepare
  cases hrun : x.sessions.running with
  | false =>
    rw [Sessions.step_of_stopped db hrun] at hreply
    cases hreply
  | true =>
    by_cases hlen : b.length < Session.maxLength
    · have hiff := (Sessions.step_text db hrun hstands hentered hdump hlen k).1 reply
      obtain ⟨ans, hans, htext⟩ := hiff.mp hreply
      rcases hstands.execute_answer db (ClientRequest.command_ne_unknown hentered) with
        ⟨ans', hans', hkind, -⟩ | ⟨hnone, -⟩
      · obtain rfl := Option.some.inj (hans.symm.trans hans')
        obtain ⟨d, hvalue, hd⟩ := hkind.document
        exact ⟨ans, _, hwaits, hkind, d, Except.ok.inj (hd.symm.trans htext), hvalue⟩
      · rw [hnone] at hans
        cases hans
    · rw [Sessions.step_overrun db hrun hlen] at hreply
      cases hreply

theorem stands_step {s : Sessions δ} (h : ∃ a, Stands s.server.market a) (read : Nat × Bytes) :
    ∃ a, Stands (s.step db read).2.server.market a := by
  obtain ⟨a, h⟩ := h
  rcases Sessions.step_market db s read with hsame | ⟨op, hmarket, -⟩
  · exact ⟨a, hsame ▸ h⟩
  · exact ⟨_, hmarket ▸ h.step op⟩

/-- A client that reads what it waits for leaves nothing, unless it throws. -/
theorem receive_done {c : Terminal} {ans : Answer} {reply : Bytes} (h : Told c.phase ans reply)
    (more : Nat) : (c.receive reply more).2 = [] ∨ (c.receive reply more).1.phase = .threw := by
  obtain ⟨hwhole, hcut⟩ := Terminal.receive_told h more
  by_cases hle : reply.length ≤ min (more + 1) Client.readLimit
  · exact .inl (by rw [(hwhole hle).1])
  · exact .inr (hcut hle)

theorem Sound.step (h : x.Sound) (t : Turn) : (x.step db hash t).2.Sound := by
  cases t with
  | send k =>
    simp only [Exchange.step, Terminal.send]
    cases hprepare : (x.terminal k).prepare hash with
    | mk made c' =>
      cases made with
      | none =>
        refine ⟨h.market, h.update_terminal k ?_⟩
        rcases h.inbox k with hnil | hthrew | ⟨ans, htold⟩
        · exact .inl hnil
        · exact .inr (.inl (threw_of_prepare_none hprepare hthrew))
        · exact .inr (.inr ⟨ans, told_of_prepare_none hprepare htold⟩)
      | some request =>
        have hnil := h.inbox_of_prepare hprepare
        dsimp only
        cases hdump : request.toJson.dump with
        | none => exact ⟨h.market, h.update_terminal k (.inl hnil)⟩
        | some b =>
          refine ⟨stands_step h.market _, h.update k ?_⟩
          rw [hnil, List.nil_append]
          cases hreply : (x.sessions.step db (k, b.take Session.maxLength)).1 with
          | none => exact .inl rfl
          | some reply => exact .inr (.inr (h.told_of_reply hprepare hdump hreply))
  | receive k more =>
    simp only [Exchange.step]
    split
    · next hnil =>
      split
      · exact h
      · exact ⟨h.market, h.update_terminal k (.inl hnil)⟩
    · next hne =>
      refine ⟨h.market, h.update k ?_⟩
      rcases h.inbox k with hnil | hthrew | ⟨ans, htold⟩
      · exact absurd hnil hne
      · refine .inr (.inl ?_)
        simp only [Terminal.receive, hthrew]
      · rcases receive_done htold more with hdone | hthrew
        · exact .inl hdone
        · exact .inr (.inl hthrew)

theorem sound_start (server : Server δ) (h : server.market.Reachable) (data input : Nat → Bytes) :
    (start server data input).Sound :=
  ⟨h.stands, fun _ => .inl rfl⟩

/-! What ends a client. -/

/-- The client makes a request with a name that is not UTF-8, or reads from a connection that has
been closed, or reads less than the reply. -/
def Breaks (hash : Bytes → UInt64) (k : Nat) (x : Exchange δ) : Turn → Prop
  | .send j => j = k ∧ ∃ request ∈ ((x.terminal k).prepare hash).1, request.toJson.dump = none
  | .receive j more => j = k ∧
      (x.inbox k = [] ∧ (x.terminal k).phase.waiting = true ∧ x.sessions.running = false ∨
        min (more + 1) Client.readLimit < (x.inbox k).length)

theorem breaks_send {k : Nat} :
    x.Breaks hash k (.send k) ↔
      ∃ request ∈ ((x.terminal k).prepare hash).1, request.toJson.dump = none :=
  and_iff_right rfl

theorem breaks_receive {k more : Nat} :
    x.Breaks hash k (.receive k more) ↔
      x.inbox k = [] ∧ (x.terminal k).phase.waiting = true ∧ x.sessions.running = false ∨
        min (more + 1) Client.readLimit < (x.inbox k).length :=
  and_iff_right rfl

/-- A turn of another client changes nothing at the client. -/
theorem terminal_step_of_ne {t : Turn} (h : t.client ≠ k) :
    (x.step db hash t).2.terminal k = x.terminal k := by
  cases t with
  | send j =>
    simp only [Exchange.step]
    split <;> exact Function.update_of_ne (Ne.symm h) _ _
  | receive j more =>
    simp only [Exchange.step]
    repeat' split
    · rfl
    · exact Function.update_of_ne (Ne.symm h) _ _
    · exact Function.update_of_ne (Ne.symm h) _ _

theorem not_breaks_of_ne {t : Turn} (h : t.client ≠ k) : ¬ x.Breaks hash k t := by
  cases t with
  | send j => exact fun hb => h hb.1
  | receive j more => exact fun hb => h hb.1

theorem phase_send (k : Nat) :
    ((x.step db hash (.send k)).2.terminal k).phase ≠ .threw ↔
      (x.terminal k).phase ≠ .threw ∧ ¬ x.Breaks hash k (.send k) := by
  rw [breaks_send]
  simp only [Exchange.step, Terminal.send]
  cases hprepare : (x.terminal k).prepare hash with
  | mk made c' =>
    cases made with
    | none =>
      simp only [Function.update_self, Option.mem_def, reduceCtorEq, false_and, exists_false,
        not_false_eq_true, and_true]
      exact not_congr (Terminal.prepare_none_threw hprepare)
    | some request =>
      obtain ⟨-, hwaits, -⟩ := Terminal.prepare_some hprepare
      have hbefore : (x.terminal k).phase ≠ .threw := by
        intro hthrew
        simp only [Terminal.prepare, hthrew] at hprepare
        cases hprepare
      simp only [hbefore, ne_eq, not_false_eq_true, true_and, Option.mem_def, Option.some.injEq,
        exists_eq_left']
      cases hdump : request.toJson.dump with
      | none => simp
      | some b => simpa using hwaits.ne_threw

theorem phase_receive (h : x.Sound) (k more : Nat) :
    ((x.step db hash (.receive k more)).2.terminal k).phase ≠ .threw ↔
      (x.terminal k).phase ≠ .threw ∧ ¬ x.Breaks hash k (.receive k more) := by
  rw [breaks_receive]
  simp only [Exchange.step]
  by_cases hnil : x.inbox k = []
  · simp only [hnil, if_true, true_and, List.length_nil, Nat.not_lt_zero, or_false]
    cases hrun : x.sessions.running with
    | true => simp
    | false =>
      simp only [Bool.false_eq_true, if_false, Function.update_self, and_true]
      exact Terminal.disconnect_phase _
  · simp only [hnil, if_false, false_and, false_or, Function.update_self, Nat.not_lt]
    rcases h.inbox k with hnil' | hthrew | ⟨ans, htold⟩
    · exact absurd hnil' hnil
    · simp [Terminal.receive, hthrew]
    · obtain ⟨hwhole, hcut⟩ := Terminal.receive_told htold more
      obtain ⟨cmd, hwaits, -⟩ := htold
      simp only [ne_eq, hwaits.ne_threw, not_false_eq_true, true_and]
      by_cases hle : (x.inbox k).length ≤ min (more + 1) Client.readLimit
      · rw [(hwhole hle).1]
        exact iff_of_true (hwhole hle).2 hle
      · exact iff_of_false (not_not.mpr (hcut hle)) hle

theorem phase_step (h : x.Sound) (k : Nat) (t : Turn) :
    ((x.step db hash t).2.terminal k).phase ≠ .threw ↔
      (x.terminal k).phase ≠ .threw ∧ ¬ x.Breaks hash k t := by
  by_cases ht : t.client = k
  · cases t with
    | send j => exact ht ▸ phase_send j
    | receive j more => exact ht ▸ phase_receive h j more
  · rw [terminal_step_of_ne ht]
    exact (and_iff_left (not_breaks_of_ne ht)).symm

/-- Whatever is typed at the terminals, and in whatever order the clients and the server go on: a
client program ends with an exception exactly when it is given a name that is not UTF-8, reads
from a server that has stopped, or reads less than a whole reply. No reply of a running server is
one that it cannot read or print. -/
theorem threw_iff (db : Database δ) (hash : Bytes → UInt64) {server : Server δ}
    (h : server.market.Reachable) (data input : Nat → Bytes) (k : Nat) (turns : List Turn) :
    ((Machine.exec (step db hash) (start server data input) turns).terminal k).phase ≠ .threw ↔
      Machine.Along (step db hash) (fun x t => ¬ x.Breaks hash k t) (start server data input)
        turns := by
  rw [Machine.exec_iff_along (P := fun x : Exchange δ => (x.terminal k).phase ≠ .threw)
    (fun _ t h _ => h.step t) (fun _ t h _ => phase_step h k t) (sound_start server h data input)
    (Machine.along_true _ turns)]
  exact and_iff_right (by simp [start, Terminal.start])

/-! The desk. -/

/-- Nothing of a message is lost in this turn: a request has a text and leaves room for the
terminator, and a reply is read whole. -/
def Whole (hash : Bytes → UInt64) (x : Exchange δ) : Turn → Bool
  | .send k => ((x.terminal k).prepare hash).1.all fun request =>
      request.toJson.dump.any fun b => b.length < Session.maxLength
  | .receive k more => (x.inbox k).length ≤ min (more + 1) Client.readLimit

/-- The exchange stands for the desk: the programs are the same, and what has arrived at a client
is the reply with the answer that it is to be told. -/
structure Mirrors (x : Exchange δ) (d : Desk δ) : Prop where
  market : Stands x.sessions.server.market d.market
  table : x.sessions.server.db = d.table
  running : x.sessions.running = d.running
  terminal : x.terminal = d.terminal
  arrived : ∀ k ans, d.answer k = some ans → Told (d.terminal k).phase ans (x.inbox k)
  read : ∀ k, d.answer k = none → x.inbox k = []

variable {d : Desk δ}

theorem Mirrors.start (server : Server δ) {a : Reference} (h : Stands server.market a)
    (data input : Nat → Bytes) :
    Mirrors (start server data input) (Desk.start a server.db input) where
  market := h
  table := rfl
  running := rfl
  terminal := rfl
  arrived _ _ hans := by cases hans
  read _ _ := rfl

/-- The client whose turn it is changes as it does at the desk. -/
theorem Mirrors.told_update (h : Mirrors x d) (answer : Option Answer) {c : Terminal} {b : Bytes}
    (hsome : ∀ ans, answer = some ans → Told c.phase ans b) (j : Nat) (ans : Answer)
    (hans : Function.update d.answer k answer j = some ans) :
    Told (Function.update d.terminal k c j).phase ans (Function.update x.inbox k b j) := by
  by_cases hj : j = k
  · rw [hj, Function.update_self] at hans
    rw [hj, Function.update_self, Function.update_self]
    exact hsome ans hans
  · rw [Function.update_of_ne hj] at hans
    rw [Function.update_of_ne hj, Function.update_of_ne hj]
    exact h.arrived j ans hans

theorem Mirrors.read_update (h : Mirrors x d) (answer : Option Answer) {b : Bytes}
    (hnone : answer = none → b = []) (j : Nat)
    (hans : Function.update d.answer k answer j = none) : Function.update x.inbox k b j = [] := by
  by_cases hj : j = k
  · rw [hj, Function.update_self] at hans
    rw [hj, Function.update_self]
    exact hnone hans
  · rw [Function.update_of_ne hj] at hans
    rw [Function.update_of_ne hj]
    exact h.read j hans

/-- A client that makes a request has been told every answer. -/
theorem Mirrors.answer_of_prepare (h : Mirrors x d)
    (hprepare : (d.terminal k).prepare hash = (some request, c')) : d.answer k = none := by
  cases hans : d.answer k with
  | none => rfl
  | some ans =>
    obtain ⟨cmd, hwaits, -⟩ := h.arrived k ans hans
    rw [Terminal.prepare_of_waits hwaits] at hprepare
    cases hprepare

theorem Mirrors.send (h : Mirrors x d) (k : Nat) (hwhole : x.Whole hash (.send k) = true) :
    Mirrors (x.step db hash (.send k)).2 (d.step db hash (.send k)).2 := by
  simp only [Exchange.step, Desk.step, Terminal.send]
  rw [Whole] at hwhole
  rw [h.terminal] at hwhole ⊢
  cases hprepare : (d.terminal k).prepare hash with
  | mk made c' =>
    rw [hprepare] at hwhole
    cases made with
    | none =>
      refine ⟨h.market, h.table, h.running, rfl, fun j ans hans => ?_, h.read⟩
      have htold := h.told_update (k := k) (c := c') (b := x.inbox k) (d.answer k)
        (fun ans hans => told_of_prepare_none (x := x)
          (by rw [h.terminal]; exact hprepare) (h.terminal ▸ h.arrived k ans hans)) j ans
      rw [Function.update_eq_self, Function.update_eq_self] at htold
      exact htold hans
    | some request =>
      obtain ⟨hentered, hwaits, -⟩ := Terminal.prepare_some hprepare
      have hnone := h.answer_of_prepare hprepare
      have hnil := h.read k hnone
      obtain ⟨b, hdump, hlen⟩ :
          ∃ b, request.toJson.dump = some b ∧ b.length < Session.maxLength := by
        simpa [Option.any_eq_true] using hwhole
      simp only [hdump, hnil, List.nil_append]
      cases hrun : x.sessions.running with
      | false =>
        rw [Sessions.step_of_stopped db hrun, ← h.running, hrun]
        have htold := h.told_update (k := k) (c := c') (b := []) (d.answer k)
          fun ans hans => by rw [hnone] at hans; cases hans
        have hread := h.read_update (k := k) (b := []) (d.answer k) fun _ => rfl
        rw [Function.update_eq_self] at htold hread
        exact ⟨h.market, h.table, hrun.symm ▸ rfl, rfl, htold, hread⟩
      | true =>
        rw [← h.running, hrun, if_pos rfl]
        obtain ⟨hreply, hmarket, htable, hrunning⟩ :=
          Sessions.step_text db hrun h.market hentered hdump hlen k
        rw [h.table] at hreply hmarket htable hrunning
        refine ⟨hmarket, htable, hrunning, rfl, h.told_update _ ?_, h.read_update _ ?_⟩
        · intro ans hans
          have hkind := h.market.answers_of_answerTo (ClientRequest.command_ne_unknown hentered)
            (h.table ▸ hans)
          obtain ⟨doc, hvalue, hdoc⟩ := hkind.document
          have hsent := (hreply doc.bytes).mpr ⟨ans, hans, hdoc⟩
          rw [hsent]
          exact ⟨_, hwaits, hkind, doc, rfl, hvalue⟩
        · intro hno
          cases hsent : (x.sessions.step db (k, b.take Session.maxLength)).1 with
          | none => rfl
          | some reply =>
            obtain ⟨ans, hans, -⟩ := (hreply reply).mp hsent
            rw [hno] at hans
            cases hans

theorem Mirrors.receive (h : Mirrors x d) (k more : Nat)
    (hwhole : x.Whole hash (.receive k more) = true) :
    Mirrors (x.step db hash (.receive k more)).2 (d.step db hash (.receive k more)).2 := by
  have hle : (x.inbox k).length ≤ min (more + 1) Client.readLimit := of_decide_eq_true hwhole
  simp only [Exchange.step, Desk.step]
  cases hans : d.answer k with
  | some ans =>
    have htold := h.arrived k ans hans
    have hreceive := ((Terminal.receive_told htold more).1 hle).1
    rw [if_neg htold.ne_nil, h.terminal, hreceive]
    refine ⟨h.market, h.table, h.running, rfl, h.told_update _ ?_, h.read_update _ fun _ => rfl⟩
    intro ans' hnone
    cases hnone
  | none =>
    rw [if_pos (h.read k hans), ← h.running]
    cases hrun : x.sessions.running with
    | true => exact h
    | false =>
      have htold := h.told_update (k := k) (c := (d.terminal k).disconnect) (b := x.inbox k)
        (d.answer k) fun ans hsome => by rw [hans] at hsome; cases hsome
      rw [Function.update_eq_self, Function.update_eq_self] at htold
      exact ⟨h.market, h.table, hrun, by rw [h.terminal]; rfl, htold, h.read⟩

end Exchange

end Turns

namespace Exchange

/-! A user who registers and looks at the balance. -/

/-- What one types, and the others nothing. -/
def sampleInput (k : Nat) : Bytes := if k = 0 then text "1\nann secret\n4\n" else []

def sampleHash (password : Bytes) : UInt64 := .ofNat password.length

def sampleServer : Server (List UserRow) := ⟨Market.empty 0 0 0, []⟩

theorem sampleServer_reachable : sampleServer.market.Reachable := ⟨0, 0, 0, [], rfl⟩

def sampleTurns : List Turn := [.send 0, .receive 0 99, .send 0, .receive 0 199]

instance {δ : Type} (x : Exchange δ) (hash : Bytes → UInt64) (k : Nat) :
    (t : Turn) → Decidable (x.Breaks hash k t)
  | .send j => inferInstanceAs (Decidable (j = k ∧ _))
  | .receive j _ => inferInstanceAs (Decidable (j = k ∧ (_ ∨ _ < _)))

theorem sample_not_threw :
    ((Machine.exec (step userTable sampleHash) (start sampleServer (fun _ => []) sampleInput)
      sampleTurns).terminal 0).phase ≠ .threw :=
  (threw_iff userTable sampleHash sampleServer_reachable (fun _ => []) sampleInput 0
    sampleTurns).mpr (by decide +kernel)

end Exchange

end ForexMarket
