import ForexMarket.Theorems.Exchange
import ForexMarket.Theorems.Restart

/- What the clients make of the protocol. Nothing ties the user id in a request to the session it
   comes on, but a client program names only the id that it was granted on its own connection
   (`requests_named`). So on a server that has had no other clients every request it
   sends is answered, and only a text that fills the buffer stops the server
   (`server_runs_iff`). -/
namespace ForexMarket

/-- The id an answer grants. -/
def Answer.granted : Answer → Option UInt64
  | auth userId => userId
  | market _ _ => none

theorem Answer.Answers.reportedIn {c : Command} {ans : Answer} (h : ans.Answers c) :
    ForexMarket.reportedIn (ans.value c) = ans.granted := by
  cases h with
  | register username pwHash id => exact reportedIn_authReply id rfl
  | login username pwHash id => exact reportedIn_authReply id rfl
  | _ => rfl

theorem Told.reportedId {phase : Phase} {ans : Answer} {reply : Bytes}
    (h : Told phase ans reply) : ForexMarket.reportedId reply = ans.granted := by
  obtain ⟨c, -, hans, d, rfl, hvalue⟩ := h
  rw [ForexMarket.reportedId, d.parse_bytes, Option.bind_some, hvalue]
  exact hans.reportedIn

theorem reportedId_nil : reportedId [] = none := by decide

/-- The program goes no further. -/
def Phase.over : Phase → Bool
  | ended | asking | threw => true
  | authentication | authResponse _ | poll _ | response _ _ => false

namespace Terminal

variable {hash : Bytes → UInt64} {c c' : Terminal} {request : ClientRequest}

/-- A program that makes no request goes no further, or is waiting. -/
theorem prepare_none (h : c.prepare hash = (none, c')) : c'.phase.over = true ∨ c' = c := by
  unfold prepare at h
  split at h
  · split at h
    · rw [← (Prod.mk.inj h).2]
      exact .inl rfl
    · cases h
  · split at h
    · rw [← (Prod.mk.inj h).2]
      exact .inl rfl
    · rw [← (Prod.mk.inj h).2]
      exact .inl rfl
    · cases h
  · exact .inr (Prod.mk.inj h).2.symm

/-- A request is made at the authentication, for nobody, or at the menu, for the user the program
goes on with. -/
theorem prepare_cases (h : c.prepare hash = (some request, c')) :
    (c.phase = .authentication ∧ c'.phase = .authResponse request ∧ request.isAuth = true) ∨
      ∃ type u, c.phase = .poll u ∧ c'.phase = .response type u ∧ type.Asks u request.command := by
  unfold prepare at h
  split at h
  · next hphase =>
    split at h
    · cases h
    · next hauth =>
      obtain ⟨hr, rfl⟩ := Prod.mk.inj h
      obtain rfl := Option.some.inj hr
      exact .inl ⟨hphase, rfl, Client.processAuthentication_isAuth hauth⟩
  · next u hphase =>
    split at h
    · cases h
    · cases h
    · next type _ _ hpoll =>
      obtain ⟨hr, rfl⟩ := Prod.mk.inj h
      obtain rfl := Option.some.inj hr
      exact .inr ⟨type, u, hphase, rfl, (Client.poll_asks hpoll).2⟩
  · cases h

end Terminal

/-- After the reply to a registration or a login the program goes on with the id it is granted, or
asks again; after any other with the id it had. -/
theorem Terminal.told_cases {c : Terminal} {ans : Answer} {reply : Bytes}
    (h : Told c.phase ans reply) :
    (∃ request, c.phase = .authResponse request ∧
        ((∃ u, ans.granted = some u ∧ (c.told ans).phase = .poll u) ∨
          (ans.granted = none ∧ (c.told ans).phase = .authentication))) ∨
      ∃ type u, c.phase = .response type u ∧ (c.told ans).phase = .poll u := by
  obtain ⟨cmd, hwaits, hans, -⟩ := h
  cases hphase : c.phase with
  | authResponse request =>
    rw [hphase] at hwaits
    refine .inl ⟨request, rfl, ?_⟩
    have hauth : ∃ id, ans = .auth id := by
      cases hwaits with
      | auth hisAuth =>
        cases request with
        | register username pwHash => cases hans; exact ⟨_, rfl⟩
        | login username pwHash => cases hans; exact ⟨_, rfl⟩
        | _ => cases hisAuth
    obtain ⟨id, rfl⟩ := hauth
    cases id with
    | none => exact .inr ⟨rfl, by simp [told, hphase]⟩
    | some u => exact .inl ⟨u, rfl, by simp [told, hphase]⟩
  | response type u =>
    rw [hphase] at hwaits
    cases hwaits with
    | response hasks =>
      obtain ⟨shown, hshown, -⟩ := Client.printResult_value hasks hans
      exact .inr ⟨type, u, rfl, by simp [told, hphase, hshown]⟩
  | _ => rw [hphase] at hwaits; cases hwaits

/-- A request of the menu names nobody but the user it is made for. -/
theorem RequestType.Asks.user {type : RequestType} {u v : UInt64} {c : Command}
    (h : type.Asks u c) (hv : c.user = some v) : v = u := by
  cases h with
  | quotes => cases hv
  | _ => exact (Option.some.inj hv).symm

theorem RequestType.Asks.granted {type : RequestType} {u : UInt64} {c : Command} {ans : Answer}
    (h : type.Asks u c) (hans : ans.Answers c) : ans.granted = none := by
  cases h <;> cases hans <;> rfl

theorem ClientRequest.user_of_isAuth {r : ClientRequest} (h : r.isAuth = true) :
    r.command.user = none := by
  cases r with
  | register username pwHash => rfl
  | login username pwHash => rfl
  | _ => cases h

namespace Exchange

variable {δ : Type} {db : Database δ} {hash : Bytes → UInt64} {x : Exchange δ} {k : Nat}

/-- The id a client goes on with, or that the reply it is to read reports. -/
def idOf (x : Exchange δ) (k : Nat) : Option UInt64 :=
  match (x.terminal k).phase with
  | .poll u | .response _ u => some u
  | .authResponse _ => reportedId (x.inbox k)
  | _ => none

/-- The reply the server sends to a client in a turn. -/
def replyTo (db : Database δ) (hash : Bytes → UInt64) (k : Nat) (x : Exchange δ) :
    Turn → Option Bytes
  | .send j =>
    if j = k then
      ((x.terminal j).send hash).1.bind fun b =>
        (x.sessions.step db (j, b.take Session.maxLength)).1
    else none
  | .receive _ _ => none

/-- The id the reply to a client grants it. -/
def grants (db : Database δ) (hash : Bytes → UInt64) (k : Nat) (x : Exchange δ) (t : Turn) :
    List UInt64 :=
  ((replyTo db hash k x t).bind reportedId).toList

theorem grants_of_ne {t : Turn} (h : t.client ≠ k) : grants db hash k x t = [] := by
  cases t with
  | send j =>
    have hj : j ≠ k := h
    simp [grants, replyTo, hj]
  | receive j more => rfl

theorem inbox_step_of_ne {t : Turn} (h : t.client ≠ k) :
    (x.step db hash t).2.inbox k = x.inbox k := by
  cases t with
  | send j =>
    simp only [Exchange.step]
    split
    · rfl
    · exact Function.update_of_ne (Ne.symm h) _ _
  | receive j more =>
    simp only [Exchange.step]
    repeat' split
    · rfl
    · rfl
    · exact Function.update_of_ne (Ne.symm h) _ _

/-- What a request that is sent makes of the exchange. -/
theorem step_send {request : ClientRequest} {c' : Terminal} {b : Bytes}
    (hprepare : (x.terminal k).prepare hash = (some request, c'))
    (hdump : request.toJson.dump = some b) :
    x.step db hash (.send k) =
      (some b,
        { sessions := (x.sessions.step db (k, b.take Session.maxLength)).2
          terminal := Function.update x.terminal k c'
          inbox := Function.update x.inbox k
            (x.inbox k ++ (x.sessions.step db (k, b.take Session.maxLength)).1.getD []) }) := by
  simp only [Exchange.step, Terminal.send, hprepare, hdump]

theorem grants_send {request : ClientRequest} {c' : Terminal} {b : Bytes}
    (hprepare : (x.terminal k).prepare hash = (some request, c'))
    (hdump : request.toJson.dump = some b) :
    grants db hash k x (.send k) =
      ((x.sessions.step db (k, b.take Session.maxLength)).1.bind reportedId).toList := by
  simp only [grants, replyTo, if_true, Terminal.send, hprepare, hdump, Option.bind_some]

theorem idOf_send (h : x.Sound) (k : Nat)
    (hover : ((x.step db hash (.send k)).2.terminal k).phase.over = false) :
    (x.terminal k).phase.over = false ∧
      ((x.step db hash (.send k)).2.idOf k).toList =
        (x.idOf k).toList ++ grants db hash k x (.send k) := by
  cases hprepare : (x.terminal k).prepare hash with
  | mk made c' =>
    cases made with
    | none =>
      have hstep : x.step db hash (.send k) =
          (none, { x with terminal := Function.update x.terminal k c' }) := by
        simp only [Exchange.step, Terminal.send, hprepare]
      have hgrants : grants db hash k x (.send k) = [] := by
        simp [grants, replyTo, Terminal.send, hprepare]
      rw [hstep] at hover ⊢
      rw [hgrants, List.append_nil]
      dsimp only at hover
      rw [Function.update_self] at hover
      rcases Terminal.prepare_none hprepare with hend | rfl
      · rw [hover] at hend
        cases hend
      · rw [Function.update_eq_self]
        exact ⟨hover, rfl⟩
    | some request =>
      cases hdump : request.toJson.dump with
      | none =>
        simp only [Exchange.step, Terminal.send, hprepare, hdump, Function.update_self,
          Phase.over, Bool.true_eq_false] at hover
      | some b =>
        rw [step_send hprepare hdump, grants_send hprepare hdump, h.inbox_of_prepare hprepare,
          List.nil_append]
        rcases Terminal.prepare_cases hprepare with
          ⟨hphase, hphase', -⟩ | ⟨type, u, hphase, hphase', hasks⟩
        · -- the reply holds the id, if there is one
          refine ⟨by rw [hphase]; rfl, ?_⟩
          simp only [idOf, Function.update_self, hphase', hphase, Option.toList_none,
            List.nil_append]
          cases (x.sessions.step db (k, b.take Session.maxLength)).1 with
          | none => rw [Option.getD_none, reportedId_nil, Option.bind_none]
          | some reply => rfl
        · refine ⟨by rw [hphase]; rfl, ?_⟩
          simp only [idOf, Function.update_self, hphase', hphase]
          cases hreply : (x.sessions.step db (k, b.take Session.maxLength)).1 with
          | none => simp
          | some reply =>
            obtain ⟨ans, htold⟩ := h.told_of_reply hprepare hdump hreply
            have hnone : reportedId reply = none := by
              rw [htold.reportedId]
              obtain ⟨cmd, hwaits, hans, -⟩ := htold
              rw [hphase'] at hwaits
              cases hwaits with
              | response hasks' => exact hasks'.granted hans
            simp [hnone]

theorem idOf_receive (h : x.Sound) (k more : Nat)
    (hover : ((x.step db hash (.receive k more)).2.terminal k).phase.over = false) :
    (x.terminal k).phase.over = false ∧
      ((x.step db hash (.receive k more)).2.idOf k).toList = (x.idOf k).toList := by
  simp only [Exchange.step] at hover ⊢
  by_cases hnil : x.inbox k = []
  · simp only [hnil, if_true] at hover ⊢
    cases hrun : x.sessions.running with
    | true =>
      simp only [hrun, if_true] at hover ⊢
      exact ⟨hover, trivial⟩
    | false =>
      simp only [hrun, Bool.false_eq_true, if_false, Function.update_self] at hover ⊢
      have hsame : (x.terminal k).disconnect = x.terminal k := by
        unfold Terminal.disconnect at hover ⊢
        split <;> rename_i hphase <;> simp_all [Phase.over]
      rw [hsame] at hover ⊢
      rw [Function.update_eq_self]
      exact ⟨hover, rfl⟩
  · simp only [hnil, if_false, Function.update_self] at hover ⊢
    rcases h.inbox k with hnil' | hthrew | ⟨ans, htold⟩
    · exact absurd hnil' hnil
    · simp only [Terminal.receive, hthrew, Phase.over, Bool.true_eq_false] at hover
    · obtain ⟨hwhole, hcut⟩ := Terminal.receive_told htold more
      by_cases hle : (x.inbox k).length ≤ min (more + 1) Client.readLimit
      · rw [(hwhole hle).1]
        have hreported := htold.reportedId
        rcases Terminal.told_cases htold with
          ⟨r, hphase, ⟨u, hgranted, hpoll⟩ | ⟨hgranted, hauth⟩⟩ | ⟨type, u, hphase, hpoll⟩
        · refine ⟨by rw [hphase]; rfl, ?_⟩
          simp only [idOf, Function.update_self, hpoll, hphase, hreported, hgranted]
        · refine ⟨by rw [hphase]; rfl, ?_⟩
          simp only [idOf, Function.update_self, hauth, hphase, hreported, hgranted]
        · refine ⟨by rw [hphase]; rfl, ?_⟩
          simp only [idOf, Function.update_self, hpoll, hphase]
      · rw [hcut hle] at hover
        cases hover

/-- In a turn a client keeps its id, or gets the one that the reply to it grants. -/
theorem idOf_step (h : x.Sound) (k : Nat) (t : Turn)
    (hover : ((x.step db hash t).2.terminal k).phase.over = false) :
    (x.terminal k).phase.over = false ∧
      ((x.step db hash t).2.idOf k).toList = (x.idOf k).toList ++ grants db hash k x t := by
  by_cases ht : t.client = k
  · cases t with
    | send j =>
      obtain rfl : j = k := ht
      exact idOf_send h j hover
    | receive j more =>
      obtain rfl : j = k := ht
      rw [show grants db hash j x (.receive j more) = [] from rfl, List.append_nil]
      exact idOf_receive h j more hover
  · rw [terminal_step_of_ne ht] at hover
    refine ⟨hover, ?_⟩
    rw [grants_of_ne ht, List.append_nil, idOf, terminal_step_of_ne ht, inbox_step_of_ne ht]
    rfl

/-- In every run, whatever is typed and in whatever order the clients and the server go on: a
client that makes a request in the name of a user has been granted exactly one id on its own
connection, and it is the id of that user. -/
theorem requests_named (db : Database δ) (hash : Bytes → UInt64) {server : Server δ}
    (h : server.market.Reachable) (data input : Nat → Bytes) (turns : List Turn) (k : Nat)
    (request : ClientRequest) (u : UInt64)
    (hmade : request ∈ (((Machine.exec (step db hash) (start server data input) turns).terminal
      k).prepare hash).1) (hu : request.command.user = some u) :
    Machine.gather (step db hash) (grants db hash k) (start server data input) turns = [u] := by
  have hrun := Machine.exec_inv_gather (f := grants db hash k)
    (I := fun ids x => x.Sound ∧ ((x.terminal k).phase.over = false → ids = (x.idOf k).toList))
    (fun ids x t hx => ⟨hx.1.step t, fun hover => by
      obtain ⟨hbefore, hids⟩ := idOf_step hx.1 k t hover
      rw [hids, hx.2 hbefore]⟩)
    (l := []) ⟨sound_start server h data input, fun _ => rfl⟩ turns
  rw [List.nil_append] at hrun
  cases hprepare : ((Machine.exec (step db hash) (start server data input) turns).terminal
      k).prepare hash with
  | mk made c' =>
    rw [hprepare] at hmade
    obtain rfl : made = some request := hmade
    rcases Terminal.prepare_cases hprepare with ⟨-, -, hauth⟩ | ⟨type, v, hphase, -, hasks⟩
    · rw [ClientRequest.user_of_isAuth hauth] at hu
      cases hu
    · rw [hrun.2 (by rw [hphase]; rfl), idOf, hphase, hasks.user hu]
      rfl

/-- The one who has registered asks as the user 0. -/
theorem sample_named :
    Machine.gather (step userTable sampleHash) (grants userTable sampleHash 0)
      (start sampleServer (fun _ => []) sampleInput)
        [.send 0, .send 1, .receive 1 99, .receive 0 99] = [0] :=
  requests_named userTable sampleHash sampleServer_reachable (fun _ => []) sampleInput
    [.send 0, .send 1, .receive 1 99, .receive 0 99] 0 (.idOnly requests.balance 0) 0
    (by decide +kernel) rfl

/-! The server goes on. -/

variable {rows : δ → List UserRow} {plain : Bytes → Prop} {same : UInt64 → UInt64 → Prop}

/-- The name in the request that is made is plain, and the ids of the users fit an `int`. -/
def Ordinary (plain : Bytes → Prop) (hash : Bytes → UInt64) (x : Exchange δ) (t : Turn) : Prop :=
  (∀ request ∈ ((x.terminal t.client).prepare hash).1, ∀ username ∈ request.command.username,
      plain username) ∧
    x.sessions.server.market.userId < 2 ^ 31

/-- The rows of the table are users of the market, and so is every user a client goes on with. -/
structure Known (rows : δ → List UserRow) (x : Exchange δ) : Prop where
  sound : x.Sound
  tracks : Tracks rows x.sessions.server []
  known : ∀ k u, x.idOf k = some u → (x.sessions.server.market.users.find? u.toNat).isSome

/-- The text that is sent in this turn leaves room for the terminator. -/
def Short (db : Database δ) (hash : Bytes → UInt64) (x : Exchange δ) (t : Turn) : Prop :=
  ∀ b ∈ (x.step db hash t).1, b.length < Session.maxLength

/-- A turn that is no request a running server reads leaves the server as it is. -/
theorem sessions_step (db : Database δ) (hash : Bytes → UInt64) (x : Exchange δ) (t : Turn) :
    (x.step db hash t).2.sessions = x.sessions ∧ (∀ k, grants db hash k x t = []) ∧
        (x.sessions.running = true → (x.step db hash t).1 = none) ∨
      ∃ k request c' b, t = .send k ∧ (x.terminal k).prepare hash = (some request, c') ∧
        request.toJson.dump = some b ∧ x.sessions.running = true := by
  cases t with
  | receive k more =>
    refine .inl ⟨?_, fun _ => rfl, fun _ => ?_⟩
    · simp only [Exchange.step]
      repeat' split
      · rfl
      · rfl
      · rfl
    · simp only [Exchange.step]
      split <;> rfl
  | send k =>
    cases hprepare : (x.terminal k).prepare hash with
    | mk made c' =>
      have hnone : ((x.terminal k).send hash).1 = none →
          (x.step db hash (.send k)).2.sessions = x.sessions ∧
            (∀ j, grants db hash j x (.send k) = []) ∧
              (x.sessions.running = true → (x.step db hash (.send k)).1 = none) := by
        intro hsend
        cases hmade : (x.terminal k).send hash with
        | mk made c =>
          rw [hmade] at hsend
          obtain rfl : made = none := hsend
          simp [Exchange.step, grants, replyTo, hmade]
      cases made with
      | none => exact .inl (hnone (by simp [Terminal.send, hprepare]))
      | some request =>
        cases hdump : request.toJson.dump with
        | none => exact .inl (hnone (by simp [Terminal.send, hprepare, hdump]))
        | some b =>
          cases hrun : x.sessions.running with
          | true => exact .inr ⟨k, request, c', b, rfl, hprepare, hdump, rfl⟩
          | false =>
            refine .inl ⟨?_, fun j => ?_, fun h => by cases h⟩
            · rw [step_send hprepare hdump, Sessions.step_of_stopped db hrun]
            · by_cases hj : k = j
              · rw [← hj, grants_send hprepare hdump, Sessions.step_of_stopped db hrun]
                rfl
              · exact grants_of_ne hj

/-- The request of a client is answered by a server that has had no other clients. -/
theorem Known.answered (hdb : db.Keeps rows plain same) (h : Known rows x)
    (hthrows : ∀ table username pwHash e, plain username →
      (db.getUserId table username pwHash).1 = .error e → ∃ row ∈ rows table, 2 ^ 31 ≤ row.1.toNat)
    {k : Nat} {request : ClientRequest} {c' : Terminal}
    (hprepare : (x.terminal k).prepare hash = (some request, c'))
    (hplain : ∀ username ∈ request.command.username, plain username)
    (hcount : x.sessions.server.market.userId < 2 ^ 31) :
    Session.answered db x.sessions.server request.command = true := by
  rw [Session.answered, Bool.and_eq_true]
  constructor
  · rcases Terminal.prepare_cases hprepare with ⟨-, -, hauth⟩ | ⟨type, u, hphase, -, hasks⟩
    · rw [ClientRequest.user_of_isAuth hauth]
      rfl
    · cases hv : request.command.user with
      | none => rfl
      | some v =>
        rw [hasks.user hv]
        exact h.known k u (by rw [idOf, hphase])
  · cases hc : request.command with
    | register username pwHash =>
      rw [Session.queryOf, (hdb.exist _ username (hplain username (by rw [hc]; rfl))).1]
      rfl
    | login username pwHash =>
      cases hget : (db.getUserId x.sessions.server.db username pwHash).1 with
      | ok userId => simp only [Session.queryOf, hget]; rfl
      | error e =>
        obtain ⟨row, hrow, hlarge⟩ :=
          hthrows _ _ _ e (hplain username (by rw [hc]; rfl)) hget
        have hlt := h.tracks.id_lt row hrow
        omega
    | _ => rfl

/-- What the server makes of a text it reads as a command. -/
theorem known_execute (hdb : db.Keeps rows plain same) (h : Known rows x) (cmd : Command)
    (hplain : ∀ username ∈ cmd.username, plain username)
    (hcount : x.sessions.server.market.userId < 2 ^ 31) :
    Tracks rows (Session.execute db x.sessions.server cmd).2 [] ∧
      (∀ v, (x.sessions.server.market.users.find? v).isSome →
        ((Session.execute db x.sessions.server cmd).2.market.users.find? v).isSome) ∧
      ∀ reply u, (Session.execute db x.sessions.server cmd).1 = .ok reply →
        reportedId reply = some u →
          ((Session.execute db x.sessions.server cmd).2.market.users.find? u.toNat).isSome := by
  obtain ⟨a, hstands⟩ := h.sound.market
  have hsmall : x.sessions.server.market.userId < 2 ^ 64 := by omega
  refine ⟨h.tracks.execute hdb hstands hplain hsmall, fun v hv => ?_, fun reply u hok hu => ?_⟩
  · rw [(hstands.execute_users db cmd).2]
    exact .inl hv
  · rw [reportedId_execute db x.sessions.server hok] at hu
    refine granted_known hdb hstands h.tracks hplain hsmall ?_ hu
    intro username pwHash _ row hrow
    cases hrow

theorem Known.step (hdb : db.Keeps rows plain same) (h : Known rows x) (t : Turn)
    (ht : Ordinary plain hash x t) : Known rows (x.step db hash t).2 := by
  -- an id that is gone on with was so before, or has just been granted
  have hids : ∀ k u, (x.step db hash t).2.idOf k = some u →
      x.idOf k = some u ∨ u ∈ grants db hash k x t := by
    intro k u hu
    have hover : ((x.step db hash t).2.terminal k).phase.over = false := by
      cases hphase : ((x.step db hash t).2.terminal k).phase with
      | ended => rw [idOf, hphase] at hu; cases hu
      | asking => rw [idOf, hphase] at hu; cases hu
      | threw => rw [idOf, hphase] at hu; cases hu
      | _ => rfl
    have hlist := (idOf_step h.sound k t hover).2
    have hmem : u ∈ (x.idOf k).toList ++ grants db hash k x t := by
      rw [← hlist, hu]
      exact List.mem_singleton_self u
    exact (List.mem_append.mp hmem).imp_left Option.mem_toList.mp
  rcases sessions_step db hash x t with
    ⟨hsame, hgrants, -⟩ | ⟨k, request, c', b, rfl, hprepare, hdump, hrun⟩
  · refine ⟨h.sound.step t, by rw [hsame]; exact h.tracks, fun k u hu => ?_⟩
    rw [hsame]
    rcases hids k u hu with hbefore | hnew
    · exact h.known k u hbefore
    · rw [hgrants k] at hnew
      cases hnew
  · obtain ⟨hentered, -, -⟩ := Terminal.prepare_some hprepare
    have hplain : ∀ username ∈ request.command.username, plain username :=
      ht.1 request (by rw [Turn.client, hprepare]; rfl)
    obtain ⟨htracks, husers, hgranted⟩ := known_execute hdb h request.command hplain ht.2
    have hserver : (x.step db hash (.send k)).2.sessions =
        (x.sessions.step db (k, b.take Session.maxLength)).2 := by
      rw [step_send hprepare hdump]
    by_cases hlen : b.length < Session.maxLength
    · obtain ⟨hreply, hstep, -⟩ := Sessions.step_of_some db (k := k) hrun
        (ClientRequest.commandIn_text hentered hdump hlen)
      refine ⟨h.sound.step _, by rw [hserver, hstep]; exact htracks, fun j u hu => ?_⟩
      rw [hserver, hstep]
      rcases hids j u hu with hbefore | hnew
      · exact husers _ (h.known j u hbefore)
      · by_cases hj : k = j
        · rw [← hj, grants_send hprepare hdump, hreply] at hnew
          obtain ⟨reply, hok, hreported⟩ := Option.bind_eq_some_iff.mp (Option.mem_toList.mp hnew)
          refine hgranted reply u ?_ hreported
          cases hexec : (Session.execute db x.sessions.server request.command).1 with
          | error e => rw [hexec] at hok; cases hok
          | ok reply' => rw [hexec] at hok; exact congrArg Except.ok (Option.some.inj hok)
        · rw [grants_of_ne (t := .send k) hj] at hnew
          cases hnew
    · have hover := Sessions.step_overrun db hrun hlen k
      refine ⟨h.sound.step _, by rw [hserver, hover]; exact h.tracks, fun j u hu => ?_⟩
      rw [hserver, hover]
      rcases hids j u hu with hbefore | hnew
      · exact h.known j u hbefore
      · by_cases hj : k = j
        · rw [← hj, grants_send hprepare hdump, hover] at hnew
          cases hnew
        · rw [grants_of_ne (t := .send k) hj] at hnew
          cases hnew

/-- A turn after which the server goes on. -/
theorem running_step (hdb : db.Keeps rows plain same)
    (hthrows : ∀ table username pwHash e, plain username →
      (db.getUserId table username pwHash).1 = .error e → ∃ row ∈ rows table, 2 ^ 31 ≤ row.1.toNat)
    (h : Known rows x) (t : Turn) (ht : Ordinary plain hash x t) :
    (x.step db hash t).2.sessions.running = true ↔
      x.sessions.running = true ∧ Short db hash x t := by
  rcases sessions_step db hash x t with
    ⟨hsame, -, hnone⟩ | ⟨k, request, c', b, rfl, hprepare, hdump, hrun⟩
  · rw [hsame]
    refine ⟨fun hrun => ⟨hrun, ?_⟩, And.left⟩
    intro b hb
    rw [hnone hrun] at hb
    cases hb
  · obtain ⟨hentered, -, -⟩ := Terminal.prepare_some hprepare
    have hplain : ∀ username ∈ request.command.username, plain username :=
      ht.1 request (by rw [Turn.client, hprepare]; rfl)
    rw [and_iff_right hrun, Short, step_send hprepare hdump]
    simp only [Option.mem_def, Option.some.injEq, forall_eq']
    by_cases hlen : b.length < Session.maxLength
    · obtain ⟨-, -, hrunning⟩ := Sessions.step_of_some db (k := k) hrun
        (ClientRequest.commandIn_text hentered hdump hlen)
      obtain ⟨a, hstands⟩ := h.sound.market
      rw [hrunning, Session.execute_isOk db hstands]
      exact iff_of_true (h.answered hdb hthrows hprepare hplain ht.2) hlen
    · rw [Sessions.step_overrun db hrun hlen]
      exact iff_of_false Bool.false_ne_true hlen

instance (hash : Bytes → UInt64) (x : Exchange δ) (t : Turn) :
    Decidable (Ordinary (fun _ => True) hash x t) :=
  decidable_of_iff (x.sessions.server.market.userId < 2 ^ 31)
    ⟨fun h => ⟨fun _ _ _ _ => trivial, h⟩, And.right⟩

instance (db : Database δ) (hash : Bytes → UInt64) (x : Exchange δ) (t : Turn) :
    Decidable (Short db hash x t) :=
  inferInstanceAs (Decidable (∀ b ∈ (x.step db hash t).1, b.length < Session.maxLength))

end Exchange

end ForexMarket
