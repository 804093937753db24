import ForexMarket.Model.Process
import ForexMarket.Model.Sessions
import ForexMarket.Proofs.Bystander
import ForexMarket.Proofs.Shown

/- What the sessions of one server have to do with each other. Nothing ties the user id in
   a request to the session it comes on. What holds without that (`sessions_confined`):
   requests that do not name a user change the data of that user only by deals with the
   user's resting offers, and their replies depend on what hidden users did only through
   what is public, the offers they posted and withdrew. Names are data here: the tables
   `Offer` and `Deal`, which a login under a name with SQL in it can read, are not part of
   the server. -/
namespace ForexMarket

open Reference (Stood)

/-- The command in a read that is served. -/
def commandIn (bytes : Bytes) : Option Command :=
  if bytes.length < Session.maxLength then
    (Json.parse bytes).bind fun request => (Session.commandOf request).toOption
  else none

/-- The user a read names. -/
def namedUser (bytes : Bytes) : Option UInt64 := (commandIn bytes).bind Command.user

namespace Sessions

variable {δ : Type} (db : Database δ)

/-! What a step does does not depend on the session. -/

/-- A read without a command ends the server. -/
theorem step_of_none {s : Sessions δ} {k : Nat} {bytes : Bytes} (h : commandIn bytes = none) :
    (s.step db (k, bytes)).1 = none ∧ (s.step db (k, bytes)).2.server = s.server ∧
      (s.step db (k, bytes)).2.running = false := by
  simp only [step]
  cases hrun : s.running with
  | false => exact ⟨rfl, rfl, hrun⟩
  | true =>
    simp only [if_true, Session.handleRead, Json.parse_nul]
    by_cases hlen : bytes.length < Session.maxLength
    · rw [if_pos hlen]
      rw [commandIn, if_pos hlen] at h
      cases hparse : Json.parse bytes with
      | none => exact ⟨rfl, rfl, rfl⟩
      | some request =>
        rw [hparse, Option.bind_some] at h
        cases hc : Session.commandOf request with
        | error e =>
          simp only [Session.serve_eq, hc, Session.attempt_error]
          trivial
        | ok c => rw [hc] at h; cases h
    · rw [if_neg hlen]
      exact ⟨rfl, rfl, rfl⟩

/-- A read with a command is executed. -/
theorem step_of_some {s : Sessions δ} {k : Nat} {bytes : Bytes} {c : Command}
    (hrun : s.running = true) (h : commandIn bytes = some c) :
    (s.step db (k, bytes)).1 = (Session.execute db s.server c).1.toOption ∧
      (s.step db (k, bytes)).2.server = (Session.execute db s.server c).2 ∧
      (s.step db (k, bytes)).2.running = (Session.execute db s.server c).1.isOk := by
  rw [commandIn] at h
  split at h
  · next hlen =>
    obtain ⟨request, hparse, hc⟩ := Option.bind_eq_some_iff.mp h
    have hok : Session.commandOf request = .ok c := by
      cases hcmd : Session.commandOf request with
      | error e => rw [hcmd] at hc; cases hc
      | ok c' => rw [hcmd] at hc; exact congrArg Except.ok (Option.some.inj hc)
    simp only [step, if_pos hrun, Session.handleRead, if_pos hlen, Json.parse_nul, hparse,
      Session.serve_eq, hok, Session.attempt_ok]
    cases hexec : Session.execute db s.server c with
    | mk result server =>
      cases result with
      | ok reply => exact ⟨rfl, rfl, hrun⟩
      | error e => exact ⟨rfl, rfl, rfl⟩
  · cases h

theorem step_of_stopped {s : Sessions δ} (hrun : s.running = false) (read : Nat × Bytes) :
    s.step db read = (none, s) := by
  simp [step, hrun]

/-- What a read does is the same on every session. -/
theorem step_session (s : Sessions δ) (k k' : Nat) (bytes : Bytes) :
    (s.step db (k, bytes)).1 = (s.step db (k', bytes)).1 ∧
      (s.step db (k, bytes)).2.server = (s.step db (k', bytes)).2.server ∧
      (s.step db (k, bytes)).2.running = (s.step db (k', bytes)).2.running := by
  cases h : commandIn bytes with
  | none =>
    obtain ⟨hreply, hserver, hrunning⟩ := step_of_none db (s := s) (k := k) h
    obtain ⟨hreply', hserver', hrunning'⟩ := step_of_none db (s := s) (k := k') h
    exact ⟨hreply.trans hreply'.symm, hserver.trans hserver'.symm, hrunning.trans hrunning'.symm⟩
  | some c =>
    cases hrun : s.running with
    | false =>
      rw [step_of_stopped db hrun, step_of_stopped db hrun]
      exact ⟨rfl, rfl, rfl⟩
    | true =>
      obtain ⟨hreply, hserver, hrunning⟩ := step_of_some db (k := k) hrun h
      obtain ⟨hreply', hserver', hrunning'⟩ := step_of_some db (k := k') hrun h
      exact ⟨hreply.trans hreply'.symm, hserver.trans hserver'.symm,
        hrunning.trans hrunning'.symm⟩

/-! A user who stands by. -/

/-- A step makes at most one call of the market, which names whom the read names. -/
theorem step_market (s : Sessions δ) (read : Nat × Bytes) :
    (s.step db read).2.server.market = s.server.market ∨
      ∃ op, (s.step db read).2.server.market = (s.server.market.step op).2 ∧
        op.user = (namedUser read.2).map UInt64.toNat := by
  cases hc : commandIn read.2 with
  | none => exact .inl (congrArg Server.market (step_of_none db hc).2.1)
  | some c =>
    cases hrun : s.running with
    | false =>
      rw [step_of_stopped db hrun]
      exact .inl rfl
    | true =>
      have hserver := (step_of_some db (k := read.1) hrun hc).2.1
      rw [hserver, Session.execute_market]
      cases hop : c.call (db.usernameExist s.server.db) with
      | none => exact .inl rfl
      | some op =>
        refine .inr ⟨op, rfl, ?_⟩
        rw [Command.call_user hop, namedUser, hc]
        rfl

/-- Reads that do not name a user, by induction on them. -/
theorem exec_stood {u : Nat} {reads : List (Nat × Bytes)}
    (hreads : ∀ read ∈ reads, ∀ v, namedUser read.2 = some v → v.toNat ≠ u) {s : Sessions δ}
    {a : Reference} (h : Stands s.server.market a) (hu : (a.accounts u).isSome) :
    ∃ a' ts, Stands (Machine.exec (step db) s reads).server.market a' ∧ Stood u a a' ts ∧
      s.server.market.NamesKept (Machine.exec (step db) s reads).server.market := by
  induction reads generalizing s a with
  | nil => exact ⟨a, [], h, .refl u a, .of_users rfl⟩
  | cons read reads ih =>
    have hrest := fun r hr => hreads r (List.mem_cons_of_mem read hr)
    have hone : ∃ a' ts, Stands (s.step db read).2.server.market a' ∧ Stood u a a' ts ∧
        s.server.market.NamesKept (s.step db read).2.server.market := by
      rcases step_market db s read with hsame | ⟨op, hmarket, hop⟩
      · rw [hsame]
        exact ⟨a, [], h, .refl u a, .of_users rfl⟩
      · have hne : op.user ≠ some u := by
          rw [hop]
          intro e
          obtain ⟨v, hv, hvu⟩ := Option.map_eq_some_iff.mp e
          exact hreads read List.mem_cons_self v hv hvu
        obtain ⟨ts, hst⟩ := Stood.move (h.moves op) h.wf hu hne
        rw [hmarket]
        exact ⟨_, ts, h.step op, hst, h.inv.namesKept op⟩
    obtain ⟨a', ts, h', hst, hnames⟩ := hone
    have hu' : (a'.accounts u).isSome := by
      rw [hst.account, Option.isSome_map]
      exact hu
    obtain ⟨a'', ts', h'', hst', hnames'⟩ := ih hrest h' hu'
    exact ⟨a'', ts ++ ts', h'', hst.trans hst', hnames.trans hnames'⟩

/-! What requests show. -/

/-- Whether a read names a hidden user. -/
def fromHidden (hidden : Nat → Bool) (bytes : Bytes) : Bool :=
  (namedUser bytes).any fun u => hidden u.toNat

/-- What is public of a read: all of it, when it names no hidden user, and otherwise what is
noticed of its command. -/
def event (hidden : Nat → Bool) (s : Sessions δ) (read : Nat × Bytes) : Option PublicEvent :=
  if fromHidden hidden read.2 then
    if s.running then
      (commandIn read.2).bind fun c => c.user.bind fun u => c.noticed s.server.market u
    else none
  else some (.request read.1 read.2)

/-- The replies to reads that name no hidden user, each with its session. -/
def observed (hidden : Nat → Bool) (s : Sessions δ) (read : Nat × Bytes) :
    List (Nat × Option Bytes) :=
  if fromHidden hidden read.2 then [] else [(read.1, (s.step db read).1)]

/-- The sessions show the same. -/
def Alikes (hidden : Nat → Bool) (s t : Sessions δ) : Prop :=
  s.running = t.running ∧
    (s.running = true → ∃ a b, s.server.Alikes hidden t.server a b)

theorem Alikes.symm {hidden : Nat → Bool} {s t : Sessions δ} (h : Alikes hidden s t) :
    Alikes hidden t s := by
  refine ⟨h.1.symm, fun hrun => ?_⟩
  obtain ⟨a, b, hserver⟩ := h.2 (h.1.trans hrun)
  exact ⟨b, a, hserver.symm⟩

section Steps

variable {hidden : Nat → Bool} {s t : Sessions δ} {read : Nat × Bytes}

/-- A read that names a hidden user. -/
theorem of_fromHidden {bytes : Bytes} (h : fromHidden hidden bytes = true) :
    ∃ c u, commandIn bytes = some c ∧ c.user = some u ∧ hidden u.toNat = true := by
  obtain ⟨u, hu, hh⟩ := (Option.any_eq_true _ _).mp h
  obtain ⟨c, hc, hcu⟩ := Option.bind_eq_some_iff.mp hu
  exact ⟨c, u, hc, hcu, hh⟩

/-- What is public of a read that names a hidden user. -/
theorem event_of_hidden {c : Command} {u : UInt64} (hc : commandIn read.2 = some c)
    (hu : c.user = some u) (hh : hidden u.toNat = true) :
    event hidden s read = if s.running then c.noticed s.server.market u else none := by
  have hfrom : fromHidden hidden read.2 = true := by
    simp [fromHidden, namedUser, hc, hu, hh]
  simp only [event, hfrom, if_true, hc, Option.bind_some, hu]

/-- A step without a public event. -/
theorem Alikes.silent (h : Alikes hidden s t) (hnone : event hidden s read = none) :
    Alikes hidden (s.step db read).2 t ∧ observed db hidden s read = [] := by
  cases hfrom : fromHidden hidden read.2 with
  | false => simp [event, hfrom] at hnone
  | true =>
    refine ⟨?_, by rw [observed, if_pos hfrom]⟩
    obtain ⟨c, u, hc, hu, hh⟩ := of_fromHidden hfrom
    rw [event_of_hidden hc hu hh] at hnone
    cases hrun : s.running with
    | false =>
      rw [step_of_stopped db hrun]
      exact h
    | true =>
      rw [if_pos hrun] at hnone
      obtain ⟨a, b, hserver⟩ := h.2 hrun
      obtain ⟨-, hleft, hrunning⟩ := step_of_some db (k := read.1) hrun hc
      obtain ⟨hok, halike⟩ := hserver.silent db hu hnone
      refine ⟨(hrunning.trans hok).trans (hrun.symm.trans h.1), fun _ => ⟨a, b, ?_⟩⟩
      rw [hleft]
      exact halike

/-- The same read that names no hidden user. -/
theorem Alikes.request (h : Alikes hidden s t) (hfrom : fromHidden hidden read.2 = false) :
    Alikes hidden (s.step db read).2 (t.step db read).2 ∧
      (s.step db read).1 = (t.step db read).1 := by
  cases hrun : s.running with
  | false =>
    rw [step_of_stopped db hrun, step_of_stopped db (h.1.symm.trans hrun)]
    exact ⟨h, rfl⟩
  | true =>
    cases hc : commandIn read.2 with
    | none =>
      obtain ⟨hreply, -, hrunning⟩ := step_of_none db (s := s) (k := read.1) hc
      obtain ⟨hreply', -, hrunning'⟩ := step_of_none db (s := t) (k := read.1) hc
      refine ⟨⟨hrunning.trans hrunning'.symm, fun hrun' => ?_⟩, hreply.trans hreply'.symm⟩
      rw [hrunning] at hrun'
      cases hrun'
    | some c =>
      have hshown : ∀ u ∈ c.user, hidden u.toNat = false := by
        intro u hu
        simpa [fromHidden, namedUser, hc, Option.mem_def.mp hu] using hfrom
      obtain ⟨a, b, hserver⟩ := h.2 hrun
      obtain ⟨hreply, hserv, hrunning⟩ := step_of_some db (k := read.1) hrun hc
      obtain ⟨hreply', hserv', hrunning'⟩ :=
        step_of_some db (k := read.1) (h.1.symm.trans hrun) hc
      have heq := hserver.reply_eq db hshown
      obtain ⟨a', b', halike⟩ := hserver.execute db hshown
      refine ⟨⟨?_, fun _ => ⟨a', b', ?_⟩⟩, ?_⟩
      · rw [hrunning, hrunning', heq]
      · rw [hserv, hserv']
        exact halike
      · rw [hreply, hreply', heq]

/-- What is public of a read that names a hidden user is not the read. -/
theorem event_ne_request (hfrom : fromHidden hidden read.2 = true) (k : Nat) (bytes : Bytes) :
    event hidden s read ≠ some (.request k bytes) := by
  intro he
  obtain ⟨c, u, hc, hu, hh⟩ := of_fromHidden hfrom
  rw [event_of_hidden hc hu hh] at he
  split at he
  · rcases Command.of_noticed_some hu he with
      ⟨-, h⟩ | ⟨-, ⟨type, price, amount, -, h⟩ | ⟨i, -, -, h⟩⟩
    · cases h
    · cases h
    · cases h
  · cases he

/-- Reads of which the same is public. -/
theorem Alikes.public {read' : Nat × Bytes} {e : PublicEvent} (h : Alikes hidden s t)
    (he : event hidden s read = some e) (he' : event hidden t read' = some e) :
    Alikes hidden (s.step db read).2 (t.step db read').2 ∧
      observed db hidden s read = observed db hidden t read' := by
  cases hfrom : fromHidden hidden read.2 with
  | false =>
    rw [event, hfrom, if_neg Bool.false_ne_true] at he
    obtain rfl := Option.some.inj he
    cases hfrom' : fromHidden hidden read'.2 with
    | true => exact absurd he' (event_ne_request hfrom' _ _)
    | false =>
      -- both are one read
      rw [event, hfrom', if_neg Bool.false_ne_true] at he'
      obtain ⟨hk, hbytes⟩ := PublicEvent.request.inj (Option.some.inj he')
      obtain rfl : read' = read := Prod.ext hk hbytes
      obtain ⟨halike, hreply⟩ := h.request db hfrom
      refine ⟨halike, ?_⟩
      rw [observed, observed, hreply]
  | true =>
    cases hfrom' : fromHidden hidden read'.2 with
    | false =>
      rw [event, hfrom', if_neg Bool.false_ne_true] at he'
      obtain rfl := Option.some.inj he'
      exact absurd he (event_ne_request hfrom _ _)
    | true =>
      refine ⟨?_, by rw [observed, observed, if_pos hfrom, if_pos hfrom']⟩
      obtain ⟨c, u, hc, hu, hh⟩ := of_fromHidden hfrom
      obtain ⟨c', u', hc', hu', hh'⟩ := of_fromHidden hfrom'
      rw [event_of_hidden hc hu hh] at he
      rw [event_of_hidden hc' hu' hh'] at he'
      cases hrun : s.running with
      | false => simp [hrun] at he
      | true =>
        have hrun' := h.1.symm.trans hrun
        rw [if_pos hrun] at he
        rw [if_pos hrun'] at he'
        obtain ⟨a, b, hserver⟩ := h.2 hrun
        obtain ⟨-, hserv, hrunning⟩ := step_of_some db (k := read.1) hrun hc
        obtain ⟨-, hserv', hrunning'⟩ := step_of_some db (k := read'.1) hrun' hc'
        obtain ⟨hok, halike⟩ := hserver.event db hu hu' hh hh' he he'
        refine ⟨(hrunning.trans hok).trans hrunning'.symm, fun hafter => ?_⟩
        rw [hserv, hserv']
        exact halike (hrunning.symm.trans hafter)

end Steps

/-! Authentication. -/

/-- A reply on the session has reported the id. -/
def authenticated (h : List ((Nat × Bytes) × Option Bytes)) (k : Nat) (u : UInt64) : Bool :=
  h.any fun e => e.1.1 = k && decide (e.2.bind reportedId = some u)

/-- A request that names a user is only replied to on a session that was told the id. -/
def AuthEnforced (s : Sessions δ) (reads : List (Nat × Bytes)) : Prop :=
  ∀ pre k bytes u, pre ++ [(k, bytes)] <+: reads → namedUser bytes = some u →
    ((Machine.exec (step db) s pre).step db (k, bytes)).1.isSome →
      authenticated (Machine.history (step db) s pre) k u

/-- A registration, and a request for the balance of the new user. -/
def registerRead : Bytes := ((ClientRequest.register (text "user") 1).document rfl).bytes

def balanceRead : Bytes := ((ClientRequest.idOnly requests.balance 0).document rfl).bytes

/-- A server that has just started. -/
def start (offerId dealId userId : Nat) (table : δ) (data : Nat → Bytes) : Sessions δ :=
  { server := { market := Market.empty offerId dealId userId, db := table }, data := data,
    running := true }

/-- A user registers on session 0, and session 1 is told the user's balance. -/
theorem foreign_not_enforced :
    ¬ AuthEnforced userTable (start 0 0 0 [] fun _ => [])
      [(0, registerRead), (1, balanceRead)] := by
  intro h
  have hauth := h [(0, registerRead)] 1 balanceRead 0 (List.prefix_refl _) (by decide +kernel)
    (by decide +kernel)
  exact absurd hauth (by decide +kernel)

/-! What holds instead. -/

/-- What the sessions of a server have to do with the users that requests name. -/
structure Confined (s : Sessions δ) : Prop where
  /-- On which session a read completes does not matter. -/
  any_session : ∀ k k' bytes, (s.step db (k, bytes)).1 = (s.step db (k', bytes)).1 ∧
    (s.step db (k, bytes)).2.server = (s.step db (k', bytes)).2.server ∧
    (s.step db (k, bytes)).2.running = (s.step db (k', bytes)).2.running
  /-- A request that names a user is executed whenever the user is registered. -/
  any_user : s.running = true → ∀ k bytes u, namedUser bytes = some u →
    ((s.step db (k, bytes)).1.isSome ↔ (s.server.market.users.find? u.toNat).isSome)
  /-- Reads that do not name a user change the data of the user by deals with the user's offers,
  and in no other way. -/
  bystander : ∀ u d, s.server.market.users.find? u = some d → ∀ reads : List (Nat × Bytes),
    (∀ read ∈ reads, ∀ v, namedUser read.2 = some v → v.toNat ≠ u) →
      ∃ d' new, (Machine.exec (step db) s reads).server.market.users.find? u = some d' ∧
        s.server.market.StoodBy u (Machine.exec (step db) s reads).server.market d d' new
  /-- The replies to reads that name no hidden user are the same in any two runs with the same
  public events, from markets that show the same. -/
  unobserved : ∀ (hidden : Nat → Bool) (t : Sessions δ), t.server.market.Reachable →
    s.server.market.Alike hidden t.server.market → s.server.db = t.server.db →
    s.running = t.running → ∀ reads reads' : List (Nat × Bytes),
      Machine.trace (step db) (event hidden) s reads =
        Machine.trace (step db) (event hidden) t reads' →
      Machine.gather (step db) (observed db hidden) s reads =
        Machine.gather (step db) (observed db hidden) t reads'

theorem confined {s : Sessions δ} (hs : s.server.market.Reachable) : s.Confined db where
  any_session := step_session db s
  any_user := by
    intro hrun k bytes u hu
    obtain ⟨c, hc, hcu⟩ := Option.bind_eq_some_iff.mp hu
    obtain ⟨a, h⟩ := hs.stands
    have hok := Session.execute_isOk db h c
    rw [Session.answered_of_user hcu] at hok
    rw [(step_of_some db hrun hc).1, ← hok]
    cases (Session.execute db s.server c).1 <;> simp [Except.isOk, Except.toBool, Except.toOption]
  bystander := by
    intro u d hd reads hreads
    obtain ⟨a, h⟩ := hs.stands
    have hu := (h.registered_iff u).mp ⟨d, hd⟩
    obtain ⟨a', ts, h', hst, hnames⟩ := exec_stood db hreads h hu
    exact h.stoodBy h' hst hnames hd
  unobserved := by
    intro hidden t ht hshown hdb hrun reads reads' htrace
    obtain ⟨a, ha⟩ := hs.stands
    obtain ⟨b, hb⟩ := ht.stands
    have h : Alikes hidden s t := ⟨hrun, fun _ => ⟨a, b, ha, hb, hshown.reference ha hb, hdb⟩⟩
    refine Machine.gather_eq_of_unwinding (R := Alikes hidden) (fun _ _ h => h.symm) ?_ ?_ h htrace
    · exact fun _ _ _ h hnone => h.silent db hnone
    · exact fun _ _ _ _ _ h he he' => h.public db he he'

theorem reachable_step {s : Sessions δ} (read : Nat × Bytes) (hs : s.server.market.Reachable) :
    (s.step db read).2.server.market.Reachable := by
  rcases step_market db s read with hsame | ⟨op, hmarket, -⟩
  · rw [hsame]
    exact hs
  · rw [hmarket]
    exact hs.step op

/-- In every interleaving of requests a request is executed for whatever user it names, on whatever
session; but requests that do not name a user change nothing of the user, and their replies show
nothing of the user, other than through public matching and quotes. -/
theorem sessions_confined (offerId dealId userId : Nat) (table : δ) (data : Nat → Bytes)
    (reads : List (Nat × Bytes)) :
    (Machine.exec (step db) (start offerId dealId userId table data) reads).Confined db := by
  apply confined
  apply Machine.exec_inv (I := fun s : Sessions δ => s.server.market.Reachable)
  · exact fun s read hs => reachable_step db read hs
  · exact ⟨offerId, dealId, userId, [], rfl⟩

end Sessions

end ForexMarket
