import ForexMarket.Model.Connections
import ForexMarket.Theorems.Serving

/- The sessions as objects. Between two handlers every session that is not deleted waits
   for exactly one operation (`Sound`), so the handler that deletes its session is the last
   one called on it, and no handler comes to a session that is gone. On one session the
   handlers are called in the order of the protocol. The program ends with a signal, with
   a message that is not accepted, or when the last session there is has failed. -/
namespace ForexMarket

namespace Connections

variable {δ : Type} {c : Connections δ}

/-- An accept is to complete. -/
def Listening (c : Connections δ) : Prop := ∃ k, (Handler.handleAccept, k) ∈ c.pending

/-- The server will accept one more connection. -/
def Accepting (c : Connections δ) : Prop := c.sessions.running = true ∧ c.Listening

/-- Between two handlers. -/
structure Sound (c : Connections δ) : Prop where
  /-- No handler has come to a session that was deleted, and none was deleted twice. -/
  safe : c.dangling = false
  /-- No two operations are started on one session. -/
  distinct : (c.pending.map Prod.snd).Nodup
  /-- An operation that is to complete keeps its session. -/
  alive : ∀ p ∈ c.pending, p.2 ∈ c.objects
  /-- While the server runs no session is left without an operation. -/
  awaited : c.sessions.running = true → ∀ k ∈ c.objects, ∃ h, (h, k) ∈ c.pending
  old : ∀ k ∈ c.objects, k < c.made
  nodup : c.objects.Nodup
  /-- One connection is accepted at a time. -/
  solitary : ∀ k k', (Handler.handleAccept, k) ∈ c.pending →
    (Handler.handleAccept, k') ∈ c.pending → k = k'

/-- In a handler of a session, before it starts an operation or deletes the session. -/
structure Called (c : Connections δ) (k : Nat) : Prop where
  safe : c.dangling = false
  distinct : (c.pending.map Prod.snd).Nodup
  alive : ∀ p ∈ c.pending, p.2 ∈ c.objects
  awaited : c.sessions.running = true → ∀ l ∈ c.objects, l ≠ k → ∃ h, (h, l) ∈ c.pending
  old : ∀ l ∈ c.objects, l < c.made
  nodup : c.objects.Nodup
  solitary : ∀ l l', (Handler.handleAccept, l) ∈ c.pending →
    (Handler.handleAccept, l') ∈ c.pending → l = l'
  self : k ∈ c.objects
  /-- Its own operation is complete. -/
  free : ∀ p ∈ c.pending, p.2 ≠ k

/-! What a handler finds and leaves. -/

theorem ne_of_mem_erase {l : List (Handler × Nat)} (hl : (l.map Prod.snd).Nodup)
    {p q : Handler × Nat} (hp : p ∈ l) (hq : q ∈ l.erase p) : q.2 ≠ p.2 := by
  intro heq
  have hpair : l.Nodup := hl.of_map
  obtain ⟨hne, hmem⟩ := (hpair.mem_erase_iff).mp hq
  exact hne (List.inj_on_of_nodup_map hl hmem hp heq)

/-- The handler of an operation that was started is called on a session that is there. -/
theorem Sound.called (hc : c.Sound) {h : Handler} {k : Nat} (hp : (h, k) ∈ c.pending) :
    Called { c with pending := c.pending.erase (h, k) } k where
  safe := hc.safe
  distinct := hc.distinct.sublist ((List.erase_sublist).map _)
  alive := fun q hq => hc.alive q (List.mem_of_mem_erase hq)
  awaited := by
    intro hrun l hl hne
    obtain ⟨h', hmem⟩ := hc.awaited hrun l hl
    have hother : (h', l) ≠ (h, k) := fun heq => hne (Prod.mk.inj heq).2
    exact ⟨h', (List.mem_erase_of_ne hother).mpr hmem⟩
  old := hc.old
  nodup := hc.nodup
  solitary := fun l l' hl hl' =>
    hc.solitary l l' (List.mem_of_mem_erase hl) (List.mem_of_mem_erase hl')
  self := hc.alive (h, k) hp
  free := fun q hq => ne_of_mem_erase hc.distinct hp hq

/-- The accept that completed was the only one. -/
theorem Sound.not_listening (hc : c.Sound) {k : Nat} (hp : (.handleAccept, k) ∈ c.pending) :
    ¬ Listening { c with pending := c.pending.erase (.handleAccept, k) } := by
  intro h
  obtain ⟨k', hk'⟩ := h
  have hsame := hc.solitary k' k (List.mem_of_mem_erase hk') hp
  exact (hc.called hp).free _ hk' hsame

variable {k : Nat}

theorem use_of_mem (h : k ∈ c.objects) : c.use k = c := by
  simp [use, h]

/-- A session that deletes itself leaves nothing behind. -/
theorem Called.delete (hc : c.Called k) : (c.delete k).Sound where
  safe := by simp [Connections.delete, use_of_mem hc.self, hc.safe]
  distinct := hc.distinct
  alive := by
    intro p hp
    exact (List.mem_erase_of_ne (hc.free p hp)).mpr (hc.alive p hp)
  awaited := by
    intro hrun l hl
    obtain ⟨hne, hmem⟩ := hc.nodup.mem_erase_iff.mp hl
    exact hc.awaited hrun l hmem hne
  old := fun l hl => hc.old l (List.mem_of_mem_erase hl)
  nodup := hc.nodup.erase k
  solitary := hc.solitary

/-- A session that starts its next operation waits for it. -/
theorem Called.async (hc : c.Called k) {h : Handler} (hh : h ≠ .handleAccept) :
    ((c.use k).async h k).Sound := by
  rw [use_of_mem hc.self]
  exact {
    safe := hc.safe
    distinct := by
      refine List.nodup_cons.mpr ⟨fun hmem => ?_, hc.distinct⟩
      obtain ⟨p, hp, heq⟩ := List.mem_map.mp hmem
      exact hc.free p hp heq
    alive := List.forall_mem_cons.mpr ⟨hc.self, hc.alive⟩
    awaited := by
      intro hrun l hl
      by_cases hlk : l = k
      · exact ⟨h, hlk ▸ List.mem_cons_self ..⟩
      · obtain ⟨h', hmem⟩ := hc.awaited hrun l hl hlk
        exact ⟨h', List.mem_cons_of_mem _ hmem⟩
    old := hc.old
    nodup := hc.nodup
    solitary := by
      intro l l' hl hl'
      have hold : ∀ i, (Handler.handleAccept, i) ∈ (c.async h k).pending →
          (Handler.handleAccept, i) ∈ c.pending := by
        intro i hi
        refine (List.mem_cons.mp hi).resolve_left fun heq => hh (Prod.mk.inj heq).1.symm
      exact hc.solitary l l' (hold l hl) (hold l' hl') }

/-- The next session is made when none waits to be accepted. -/
theorem Sound.accept (hc : c.Sound) (hno : ¬ c.Listening) : c.accept.Sound where
  safe := hc.safe
  distinct := by
    refine List.nodup_cons.mpr ⟨fun hmem => ?_, hc.distinct⟩
    obtain ⟨p, hp, heq⟩ := List.mem_map.mp hmem
    exact absurd (hc.old p.2 (hc.alive p hp)) (by rw [heq]; omega)
  alive := by
    refine List.forall_mem_cons.mpr ⟨List.mem_cons_self .., fun p hp => ?_⟩
    exact List.mem_cons_of_mem _ (hc.alive p hp)
  awaited := by
    intro hrun l hl
    rcases List.mem_cons.mp hl with rfl | hl
    · exact ⟨.handleAccept, List.mem_cons_self ..⟩
    · obtain ⟨h, hmem⟩ := hc.awaited hrun l hl
      exact ⟨h, List.mem_cons_of_mem _ hmem⟩
  old := by
    refine List.forall_mem_cons.mpr ⟨Nat.lt_succ_self _, fun l hl => ?_⟩
    exact Nat.lt_succ_of_lt (hc.old l hl)
  nodup := List.nodup_cons.mpr ⟨fun h => absurd (hc.old _ h) (Nat.lt_irrefl _), hc.nodup⟩
  solitary := by
    have hnew : ∀ i, (Handler.handleAccept, i) ∈ c.accept.pending → i = c.made := by
      intro i hi
      rcases List.mem_cons.mp hi with heq | hmem
      · exact (Prod.mk.inj heq).2
      · exact absurd ⟨i, hmem⟩ hno
    intro l l' hl hl'
    rw [hnew l hl, hnew l' hl']

theorem sound_listen (server : Server δ) (data : Nat → Bytes) : (listen server data).Sound := by
  apply Sound.accept
  · constructor <;> simp
  · intro h
    obtain ⟨k, hk⟩ := h
    cases hk

/-! One turn. -/

variable {db : Database δ}

/-- Only an operation that was started completes. -/
theorem mem_of_takesPlace {e : Completion} (h : c.takesPlace e = true) {p : Handler × Nat}
    (he : e.call = some p) : p ∈ c.pending := by
  rw [takesPlace, he] at h
  simpa using (Bool.and_eq_true_iff.mp (Bool.and_eq_true_iff.mp h).1).2

theorem running_of_takesPlace {e : Completion} (h : c.takesPlace e = true) :
    c.sessions.running = true :=
  (Bool.and_eq_true_iff.mp (Bool.and_eq_true_iff.mp h).1).1

theorem due_of_takesPlace {e : Completion} (h : c.takesPlace e = true) : c.due e = true :=
  (Bool.and_eq_true_iff.mp h).2

/-- The signal is not waited for. -/
theorem takesPlace_interrupt (hrun : c.sessions.running = true) :
    c.takesPlace .interrupt = true := by
  simp [takesPlace, hrun, Completion.call, due]

/-- A read that is not answered ends the server. -/
theorem stopped_of_no_reply (db : Database δ) {s : Sessions δ} (hrun : s.running = true)
    {read : Nat × Bytes} (h : (s.step db read).1 = none) : (s.step db read).2.running = false := by
  rw [Sessions.step, if_pos hrun] at h ⊢
  split at h
  · cases h
  · rfl
  · rfl
  · rfl

theorem Called.handleRead (hc : c.Called k) (hrun : c.sessions.running = true) (taken : Nat)
    (bytes : Option Bytes) : (c.handleRead db k taken bytes).2.Sound := by
  cases bytes with
  | none => exact hc.delete
  | some bytes =>
    simp only [Connections.handleRead]
    cases hreply : (c.sessions.step db (k, bytes)).1 with
    | some reply =>
      have hcalled : Called { c with
          sessions := (c.sessions.step db (k, bytes)).2
          unsent := Function.update c.unsent k (reply.length - taken) } k :=
        { hc with
          awaited := fun _ => hc.awaited hrun }
      exact hcalled.async (by decide)
    | none =>
      have hstop := stopped_of_no_reply db hrun hreply
      rw [use_of_mem hc.self]
      exact { hc with
        awaited := fun h => absurd (hstop.symm.trans h) Bool.false_ne_true }

/-- Each of the three handlers deletes its session when it is told of an error. -/
theorem handle_of_error (db : Database δ) (c : Connections δ) {e : Completion} {h : Handler}
    (he : e.call = some (h, k)) (herror : e.error = true) :
    c.handle db e = (none, delete { c with pending := c.pending.erase (h, k) } k) := by
  cases e with
  | accept l error =>
    obtain ⟨rfl, rfl⟩ := Prod.mk.inj (Option.some.inj he)
    obtain rfl : error = true := herror
    rfl
  | read l bytes taken =>
    obtain ⟨rfl, rfl⟩ := Prod.mk.inj (Option.some.inj he)
    cases bytes with
    | none => rfl
    | some bytes => cases herror
  | write l error =>
    obtain ⟨rfl, rfl⟩ := Prod.mk.inj (Option.some.inj he)
    obtain rfl : error = true := herror
    rfl
  | send _ _ | interrupt => cases he

/-- Errors are told to handlers. -/
theorem call_of_error {e : Completion} (herror : e.error = true) : ∃ h k, e.call = some (h, k) := by
  cases e with
  | send _ _ | interrupt => cases herror
  | _ => exact ⟨_, _, rfl⟩

theorem sound_handle {c : Connections δ} {e : Completion} (hc : c.Sound)
    (hplace : c.takesPlace e = true) : (c.handle db e).2.Sound := by
  by_cases herror : e.error = true
  · obtain ⟨h, k, he⟩ := call_of_error herror
    rw [handle_of_error db c he herror]
    exact (hc.called (mem_of_takesPlace hplace he)).delete
  rw [Bool.not_eq_true] at herror
  cases e with
  | accept k error =>
    obtain rfl : error = false := herror
    have hp := mem_of_takesPlace hplace rfl
    refine ((hc.called hp).async (by decide)).accept fun h => ?_
    obtain ⟨l, hl⟩ := h
    rw [use_of_mem (hc.called hp).self] at hl
    have hmem := (List.mem_cons.mp hl).resolve_left fun heq => by cases heq
    exact hc.not_listening hp ⟨l, hmem⟩
  | read k bytes taken =>
    have hp := mem_of_takesPlace hplace rfl
    have hrun : c.sessions.running = true := running_of_takesPlace hplace
    exact (hc.called hp).handleRead hrun taken bytes
  | send k bytes => exact { hc with }
  | write k error =>
    obtain rfl : error = false := herror
    exact (hc.called (mem_of_takesPlace hplace rfl)).async (by decide)
  | interrupt =>
    exact { hc with awaited := fun h => by cases h }

theorem Sound.proceed (hc : c.Sound) : c.proceed.Sound :=
  { hc with
    awaited := fun h => hc.awaited (Bool.and_eq_true_iff.mp h).1 }

theorem sound_step {c : Connections δ} (e : Completion) (hc : c.Sound) :
    (c.step db e).2.Sound := by
  rw [step]
  by_cases hplace : c.takesPlace e = true
  · rw [if_pos hplace]
    exact (sound_handle hc hplace).proceed
  · rw [if_neg hplace]
    exact hc

/-- In every run of the server, whatever completes, in any order and with any errors: no handler
comes to a session that was deleted and none is deleted twice, never two operations are started on
one session, and while the server runs each session waits for exactly one. -/
theorem sound_exec (db : Database δ) (server : Server δ) (data : Nat → Bytes)
    (es : List Completion) : (Machine.exec (step db) (listen server data) es).Sound :=
  Machine.exec_inv (fun _ e h => sound_step e h) (sound_listen server data) es

/-! What ends the server. -/

/-- The sessions of `listen`. -/
def fresh (server : Server δ) (data : Nat → Bytes) : Sessions δ :=
  { server := server, data := data, running := true }

/-- A handler that is called is, for the sessions, the read that is handed to one of them. -/
theorem handle_sessions (db : Database δ) (c : Connections δ) {e : Completion}
    (he : e ≠ .interrupt) :
    (c.handle db e).2.sessions = Machine.exec (Sessions.step db) c.sessions e.reads := by
  cases e with
  | accept k error => cases error <;> rfl
  | send k bytes => rfl
  | write k error => cases error <;> rfl
  | read k bytes taken =>
    cases bytes with
    | none => rfl
    | some bytes =>
      simp only [handle, handleRead]
      cases hreply : (c.sessions.step db (k, bytes)).1 <;> rfl
  | interrupt => exact absurd rfl he

/-- Nothing takes place when the server has stopped. -/
theorem takesPlace_of_stopped (h : c.sessions.running = false) (e : Completion) :
    c.takesPlace e = false := by
  simp [takesPlace, h]

theorem step_of_stopped (h : c.sessions.running = false) (e : Completion) :
    c.step db e = (none, c) := by
  simp [step, takesPlace_of_stopped h]

theorem exec_of_stopped (h : c.sessions.running = false) (es : List Completion) :
    Machine.exec (step db) c es = c := by
  induction es with
  | nil => rfl
  | cons e es ih => rw [Machine.exec_cons, step_of_stopped h, ih]

/-- A handler after which no signal and no exception ends the program. -/
theorem running_handle (db : Database δ) (hrun : c.sessions.running = true)
    (hs : c.sessions.server.market.Reachable) (e : Completion) :
    (c.handle db e).2.sessions.running = true ↔
      e ≠ .interrupt ∧
        Machine.Along (Sessions.step db) (fun s read => Session.Accepts db s.server read.2)
          c.sessions e.reads := by
  by_cases he : e = .interrupt
  · rw [he]
    simp [handle]
  · rw [handle_sessions db c he, and_iff_right he]
    cases e with
    | read k bytes taken =>
      cases bytes with
      | none => exact iff_of_true hrun trivial
      | some bytes =>
        have hsurvives := @Sessions.survives_iff _ db _ hrun hs (k, bytes)
        refine ⟨fun h => ⟨hsurvives.mp ⟨?_, h⟩, trivial⟩, fun h => (hsurvives.mpr h.1).2⟩
        cases hreply : (c.sessions.step db (k, bytes)).1 with
        | some reply => exact ⟨reply, rfl⟩
        | none =>
          have hstop := stopped_of_no_reply db hrun hreply
          exact absurd (hstop.symm.trans h) Bool.false_ne_true
    | _ => exact iff_of_true hrun trivial

/-- While the server runs an operation is to complete exactly when there is a session. -/
theorem Sound.isEmpty_iff (hc : c.Sound) (hrun : c.sessions.running = true) :
    c.pending = [] ↔ c.objects = [] := by
  refine ⟨fun h => ?_, fun h => ?_⟩
  · refine List.eq_nil_iff_forall_not_mem.mpr fun k hk => ?_
    obtain ⟨h', hmem⟩ := hc.awaited hrun k hk
    rw [h] at hmem
    cases hmem
  · refine List.eq_nil_iff_forall_not_mem.mpr fun p hp => ?_
    have hmem := hc.alive p hp
    rw [h] at hmem
    cases hmem

theorem Sound.running_proceed (hc : c.Sound) :
    c.proceed.sessions.running = true ↔ c.sessions.running = true ∧ c.objects ≠ [] := by
  cases hrun : c.sessions.running with
  | false => simp [Connections.proceed, hrun]
  | true => simp [Connections.proceed, hrun, ← hc.isEmpty_iff hrun]

/-- A turn after which the server goes on: no signal, a message that is accepted if there is one,
and a session that is left. -/
theorem running_step (db : Database δ) (hc : c.Sound) (hrun : c.sessions.running = true)
    (hobjects : c.objects ≠ []) (hs : c.sessions.server.market.Reachable) (e : Completion) :
    (c.step db e).2.sessions.running = true ↔
      (e ≠ .interrupt ∧
        Machine.Along (Sessions.step db) (fun s read => Session.Accepts db s.server read.2)
          c.sessions (c.readIn e)) ∧ (c.step db e).2.objects ≠ [] := by
  by_cases hplace : c.takesPlace e = true
  · rw [step, readIn, if_pos hplace, if_pos hplace]
    exact (sound_handle hc hplace).running_proceed.trans
      (and_congr_left' (running_handle db hrun hs e))
  · rw [step, readIn, if_neg hplace, if_neg hplace]
    have he : e ≠ .interrupt := fun heq => hplace (heq ▸ takesPlace_interrupt hrun)
    exact iff_of_true hrun ⟨⟨he, trivial⟩, hobjects⟩

/-- A server that goes on has taken a turn of its sessions. -/
theorem step_sessions (db : Database δ) (c : Connections δ) {e : Completion}
    (h : (c.step db e).2.sessions.running = true) :
    (c.step db e).2.sessions = Machine.exec (Sessions.step db) c.sessions (c.readIn e) := by
  rw [step, readIn] at *
  split
  · rename_i hplace
    rw [if_pos hplace] at h
    have hgo : (c.handle db e).2.sessions.running = true := (Bool.and_eq_true_iff.mp h).1
    have he : e ≠ .interrupt := by
      intro heq
      rw [heq] at hgo
      cases hgo
    rw [← handle_sessions db c he]
    exact congrArg (fun b => { (c.handle db e).2.sessions with running := b })
      (h.trans hgo.symm)
  · rfl

/-- After a run the server is running exactly when no signal came, every message that was read was
accepted and a session is left. -/
theorem running_exec (db : Database δ) {server : Server δ} (hs : server.market.Reachable)
    (data : Nat → Bytes) (es : List Completion) :
    (Machine.exec (step db) (listen server data) es).sessions.running = true ↔
      (.interrupt ∉ es ∧
        Machine.Along (Sessions.step db) (fun s read => Session.Accepts db s.server read.2)
          (fresh server data) (readsOf db (listen server data) es)) ∧
        (Machine.exec (step db) (listen server data) es).objects ≠ [] := by
  have hgeneral : ∀ c : Connections δ, c.Sound → c.sessions.running = true → c.objects ≠ [] →
      c.sessions.server.market.Reachable →
      ((Machine.exec (step db) c es).sessions.running = true ↔
        (.interrupt ∉ es ∧
          Machine.Along (Sessions.step db) (fun s read => Session.Accepts db s.server read.2)
            c.sessions (readsOf db c es)) ∧ (Machine.exec (step db) c es).objects ≠ []) := by
    induction es with
    | nil => exact fun c _ hrun hobjects _ =>
        iff_of_true hrun ⟨⟨List.not_mem_nil, trivial⟩, hobjects⟩
    | cons e es ih =>
      intro c hc hrun hobjects hs
      have hone := running_step db hc hrun hobjects hs e
      rw [Machine.exec_cons, readsOf, Machine.gather, Machine.along_append]
      cases hnext : (c.step db e).2.sessions.running with
      | false =>
        rw [hnext] at hone
        rw [exec_of_stopped hnext, hnext]
        refine iff_of_false Bool.false_ne_true fun h => ?_
        have he : e ≠ .interrupt := fun heq => h.1.1 (heq ▸ List.mem_cons_self ..)
        exact Bool.false_ne_true (hone.mpr ⟨⟨he, h.1.2.1⟩, h.2⟩)
      | true =>
        obtain ⟨⟨he, halong⟩, hleft⟩ := hone.mp hnext
        have hsessions := step_sessions db c hnext
        have hreach : (c.step db e).2.sessions.server.market.Reachable := by
          rw [hsessions]
          exact Machine.exec_inv (I := fun s : Sessions δ => s.server.market.Reachable)
            (fun s read h => Sessions.reachable_step db read h) hs _
        rw [ih _ (sound_step e hc) hnext hleft hreach, hsessions, and_iff_right halong,
          List.mem_cons, or_iff_right (Ne.symm he)]
        exact Iff.rfl
  exact hgeneral (listen server data) (sound_listen server data) rfl (List.cons_ne_nil _ _) hs

/-- A turn makes a session for each connection it accepts, and deletes one for each operation that
fails. -/
theorem objects_step (hc : c.Sound) (e : Completion) :
    (c.step db e).2.objects.length + (c.fails e).toNat =
      c.objects.length + (c.accepts e).toNat := by
  rw [step, fails, accepts]
  by_cases hplace : c.takesPlace e = true
  · rw [if_pos hplace, hplace]
    cases herror : e.error with
    | true =>
      obtain ⟨h, k, he⟩ := call_of_error herror
      have hmem : k ∈ c.objects := hc.alive _ (mem_of_takesPlace hplace he)
      have hpos := List.length_pos_of_mem hmem
      rw [handle_of_error db c he herror]
      change (c.objects.erase k).length + 1 = c.objects.length
      rw [List.length_erase_of_mem hmem]
      omega
    | false =>
      cases e with
      | accept k error =>
        obtain rfl : error = false := herror
        rfl
      | read k bytes taken =>
        cases bytes with
        | none => cases herror
        | some bytes =>
          simp only [handle, handleRead]
          cases (c.sessions.step db (k, bytes)).1 <;> rfl
      | write k error =>
        obtain rfl : error = false := herror
        rfl
      | send _ _ | interrupt => rfl
  · rw [if_neg hplace, Bool.eq_false_iff.mpr hplace]
    rfl

/-- The sessions that are left: one for each connection that was accepted and one to accept the
next, less those that failed. -/
theorem objects_exec (db : Database δ) (server : Server δ) (data : Nat → Bytes)
    (es : List Completion) :
    (Machine.exec (step db) (listen server data) es).objects.length +
        failed db (listen server data) es =
      1 + accepted db (listen server data) es :=
  Machine.exec_balance (m := fun c : Connections δ => c.objects.length)
    (fun _ e h => sound_step e h) (fun _ e h => objects_step h e) (sound_listen server data) es

/-- The server is running after a run exactly when no signal came, every message that was read was
accepted in the state it was read in, and no more operations failed than connections were accepted:
otherwise the session to accept the next connection failed too, and nothing is left to wait for. -/
theorem running_iff (db : Database δ) {server : Server δ} (hs : server.market.Reachable)
    (data : Nat → Bytes) (es : List Completion) :
    (Machine.exec (step db) (listen server data) es).sessions.running = true ↔
      (.interrupt ∉ es ∧
        Machine.Along (Sessions.step db) (fun s read => Session.Accepts db s.server read.2)
          (fresh server data) (readsOf db (listen server data) es)) ∧
        failed db (listen server data) es ≤ accepted db (listen server data) es := by
  have hcount := objects_exec db server data es
  rw [running_exec db hs data es, ← List.length_pos_iff]
  refine and_congr_right fun _ => ?_
  omega

/-- A client asks for the quotes and hangs up, and the next one is not accepted while another is
served. -/
def sampleCompletions : List Completion :=
  [.accept 0 false, .accept 1 false, .read 0 (some Session.quotesRequest.bytes) 4096,
    .accept 2 true, .write 0 false, .read 0 none 0]

theorem sample_running :
    (Machine.exec (step userTable) (listen Session.sampleServer fun _ => [])
      sampleCompletions).sessions.running = true := by
  refine (running_iff userTable Market.sample_reachable (fun _ => []) sampleCompletions).mpr
    ⟨⟨by decide +kernel, ?_⟩, by decide +kernel⟩
  have hreads : readsOf userTable (listen Session.sampleServer fun _ => []) sampleCompletions =
      [(0, Session.quotesRequest.bytes)] := by decide +kernel
  rw [hreads]
  exact ⟨⟨by decide, _, Session.quotesRequest.parse_bytes, rfl⟩, trivial⟩

/-- When the other client hangs up too, the program ends. -/
example :
    (Machine.exec (step userTable) (listen Session.sampleServer fun _ => [])
      (sampleCompletions ++ [.read 1 none 0])).sessions.running = false := by decide +kernel

/-! Accepting. -/

/-- The accept that completes has failed. -/
def AcceptFails (c : Connections δ) (e : Completion) : Prop :=
  c.takesPlace e = true ∧ ∃ k, e = .accept k true

theorem listening_async {h : Handler} (hh : h ≠ .handleAccept) :
    ((c.use k).async h k).Listening ↔ c.Listening := by
  refine exists_congr fun i => ?_
  change (Handler.handleAccept, i) ∈ (h, k) :: c.pending ↔ _
  rw [List.mem_cons, or_iff_right]
  exact fun heq => hh (Prod.mk.inj heq).1.symm

theorem listening_taken {h : Handler} (hh : h ≠ .handleAccept) :
    Listening { c with pending := c.pending.erase (h, k) } ↔ c.Listening := by
  refine exists_congr fun i => ?_
  exact List.mem_erase_of_ne fun heq => hh (Prod.mk.inj heq).1.symm

theorem listening_handleRead (taken : Nat) (bytes : Option Bytes) :
    (c.handleRead db k taken bytes).2.Listening ↔ c.Listening := by
  cases bytes with
  | none => exact Iff.rfl
  | some bytes =>
    simp only [Connections.handleRead]
    cases (c.sessions.step db (k, bytes)).1 with
    | none => exact Iff.rfl
    | some reply => exact listening_async (by decide)

/-- A turn ends the listening exactly when it is a failed accept. -/
theorem listening_step (hc : c.Sound) (e : Completion) :
    (c.step db e).2.Listening ↔ c.Listening ∧ ¬ c.AcceptFails e := by
  rw [step, AcceptFails]
  by_cases hplace : c.takesPlace e = true
  · rw [if_pos hplace]
    simp only [hplace, true_and]
    cases e with
    | accept k error =>
      have hp : (.handleAccept, k) ∈ c.pending := mem_of_takesPlace hplace rfl
      have hlisten : c.Listening := ⟨k, hp⟩
      cases error with
      | true =>
        have hno : ¬ (c.handle db (.accept k true)).2.proceed.Listening := hc.not_listening hp
        simp [hno]
      | false =>
        have hnext : (c.handle db (.accept k false)).2.proceed.Listening :=
          ⟨c.made, List.mem_cons_self ..⟩
        simp [hnext, hlisten]
    | read k bytes taken =>
      simp only [reduceCtorEq, exists_false, not_false_eq_true, and_true]
      exact (listening_handleRead taken bytes).trans (listening_taken (by decide))
    | write k error =>
      simp only [reduceCtorEq, exists_false, not_false_eq_true, and_true]
      cases error with
      | true => exact listening_taken (by decide)
      | false => exact (listening_async (by decide)).trans (listening_taken (by decide))
    | _ =>
      simp only [reduceCtorEq, exists_false, not_false_eq_true, and_true]
      exact Iff.rfl
  · rw [if_neg hplace]
    simp [hplace]

theorem listening_exec (db : Database δ) (server : Server δ) (data : Nat → Bytes)
    (es : List Completion) :
    (Machine.exec (step db) (listen server data) es).Listening ↔
      Machine.Along (step db) (fun c e => ¬ c.AcceptFails e) (listen server data) es := by
  rw [Machine.exec_iff_along (P := Listening) (fun _ e h _ => sound_step e h)
    (fun _ e h _ => listening_step h e) (sound_listen server data) (Machine.along_true _ es)]
  exact and_iff_right ⟨0, List.mem_cons_self ..⟩

/-- The server will accept one more connection exactly as long as no accept has failed, no signal
came and every message that was read was accepted in the state it was read in: from the first failed
accept on it accepts none, whatever else completes. -/
theorem accepting_iff (db : Database δ) {server : Server δ} (hs : server.market.Reachable)
    (data : Nat → Bytes) (es : List Completion) :
    (Machine.exec (step db) (listen server data) es).Accepting ↔
      (.interrupt ∉ es ∧
        Machine.Along (Sessions.step db) (fun s read => Session.Accepts db s.server read.2)
          (fresh server data) (readsOf db (listen server data) es)) ∧
        Machine.Along (step db) (fun c e => ¬ c.AcceptFails e) (listen server data) es := by
  have hsound : (Machine.exec (step db) (listen server data) es).Sound :=
    Machine.exec_inv (fun _ e h => sound_step e h) (sound_listen server data) es
  rw [Accepting, running_exec db hs data es, listening_exec, and_assoc]
  refine and_congr_right fun _ => and_iff_right_of_imp fun h => ?_
  -- the session it listens with is there
  obtain ⟨k, hk⟩ := (listening_exec db server data es).mpr h
  exact List.ne_nil_of_mem (hsound.alive _ hk)

/-- A client asks for the quotes and hangs up. -/
theorem sample_accepting :
    (Machine.exec (step userTable) (listen Session.sampleServer fun _ => [])
      [.accept 0 false, .read 0 (some Session.quotesRequest.bytes) 4096, .write 0 false,
        .read 0 none 0]).Accepting := by
  refine (accepting_iff userTable Market.sample_reachable (fun _ => []) _).mpr
    ⟨⟨by decide +kernel, ?_⟩, ?_⟩
  · have hreads : readsOf userTable (listen Session.sampleServer fun _ => [])
        [.accept 0 false, .read 0 (some Session.quotesRequest.bytes) 4096, .write 0 false,
          .read 0 none 0] = [(0, Session.quotesRequest.bytes)] := by decide +kernel
    rw [hreads]
    exact ⟨⟨by decide, _, Session.quotesRequest.parse_bytes, rfl⟩, trivial⟩
  · exact ⟨by simp [AcceptFails], by simp [AcceptFails], by simp [AcceptFails],
      by simp [AcceptFails], trivial⟩

/-! The order of the handlers on one session. -/

/-- The handlers of a session, in the order of the protocol: its connection is accepted, then
requests are read and replies written in turn. -/
def phase : Nat → Handler
  | 0 => .handleAccept
  | n + 1 => if n % 2 = 0 then .handleRead else .handleWrite

/-- A session has come to this place of the order. -/
def At (k n : Nat) (c : Connections δ) : Prop :=
  (∀ h, (h, k) ∈ c.pending → h = phase n) ∧ (c.made ≤ k → n = 0)

variable {n : Nat}

theorem At.taken (hat : c.At k n) (p : Handler × Nat) :
    At k n { c with pending := c.pending.erase p } :=
  ⟨fun h hh => hat.1 h (List.mem_of_mem_erase hh), hat.2⟩

theorem At.async (hat : c.At k n) {l : Nat} (hl : l ≠ k) (h : Handler) :
    At k n ((c.use l).async h l) := by
  refine ⟨fun h' hmem => ?_, hat.2⟩
  rcases List.mem_cons.mp hmem with heq | hmem
  · exact absurd (Prod.mk.inj heq).2.symm hl
  · exact hat.1 h' hmem

theorem At.accept (hat : c.At k n) : At k n c.accept := by
  refine ⟨fun h hmem => ?_, fun hle => hat.2 (Nat.le_of_succ_le hle)⟩
  rcases List.mem_cons.mp hmem with heq | hmem
  · obtain ⟨rfl, rfl⟩ := Prod.mk.inj heq
    rw [hat.2 (Nat.le_refl _)]
    rfl
  · exact hat.1 h hmem

/-- A session in its handler may come to any place. -/
theorem Called.at (hc : c.Called k) (m : Nat) : c.At k m :=
  ⟨fun h hmem => absurd rfl (hc.free (h, k) hmem), fun hle => absurd (hc.old k hc.self) (by omega)⟩

theorem Called.at_async (hc : c.Called k) (m : Nat) : At k m ((c.use k).async (phase m) k) := by
  refine ⟨fun h hmem => ?_, (hc.at m).2⟩
  rcases List.mem_cons.mp hmem with heq | hmem
  · exact (Prod.mk.inj heq).1
  · exact absurd rfl (hc.free (h, k) hmem)

theorem At.handleRead (hat : c.At k n) {l : Nat} (hl : l ≠ k) (taken : Nat)
    (bytes : Option Bytes) : At k n (c.handleRead db l taken bytes).2 := by
  cases bytes with
  | none => exact hat
  | some bytes =>
    simp only [Connections.handleRead]
    cases (c.sessions.step db (l, bytes)).1 with
    | none => exact hat
    | some reply =>
      have hnext : At k n { c with
          sessions := (c.sessions.step db (l, bytes)).2
          unsent := Function.update c.unsent l (reply.length - taken) } := hat
      exact hnext.async hl _

/-- What completes on other sessions leaves a session where it is. -/
theorem At.step_other (hat : c.At k n) {e : Completion} (he : ∀ h, e.call ≠ some (h, k)) :
    At k n (c.step db e).2 := by
  rw [step]
  split
  · cases e with
    | accept l error =>
      have hl : l ≠ k := fun heq => he .handleAccept (by rw [heq]; rfl)
      cases error with
      | true => exact hat.taken _
      | false => exact ((hat.taken _).async hl _).accept
    | read l bytes taken =>
      have hl : l ≠ k := fun heq => he .handleRead (by rw [heq]; rfl)
      exact At.handleRead (hat.taken _) hl taken bytes
    | write l error =>
      have hl : l ≠ k := fun heq => he .handleWrite (by rw [heq]; rfl)
      cases error with
      | true => exact hat.taken _
      | false => exact (hat.taken _).async hl _
    | send l bytes => exact hat
    | interrupt => exact hat
  · exact hat

/-- What a session starts in a handler. -/
def next : Handler → Handler
  | .handleAccept | .handleWrite => .handleRead
  | .handleRead => .handleWrite

theorem phase_succ (n : Nat) : phase (n + 1) = next (phase n) := by
  cases n with
  | zero => rfl
  | succ m =>
    simp only [phase]
    by_cases hm : m % 2 = 0
    · rw [if_neg (by omega), if_pos hm]
      rfl
    · rw [if_pos (by omega), if_neg hm]
      rfl

/-- A handler that is told of no error takes its session on to the next place. -/
theorem At.step_self (hc : c.Sound) (hat : c.At k n) {e : Completion}
    (hplace : c.takesPlace e = true) {h : Handler} (he : e.call = some (h, k))
    (herror : e.error = false) : At k (n + 1) (c.step db e).2 := by
  have hp : (h, k) ∈ c.pending := mem_of_takesPlace hplace he
  have hphase := hat.1 h hp
  have hcalled := hc.called hp
  have hnext := hcalled.at_async (n + 1)
  rw [phase_succ, ← hphase] at hnext
  rw [step, if_pos hplace]
  cases e with
  | accept l error =>
    obtain ⟨rfl, rfl⟩ := Prod.mk.inj (Option.some.inj he)
    obtain rfl : error = false := herror
    exact hnext.accept
  | read l bytes taken =>
    obtain ⟨rfl, rfl⟩ := Prod.mk.inj (Option.some.inj he)
    cases bytes with
    | none => cases herror
    | some bytes =>
      simp only [handle, Connections.handleRead]
      cases (c.sessions.step db (l, bytes)).1 with
      | some reply => exact hnext
      | none => exact hcalled.at _
  | write l error =>
    obtain ⟨rfl, rfl⟩ := Prod.mk.inj (Option.some.inj he)
    obtain rfl : error = false := herror
    exact hnext
  | send _ _ | interrupt => cases he

/-- A session was made and is deleted. -/
def Over (k : Nat) (c : Connections δ) : Prop := k < c.made ∧ k ∉ c.objects

/-- A handler that is told of an error is the last of its session. -/
theorem Sound.over_step (hc : c.Sound) {e : Completion} (hplace : c.takesPlace e = true)
    {h : Handler} (he : e.call = some (h, k)) (herror : e.error = true) :
    Over k (c.step db e).2 := by
  have hmem : k ∈ c.objects := hc.alive _ (mem_of_takesPlace hplace he)
  rw [step, if_pos hplace, handle_of_error db c he herror]
  exact ⟨hc.old k hmem, hc.nodup.not_mem_erase⟩

/-- A session that is deleted is not made again. -/
theorem Over.step (hover : c.Over k) (e : Completion) : Over k (c.step db e).2 := by
  rw [Connections.step]
  by_cases hplace : c.takesPlace e = true
  · rw [if_pos hplace]
    cases herror : e.error with
    | true =>
      obtain ⟨h, l, he⟩ := call_of_error herror
      rw [handle_of_error db c he herror]
      exact ⟨hover.1, fun hmem => hover.2 (List.mem_of_mem_erase hmem)⟩
    | false =>
      cases e with
      | accept l error =>
        obtain rfl : error = false := herror
        refine ⟨Nat.lt_succ_of_lt hover.1, fun hmem => ?_⟩
        rcases List.mem_cons.mp hmem with heq | hmem
        · exact absurd hover.1 (heq ▸ Nat.lt_irrefl _)
        · exact hover.2 hmem
      | read l bytes taken =>
        cases bytes with
        | none => cases herror
        | some bytes =>
          simp only [handle, handleRead]
          cases (c.sessions.step db (l, bytes)).1 <;> exact hover
      | write l error =>
        obtain rfl : error = false := herror
        exact hover
      | send _ _ | interrupt => exact hover
  · rw [if_neg hplace]
    exact hover

theorem callOn_eq {e : Completion} (hplace : c.takesPlace e = true) {h : Handler}
    (he : e.call = some (h, k)) : c.callOn k e = [(h, e.error)] := by
  simp [callOn, hplace, he]

theorem callOn_eq_nil {e : Completion}
    (h : ∀ h, c.takesPlace e = true → e.call ≠ some (h, k)) : c.callOn k e = [] := by
  rw [callOn]
  split
  · rename_i hplace
    cases hcall : e.call with
    | none => rfl
    | some p =>
      have hp : p.2 ≠ k := fun heq => h p.1 hplace (by rw [hcall, ← heq])
      simp [hp]
  · rfl

/-- What is called on a session is the handler it has come to, and an error is the last it is told
of. -/
theorem callOn_step (hc : c.Sound) (hat : c.At k n) (e : Completion) :
    (c.callOn k e = [] ∧ At k n (c.step db e).2) ∨
      (c.callOn k e = [(phase n, false)] ∧ At k (n + 1) (c.step db e).2) ∨
      (c.callOn k e = [(phase n, true)] ∧ Over k (c.step db e).2) := by
  by_cases hself : c.takesPlace e = true ∧ ∃ h, e.call = some (h, k)
  · obtain ⟨hplace, h, he⟩ := hself
    rw [callOn_eq hplace he, hat.1 h (mem_of_takesPlace hplace he)]
    cases herror : e.error with
    | false => exact .inr (.inl ⟨rfl, hat.step_self hc hplace he herror⟩)
    | true => exact .inr (.inr ⟨rfl, hc.over_step hplace he herror⟩)
  · refine .inl ⟨callOn_eq_nil fun h hplace he => hself ⟨hplace, h, he⟩, ?_⟩
    by_cases hplace : c.takesPlace e = true
    · exact hat.step_other fun h he => hself ⟨hplace, h, he⟩
    · rw [step, if_neg hplace]
      exact hat

/-- The first handlers of a session, none told of an error. -/
def goesOn (n : Nat) : List (Handler × Bool) := (List.range n).map fun i => (phase i, false)

/-- In every run the handlers called on a session are the first ones of the order of the protocol.
Either none was told of an error, and what the session waits for is the next; or only the last one
was, and the session is deleted. -/
theorem callsOn_eq (db : Database δ) (server : Server δ) (data : Nat → Bytes) (k : Nat)
    (es : List Completion) :
    ∃ n, (callsOn db k (listen server data) es = goesOn n ∧
        ∀ h, (h, k) ∈ (Machine.exec (step db) (listen server data) es).pending → h = phase n) ∨
      (callsOn db k (listen server data) es = goesOn n ++ [(phase n, true)] ∧
        k ∉ (Machine.exec (step db) (listen server data) es).objects) := by
  have hstart : At k 0 (listen server data) := by
    apply At.accept
    exact ⟨fun h hmem => (by cases hmem), fun _ => rfl⟩
  have hover : ∀ (c : Connections δ) e, c.Sound → c.Over k →
      c.callOn k e = [] ∧ Over k (c.step db e).2 := by
    intro c e hc hover
    refine ⟨callOn_eq_nil fun h hplace he => ?_, hover.step e⟩
    exact hover.2 (hc.alive _ (mem_of_takesPlace hplace he))
  obtain ⟨n, hrun⟩ := Machine.gather_stretch (fun _ e h => sound_step e h)
    (fun n c e hc hat => callOn_step (n := n) hc hat e) hover (sound_listen server data) hstart es
  refine ⟨n, hrun.imp (fun h => ⟨?_, ?_⟩) (fun h => ⟨?_, h.2.2⟩)⟩
  · rw [callsOn, h.1, goesOn, List.range_eq_range']
  · have hat := h.2
    rw [Nat.zero_add] at hat
    exact hat.1
  · rw [callsOn, h.1, goesOn, List.range_eq_range', Nat.zero_add]

end Connections

end ForexMarket
