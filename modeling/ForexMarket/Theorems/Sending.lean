import ForexMarket.Theorems.Connections

/- What the clients are sent. To the market, the database and the buffers the event loop
   does what `Sessions` does with the reads that were handed to sessions. A reply is sent
   whole only if the socket takes all of it while `HandleRead` runs: the rest is as long as
   it should be, but its bytes are read from a string that is no more (`stale`). On one session
   nothing else is sent in between, and while nothing stale is sent a client has a beginning
   of its replies, in the order of its requests. -/
namespace ForexMarket

namespace Connections

variable {δ : Type} {db : Database δ} {c : Connections δ} {k : Nat}

/-! What the handlers do to the server. -/

/-- The sessions, but for the end of the program. -/
def SameSessions (c : Connections δ) (s : Sessions δ) : Prop :=
  c.sessions.server = s.server ∧ c.sessions.data = s.data ∧
    (c.sessions.running = true → s = c.sessions)

theorem readIn_of_stopped (h : c.sessions.running = false) (e : Completion) : c.readIn e = [] := by
  simp [readIn, takesPlace_of_stopped h]

theorem SameSessions.step (db : Database δ) {s : Sessions δ} (h : c.SameSessions s)
    (e : Completion) :
    SameSessions (c.step db e).2 (Machine.exec (Sessions.step db) s (c.readIn e)) := by
  cases hrun : c.sessions.running with
  | false =>
    rw [readIn_of_stopped hrun, step_of_stopped hrun]
    exact h
  | true =>
    rw [h.2.2 hrun]
    refine ⟨?_, ?_, fun hnext => (step_sessions db c hnext).symm⟩
    all_goals
      by_cases he : e = .interrupt
      · rw [he, Connections.step, readIn, if_pos (takesPlace_interrupt hrun),
          if_pos (takesPlace_interrupt hrun)]
        rfl
      · rw [Connections.step, readIn]
        split
        · rw [← handle_sessions db c he]
          rfl
        · rfl

/-! What is sent. -/

/-- The replies to what a turn hands to a session. -/
def repliesIn (db : Database δ) (k : Nat) (c : Connections δ) (e : Completion) : Bytes :=
  Sessions.repliesTo db k c.sessions (c.readIn e)

/-- What a session was sent so far, and the replies it should have been sent. -/
structure Conveyed (k : Nat) (bytes replies : Bytes) (c : Connections δ) : Prop where
  length : bytes.length + c.unsent k = replies.length
  isPrefix : c.stale = false → bytes <+: replies
  /-- A session with something unsent writes, or it was deleted. -/
  writes : c.unsent k ≠ 0 → k < c.made ∧ ∀ h, (h, k) ∈ c.pending → h = .handleWrite

variable {bytes replies : Bytes}

theorem Conveyed.append_nil (h : Conveyed k bytes replies c) :
    Conveyed k (bytes ++ []) (replies ++ []) c := by
  rw [List.append_nil, List.append_nil]
  exact h

theorem Conveyed.of_eq {c' : Connections δ} (h : Conveyed k bytes replies c)
    (hmade : c'.made = c.made) (hpending : c'.pending = c.pending) (hunsent : c'.unsent = c.unsent)
    (hstale : c'.stale = c.stale) : Conveyed k bytes replies c' where
  length := by
    rw [hunsent]
    exact h.length
  isPrefix := by
    rw [hstale]
    exact h.isPrefix
  writes := by
    rw [hunsent, hmade, hpending]
    exact h.writes

/-- A session that does not write has been sent everything. -/
theorem Conveyed.unsent_eq (h : Conveyed k bytes replies c) {h' : Handler}
    (hp : (h', k) ∈ c.pending) (hne : h' ≠ .handleWrite) : c.unsent k = 0 := by
  by_contra hunsent
  exact hne ((h.writes hunsent).2 h' hp)

theorem Conveyed.taken (h : Conveyed k bytes replies c) (p : Handler × Nat) :
    Conveyed k bytes replies { c with pending := c.pending.erase p } :=
  { h with
    writes := fun hunsent =>
      ⟨(h.writes hunsent).1, fun h' hp => (h.writes hunsent).2 h' (List.mem_of_mem_erase hp)⟩ }

/-- A session that starts to read has been sent everything. -/
theorem Conveyed.asyncRead (h : Conveyed k bytes replies c) {l : Nat}
    (hl : l = k → c.unsent k = 0) : Conveyed k bytes replies ((c.use l).async .handleRead l) :=
  { h with
    writes := by
      intro hunsent
      refine ⟨(h.writes hunsent).1, fun h' hp => ?_⟩
      rcases List.mem_cons.mp hp with heq | hp
      · exact absurd (hl (Prod.mk.inj heq).2.symm) hunsent
      · exact (h.writes hunsent).2 h' hp }

theorem Conveyed.accept (h : Conveyed k bytes replies c) : Conveyed k bytes replies c.accept :=
  { h with
    writes := by
      intro hunsent
      obtain ⟨hmade, hpending⟩ := h.writes hunsent
      refine ⟨Nat.lt_succ_of_lt hmade, fun h' hp => ?_⟩
      rcases List.mem_cons.mp hp with heq | hp
      · exact absurd hmade ((Prod.mk.inj heq).2 ▸ Nat.lt_irrefl _)
      · exact hpending h' hp }

/-- The first send puts a beginning of the reply behind what was sent. -/
theorem Conveyed.asyncWrite (h : Conveyed k bytes replies c) (hmade : k < c.made)
    (hfree : ∀ p ∈ c.pending, p.2 ≠ k) (hunsent : c.unsent k = 0) (reply : Bytes) (taken : Nat) :
    Conveyed k (bytes ++ reply.take taken) (replies ++ reply) (c.asyncWrite k reply taken) := by
  have hlength : bytes.length = replies.length := by
    have := h.length
    omega
  refine ⟨?_, fun hstale => ?_, fun _ => ⟨hmade, fun h' hp => ?_⟩⟩
  · change _ + Function.update c.unsent k (reply.length - taken) k = _
    rw [Function.update_self, List.length_append, List.length_append, List.length_take, hlength]
    omega
  · rw [(h.isPrefix hstale).eq_of_length hlength]
    exact (List.prefix_append_right_inj _).mpr (List.take_prefix ..)
  · rcases List.mem_cons.mp hp with heq | hp
    · exact (Prod.mk.inj heq).1
    · exact absurd rfl (hfree _ hp)

/-- What another session starts to write is not for this one. -/
theorem Conveyed.asyncWrite_other (h : Conveyed k bytes replies c) {l : Nat} (hl : l ≠ k)
    (reply : Bytes) (taken : Nat) : Conveyed k bytes replies (c.asyncWrite l reply taken) := by
  have hunsent : (c.asyncWrite l reply taken).unsent k = c.unsent k :=
    Function.update_of_ne hl.symm ..
  refine ⟨?_, h.isPrefix, fun hne => ?_⟩
  · rw [hunsent]
    exact h.length
  · rw [hunsent] at hne
    refine ⟨(h.writes hne).1, fun h' hp => ?_⟩
    rcases List.mem_cons.mp hp with heq | hp
    · exact absurd (Prod.mk.inj heq).2.symm hl
    · exact (h.writes hne).2 h' hp

/-- A further send is of the length that is left, and of bytes that may be any. -/
theorem Conveyed.sendRest (h : Conveyed k bytes replies c) {l : Nat} {rest : Bytes}
    (hrest : rest.length ≤ c.unsent l) :
    Conveyed k (bytes ++ if l = k then rest else []) replies (c.sendRest l rest) := by
  have hstale : (c.sendRest l rest).stale = false → c.stale = false ∧ rest = [] := by
    intro hstale
    simpa [Connections.sendRest] using hstale
  by_cases hl : l = k
  · obtain rfl := hl
    have hunsent : (c.sendRest l rest).unsent l = c.unsent l - rest.length :=
      Function.update_self ..
    rw [if_pos rfl]
    refine ⟨?_, fun h' => ?_, fun hne => h.writes fun h0 => hne (by omega)⟩
    · have := h.length
      rw [hunsent, List.length_append]
      omega
    · rw [(hstale h').2, List.append_nil]
      exact h.isPrefix (hstale h').1
  · have hunsent : (c.sendRest l rest).unsent k = c.unsent k :=
      Function.update_of_ne (Ne.symm hl) ..
    rw [if_neg hl, List.append_nil]
    refine ⟨?_, fun h' => h.isPrefix (hstale h').1, fun hne => h.writes (hunsent ▸ hne)⟩
    rw [hunsent]
    exact h.length

theorem Conveyed.handleRead (db : Database δ) (h : Conveyed k bytes replies c) {l : Nat}
    (hc : c.Called l) (hunsent : l = k → c.unsent k = 0) (taken : Nat) (read : Bytes) :
    Conveyed k
      (bytes ++ (c.handleRead db l taken (some read)).1.elim [] fun p =>
        if p.1 = k then p.2 else [])
      (replies ++ Sessions.repliesTo db k c.sessions [(l, read)])
      (c.handleRead db l taken (some read)).2 := by
  rw [Sessions.repliesTo, Machine.gather, Machine.gather, List.append_nil]
  simp only [Connections.handleRead]
  cases (c.sessions.step db (l, read)).1 with
  | none =>
    rw [Option.getD_none, ite_self]
    exact { h.append_nil with }
  | some reply =>
    have hnext : Conveyed k bytes replies
        { c.use l with sessions := (c.sessions.step db (l, read)).2 } := { h with }
    simp only [Option.elim_some, Option.getD_some]
    by_cases hl : l = k
    · obtain rfl := hl
      rw [if_pos rfl, if_pos rfl]
      exact hnext.asyncWrite (hc.old l hc.self) hc.free (hunsent rfl) reply taken
    · rw [if_neg hl, if_neg hl]
      exact (hnext.asyncWrite_other hl reply taken).append_nil

/-- One turn adds to both what it should. -/
theorem Conveyed.step (db : Database δ) (hc : c.Sound) (h : Conveyed k bytes replies c)
    (e : Completion) :
    Conveyed k (bytes ++ c.sentOn db k e) (replies ++ repliesIn db k c e) (c.step db e).2 := by
  rw [sentOn, repliesIn, Connections.step, readIn]
  by_cases hplace : c.takesPlace e = true
  · simp only [if_pos hplace]
    cases e with
    | accept l error =>
      have hp : (.handleAccept, l) ∈ c.pending := mem_of_takesPlace hplace rfl
      cases error with
      | true => exact (h.taken (.handleAccept, l)).append_nil.of_eq rfl rfl rfl rfl
      | false =>
        have hunsent : l = k → c.unsent k = 0 := fun hl => h.unsent_eq (hl ▸ hp) (by decide)
        have hnext := ((h.taken (.handleAccept, l)).asyncRead hunsent).accept
        exact hnext.append_nil.of_eq rfl rfl rfl rfl
    | read l read taken =>
      have hp : (.handleRead, l) ∈ c.pending := mem_of_takesPlace hplace rfl
      cases read with
      | none => exact (h.taken (.handleRead, l)).append_nil.of_eq rfl rfl rfl rfl
      | some read =>
        have hunsent : l = k → c.unsent k = 0 := fun hl => h.unsent_eq (hl ▸ hp) (by decide)
        have hnext := (h.taken (.handleRead, l)).handleRead db (hc.called hp) hunsent taken read
        exact hnext.of_eq rfl rfl rfl rfl
    | send l rest =>
      have hdue := due_of_takesPlace hplace
      rw [due, Bool.and_eq_true_iff, decide_eq_true_iff] at hdue
      have hnext := h.sendRest hdue.2
      rw [← List.append_nil replies] at hnext
      exact hnext.of_eq rfl rfl rfl rfl
    | write l error =>
      have hdue := due_of_takesPlace hplace
      cases error with
      | true => exact (h.taken (.handleWrite, l)).append_nil.of_eq rfl rfl rfl rfl
      | false =>
        have hunsent : l = k → c.unsent k = 0 := fun hl => by simpa [due, hl] using hdue
        have hnext := (h.taken (.handleWrite, l)).asyncRead hunsent
        exact hnext.append_nil.of_eq rfl rfl rfl rfl
    | interrupt => exact h.append_nil.of_eq rfl rfl rfl rfl
  · simp only [if_neg hplace]
    exact h.append_nil

/-! What the clients have. -/

/-- The first send takes the whole reply. -/
def TakesAll (db : Database δ) (c : Connections δ) (e : Completion) : Prop :=
  ∀ k bytes taken, e = .read k (some bytes) taken → ∀ reply,
    (c.sessions.step db (k, bytes)).1 = some reply → reply.length ≤ taken

/-- Nothing is unsent and nothing stale was sent. -/
def AllSent (c : Connections δ) : Prop := c.stale = false ∧ ∀ k, c.unsent k = 0

theorem AllSent.step (h : c.AllSent) {e : Completion} (he : c.TakesAll db e) :
    AllSent (c.step db e).2 := by
  rw [Connections.step]
  by_cases hplace : c.takesPlace e = true
  · rw [if_pos hplace]
    cases e with
    | accept l error => cases error <;> exact h
    | read l read taken =>
      cases read with
      | none => exact h
      | some read =>
        simp only [handle, Connections.handleRead]
        cases hreply : (c.sessions.step db (l, read)).1 with
        | none => exact h
        | some reply =>
          refine ⟨h.1, fun k => ?_⟩
          have hlength : reply.length ≤ taken := he l read taken rfl reply hreply
          change Function.update c.unsent l (reply.length - taken) k = 0
          by_cases hl : k = l
          · rw [hl, Function.update_self]
            omega
          · rw [Function.update_of_ne hl]
            exact h.2 k
    | send l rest =>
      have hdue := due_of_takesPlace hplace
      rw [due, Bool.and_eq_true_iff, decide_eq_true_iff, h.2 l] at hdue
      have hrest : rest = [] := List.eq_nil_of_length_eq_zero (Nat.le_zero.mp hdue.2)
      obtain rfl := hrest
      refine ⟨?_, fun k => ?_⟩
      · change (c.stale || false) = false
        rw [Bool.or_false]
        exact h.1
      · change Function.update c.unsent l (c.unsent l - 0) k = 0
        rw [Nat.sub_zero, Function.update_eq_self]
        exact h.2 k
    | write l error => cases error <;> exact h
    | interrupt => exact h
  · rw [if_neg hplace]
    exact h

theorem sameSessions_exec (db : Database δ) (server : Server δ) (data : Nat → Bytes)
    (es : List Completion) :
    SameSessions (Machine.exec (step db) (listen server data) es)
      (Machine.exec (Sessions.step db) (fresh server data)
        (readsOf db (listen server data) es)) :=
  Machine.exec_refine (fun _ _ e h => h.step db e) ⟨rfl, rfl, fun _ => rfl⟩ es

/-- The replies a run finds are those of its reads. -/
theorem gather_repliesIn (db : Database δ) (server : Server δ) (data : Nat → Bytes) (k : Nat)
    (es : List Completion) :
    Machine.gather (step db) (repliesIn db k) (listen server data) es =
      Sessions.repliesTo db k (fresh server data) (readsOf db (listen server data) es) := by
  have hreplies : ∀ (c : Connections δ) (s : Sessions δ) e, c.SameSessions s →
      Sessions.repliesTo db k s (c.readIn e) = repliesIn db k c e := by
    intro c s e h
    rw [repliesIn]
    cases hrun : c.sessions.running with
    | false =>
      rw [readIn_of_stopped hrun]
      rfl
    | true => rw [h.2.2 hrun]
  exact (Machine.gather_refine hreplies (fun _ _ e h => h.step db e)
    ⟨rfl, rfl, fun _ => rfl⟩ es).symm

theorem conveyed_exec (db : Database δ) (server : Server δ) (data : Nat → Bytes)
    (es : List Completion) (k : Nat) :
    Conveyed k (received db k (listen server data) es)
      (Sessions.repliesTo db k (fresh server data) (readsOf db (listen server data) es))
      (Machine.exec (step db) (listen server data) es) := by
  have hstart : Conveyed k [] [] (listen server data) :=
    ⟨rfl, fun _ => List.prefix_rfl, fun h => absurd rfl h⟩
  have hrun := Machine.exec_inv_gather₂ (f := sentOn db k) (g := repliesIn db k)
    (I := fun bytes replies c => c.Sound ∧ Conveyed k bytes replies c)
    (fun _ _ _ e h => ⟨sound_step e h.1, h.2.step db h.1 e⟩)
    ⟨sound_listen server data, hstart⟩ es
  rw [List.nil_append, List.nil_append, gather_repliesIn] at hrun
  exact hrun.2

/-- In every run, with connections that come and go and operations that fail anywhere, the market,
the database and the buffers are what `Sessions` makes of the reads that were handed to sessions, in
their order. On each session as many bytes are sent as its replies have, but for what is unsent; as
long as no reply was read when it was no more they are the beginning of its replies; and if the
socket always took the whole reply at once they are its replies. -/
theorem refines_sessions (db : Database δ) (server : Server δ) (data : Nat → Bytes)
    (es : List Completion) :
    SameSessions (Machine.exec (step db) (listen server data) es)
        (Machine.exec (Sessions.step db) (fresh server data)
          (readsOf db (listen server data) es)) ∧
      (∀ k, Conveyed k (received db k (listen server data) es)
        (Sessions.repliesTo db k (fresh server data) (readsOf db (listen server data) es))
        (Machine.exec (step db) (listen server data) es)) ∧
      (Machine.Along (step db) (TakesAll db) (listen server data) es →
        ∀ k, received db k (listen server data) es =
          Sessions.repliesTo db k (fresh server data) (readsOf db (listen server data) es)) := by
  refine ⟨sameSessions_exec db server data es, conveyed_exec db server data es, fun hall k => ?_⟩
  have hsent : (Machine.exec (step db) (listen server data) es).AllSent :=
    Machine.exec_inv_along (fun _ _ h he => h.step he) ⟨rfl, fun _ => rfl⟩ hall
  have h := conveyed_exec db server data es k
  have hlength := h.length
  rw [hsent.2 k] at hlength
  exact (h.isPrefix hsent.1).eq_of_length hlength

/-- A client asks for the quotes, and its socket takes four bytes of the reply. -/
def samplePartial : List Completion :=
  [.accept 0 false, .read 0 (some Session.quotesRequest.bytes) 4, .send 0 (text "????")]

/-- The rest of the reply is sent when it is no more. -/
example : (Machine.exec (step userTable) (listen Session.sampleServer fun _ => [])
    samplePartial).stale = true := by decide +kernel

end Connections

end ForexMarket
