import ForexMarket.Model.Process
import ForexMarket.Proofs.Answers
import ForexMarket.Spec.Command

/- Whether the user ids that replies report can be used. A registration writes the user to
   the market and to the table, a login reads the table alone, and a restart empties the
   market alone. So every id reported in a run is a user of the run's market exactly as
   long as nobody logs in as a user that an earlier run registered. -/
namespace ForexMarket

open Json (Document)

/-- What the queries do to the rows of the table: an insertion under a new id adds its row, and
the selections find the rows. `plain` are the names that stand in a query as they are, and `same`
is how the column of the hashes compares; an id is found through `stoi`. -/
structure Database.Keeps {δ : Type} (db : Database δ) (rows : δ → List UserRow)
    (plain : Bytes → Prop) (same : UInt64 → UInt64 → Prop) : Prop where
  added : ∀ table id username pwHash, plain username → (∀ row ∈ rows table, row.1 ≠ id) →
    rows (db.addUser table id username pwHash) = rows table ++ [(id, username, pwHash)]
  exist : ∀ table username, plain username →
    (db.usernameExist table username).1 = .ok ((rows table).any fun row => row.2.1 = username) ∧
      rows (db.usernameExist table username).2 = rows table
  read : ∀ table username pwHash, plain username →
    rows (db.getUserId table username pwHash).2 = rows table
  selected : ∀ table username pwHash id, plain username →
    (db.getUserId table username pwHash).1 = .ok (some id) →
      ∃ row ∈ rows table, row.1 = id ∧ row.2.1 = username ∧ same row.2.2 pwHash
  selects : ∀ table username pwHash, plain username →
    (∃ row ∈ rows table, row.2.1 = username ∧ same row.2.2 pwHash) →
    (∀ row ∈ rows table, row.2.1 = username → row.1.toNat < 2 ^ 31) →
      ∃ id, (db.getUserId table username pwHash).1 = .ok (some id)

namespace Process

variable {δ : Type} (db : Database δ) (rows : δ → List UserRow)

/-- Every id the run has reported is a user of its market, and requests that name the user are
replied to. -/
def Usable (p : Process δ) : Prop :=
  ∀ u ∈ p.granted, (p.server.market.users.find? u.toNat).isSome ∧
    ∀ request c, Session.commandOf request = .ok c → c.user = some u →
      (Session.serve db p.server request).1.isOk

/-- The names in a request are plain. -/
def Plain (plain : Bytes → Prop) : Event → Prop
  | .start _ _ => True
  | .request request => ∀ c, Session.commandOf request = .ok c → ∀ username ∈ c.username,
      plain username

/-- The 64-bit counter of user ids has not wrapped around. -/
def Unwrapped (p : Process δ) (_ : Event) : Prop := p.server.market.userId < 2 ^ 64

instance (p : Process δ) (e : Event) : Decidable (p.Unwrapped e) :=
  inferInstanceAs (Decidable (_ < _))

/-- The event is no login with the name and the hash of a user that an earlier run registered. -/
def NoOldLogin (same : UInt64 → UInt64 → Prop) (p : Process δ) : Event → Prop
  | .start _ _ => True
  | .request request => p.running = true → ∀ username pwHash,
      Session.commandOf request = .ok (.login username pwHash) →
        ∀ row ∈ p.found, ¬ (row.2.1 = username ∧ same row.2.2 pwHash)

end Process

/-! The ids in replies. -/

theorem reportedId_replyOf {v : Json} {reply : Bytes} (h : v.Writable) (hd : v.Delimited)
    (hreply : replyOf v = .ok reply) : reportedId reply = reportedIn v := by
  obtain ⟨d, hv, hbytes⟩ := replyOf_document h hd
  rw [hbytes] at hreply
  rw [← Except.ok.inj hreply, reportedId, d.parse_bytes, hv]
  rfl

theorem reportedIn_authReply {type : Bytes} (userId : Option UInt64)
    (htype : isAuthResponse (Serializer.authReply type userId) = true) :
    reportedIn (Serializer.authReply type userId) = userId := by
  rw [reportedIn, if_pos htype, Client.authResult_authReply]

theorem reportedId_readUser {s : Market} {u : Nat} {f : UserData → Json} {reply : Bytes}
    (hw : ∀ d, (f d).Writable) (hd : ∀ d, (f d).Delimited) (hf : ∀ d, reportedIn (f d) = none)
    (h : Serializer.readUser s u f = .ok reply) : reportedId reply = none := by
  unfold Serializer.readUser at h
  split at h
  · cases h
  · rw [reportedId_replyOf (hw _) (hd _) h, hf]

section Replies

variable {δ : Type} (db : Database δ) (s : Server δ)

/-- The id a command is answered with. -/
def Session.granted : Command → Option UInt64
  | .register username _ =>
    if (db.usernameExist s.db username).1 = .ok false then some (.ofNat s.market.userId) else none
  | .login username pwHash => (db.getUserId s.db username pwHash).1.toOption.join
  | _ => none

theorem reportedId_execute {c : Command} {reply : Bytes}
    (h : (Session.execute db s c).1 = .ok reply) :
    reportedId reply = Session.granted db s c := by
  cases c with
  | register username pwHash =>
    obtain ⟨exist, hexist, hreply⟩ := Serializer.registerUser_eq_ok.mp h
    rw [reportedId_replyOf (Serializer.writable_authReply rfl _) trivial hreply,
      reportedIn_authReply _ rfl, Session.granted, hexist]
    cases exist <;> rfl
  | login username pwHash =>
    obtain ⟨userId, hfound, hreply⟩ := Serializer.login_eq_ok.mp h
    rw [reportedId_replyOf (Serializer.writable_authReply rfl _) trivial hreply,
      reportedIn_authReply _ rfl, Session.granted, hfound]
    cases userId <;> rfl
  | balance u =>
    exact reportedId_readUser (fun _ => Serializer.writable_balanceReply _) (fun _ => trivial)
      (fun _ => rfl) h
  | activeOffers u =>
    exact reportedId_readUser (fun _ => Serializer.writable_activeOffersReply _)
      (fun _ => trivial) (fun _ => rfl) h
  | closedDeals u =>
    exact reportedId_readUser (fun _ => Serializer.writable_closedDealsReply _ _)
      (fun _ => trivial) (fun _ => rfl) h
  | post u type price amount =>
    simp only [Session.execute, Session.confirmed] at h
    split at h
    · rw [← Except.ok.inj h]
      show reportedId (text "\"Offer was posted.\"") = none
      decide +kernel
    · cases h
  | quotes =>
    simp only [Session.execute, Session.onMarket, Serializer.getQuotes] at h
    split at h
    · rw [reportedId_replyOf (Serializer.writable_quotesReply _ _) trivial h]
      rfl
    · cases h
  | cancel u i =>
    simp only [Session.execute, Session.onMarket, Serializer.cancelOffer] at h
    split at h
    · cases h
    · rw [reportedId_replyOf (Serializer.writable_cancelReply _) trivial h]
      rfl
  | unknown =>
    rw [← Except.ok.inj h]
    show reportedId (text "\"ERROR: Unknown request type\"") = none
    decide +kernel

end Replies

/-! The users and the rows after a command. -/

section Execute

variable {δ : Type} {db : Database δ} {s : Server δ} {a : Reference}

/-- Whether a command registers a user. -/
def Session.registers (db : Database δ) (s : Server δ) : Command → Bool
  | .register username _ => (db.usernameExist s.db username).1 = .ok false
  | _ => false

/-- A registration adds the user of the next id, and no other command adds or removes one. -/
theorem Stands.execute_users (db : Database δ) (h : Stands s.market a) (c : Command) :
    (Session.execute db s c).2.market.userId =
        (if Session.registers db s c then s.market.userId + 1 else s.market.userId) ∧
      ∀ v, ((Session.execute db s c).2.market.users.find? v).isSome ↔
        (s.market.users.find? v).isSome ∨
          (Session.registers db s c = true ∧ v = s.market.userId) := by
  rw [Session.execute_market]
  cases hop : c.call (db.usernameExist s.db) with
  | none =>
    have hno : Session.registers db s c = false := by
      cases c with
      | register username pwHash =>
        refine decide_eq_false fun hexist => ?_
        rw [Command.call_register.mpr ⟨false, hexist, rfl⟩] at hop
        cases hop
      | _ => rfl
    simp [hno]
  | some op =>
    have hregisters : Reference.registers op = Session.registers db s c := by
      cases c with
      | register username pwHash =>
        obtain ⟨exist, hexist, rfl⟩ := Command.call_register.mp hop
        rw [Session.registers, hexist]
        cases exist <;> rfl
      | login username pwHash => cases hop
      | unknown => cases hop
      | _ => rw [← Option.some.inj hop]; rfl
    rw [← hregisters]
    exact h.step_users op

end Execute

/-! What holds in a run. -/

section Run

variable {δ : Type} {db : Database δ} {rows : δ → List UserRow} {plain : Bytes → Prop}
  {same : UInt64 → UInt64 → Prop}

/-- The users of the market are those of the rows that the run did not find. -/
structure Tracks (rows : δ → List UserRow) (s : Server δ) (found : List UserRow) : Prop where
  id_lt : ∀ row ∈ rows s.db, row.1.toNat < s.market.userId
  known : ∀ row ∈ rows s.db, row ∈ found ∨ (s.market.users.find? row.1.toNat).isSome
  found : ∀ row ∈ found, row ∈ rows s.db ∧ row.1.toNat < 2 ^ 31 ∧
    ¬ (s.market.users.find? row.1.toNat).isSome

/-- No two rows have one name. -/
def Distinct (rows : δ → List UserRow) (table : δ) : Prop :=
  ((rows table).map fun row => row.2.1).Nodup

variable {s : Server δ} {a : Reference} {found : List UserRow} {c : Command}

/-- The rows after a command that registers a user. -/
theorem Database.Keeps.rows_execute (hdb : db.Keeps rows plain same)
    (hplain : ∀ username ∈ c.username, plain username) (ht : Tracks rows s found)
    (hcount : s.market.userId < 2 ^ 64) :
    rows (Session.execute db s c).2.db = rows s.db ∧ Session.registers db s c = false ∨
      ∃ row, rows (Session.execute db s c).2.db = rows s.db ++ [row] ∧
        row.1.toNat = s.market.userId ∧ (∀ row' ∈ rows s.db, row'.2.1 ≠ row.2.1) ∧
        Session.registers db s c = true := by
  rw [Session.execute_db]
  cases c with
  | register username pwHash =>
    have hname : plain username := hplain username rfl
    have hid : (UInt64.ofNat s.market.userId).toNat = s.market.userId := by
      rw [UInt64.toNat_ofNat', Nat.mod_eq_of_lt hcount]
    obtain ⟨hexist, hkept⟩ := hdb.exist s.db username hname
    obtain ⟨table, hanswer⟩ : ∃ table, db.usernameExist s.db username =
        (.ok ((rows s.db).any fun row => row.2.1 = username), table) :=
      ⟨_, Prod.ext hexist rfl⟩
    rw [hanswer] at hkept
    cases hany : (rows s.db).any fun row => row.2.1 = username with
    | true =>
      refine .inl ⟨?_, ?_⟩
      · simp only [Session.tableAfter, hanswer, hany]
        exact hkept
      · simp [Session.registers, hanswer, hany]
    | false =>
      have hnew : ∀ row ∈ rows table, row.1 ≠ .ofNat s.market.userId := by
        intro row hrow e
        have hlt := ht.id_lt row (hkept ▸ hrow)
        rw [e, hid] at hlt
        omega
      refine .inr ⟨(.ofNat s.market.userId, username, pwHash), ?_, hid, ?_, ?_⟩
      · simp only [Session.tableAfter, hanswer, hany]
        rw [hdb.added _ _ _ _ hname hnew, hkept]
      · intro row hrow e
        exact List.any_eq_false.mp hany row hrow (decide_eq_true e)
      · simp [Session.registers, hanswer, hany]
  | login username pwHash => exact .inl ⟨hdb.read _ _ _ (hplain username rfl), rfl⟩
  | _ => exact .inl ⟨rfl, rfl⟩

theorem Tracks.execute (hdb : db.Keeps rows plain same) (h : Stands s.market a)
    (ht : Tracks rows s found) (hplain : ∀ username ∈ c.username, plain username)
    (hcount : s.market.userId < 2 ^ 64) : Tracks rows (Session.execute db s c).2 found := by
  obtain ⟨hcounter, husers⟩ := h.execute_users db c
  rcases hdb.rows_execute hplain ht hcount with ⟨hrows, hno⟩ | ⟨row, hrows, hid, -, hyes⟩
  · have hsame : ∀ v, ((Session.execute db s c).2.market.users.find? v).isSome ↔
        (s.market.users.find? v).isSome := by
      intro v
      rw [husers, hno]
      simp
    rw [hno] at hcounter
    constructor
    case id_lt => rw [hrows, hcounter]; exact ht.id_lt
    case known =>
      intro r hr
      rw [hrows] at hr
      rw [hsame]
      exact ht.known r hr
    case found =>
      intro r hr
      rw [hrows, hsame]
      exact ht.found r hr
  · rw [hyes, if_pos rfl] at hcounter
    constructor
    case id_lt =>
      intro r hr
      rw [hrows] at hr
      rw [hcounter]
      rcases List.mem_append.mp hr with hr | hr
      · have hlt := ht.id_lt r hr
        omega
      · rw [List.mem_singleton.mp hr, hid]
        omega
    case known =>
      intro r hr
      rw [hrows] at hr
      rw [husers]
      rcases List.mem_append.mp hr with hr | hr
      · exact (ht.known r hr).imp_right .inl
      · rw [List.mem_singleton.mp hr]
        exact .inr (.inr ⟨hyes, hid⟩)
    case found =>
      intro r hr
      obtain ⟨hin, hsmall, hunknown⟩ := ht.found r hr
      have hlt := ht.id_lt r hin
      rw [hrows, husers]
      refine ⟨List.mem_append_left _ hin, hsmall, ?_⟩
      rintro (hknown | ⟨-, hnew⟩)
      · exact hunknown hknown
      · omega

theorem Distinct.execute (hdb : db.Keeps rows plain same) (hd : Distinct rows s.db)
    (ht : Tracks rows s found) (hplain : ∀ username ∈ c.username, plain username)
    (hcount : s.market.userId < 2 ^ 64) : Distinct rows (Session.execute db s c).2.db := by
  rcases hdb.rows_execute hplain ht hcount with ⟨hrows, -⟩ | ⟨row, hrows, -, hnew, -⟩
  · rw [Distinct, hrows]
    exact hd
  · rw [Distinct, hrows, List.map_append]
    apply List.Nodup.append hd (List.nodup_singleton _)
    intro name hname hrow
    obtain ⟨r, hr, rfl⟩ := List.mem_map.mp hname
    exact hnew r hr (List.mem_singleton.mp hrow)

/-- A row is the only one of its name. -/
theorem Distinct.eq_of_name {table : δ} (hd : Distinct rows table) {row row' : UserRow}
    (h : row ∈ rows table) (h' : row' ∈ rows table) (hname : row.2.1 = row'.2.1) : row = row' :=
  List.inj_on_of_nodup_map hd h h' hname

theorem granted_login {username : Bytes} {pwHash u : UInt64} :
    Session.granted db s (.login username pwHash) = some u ↔
      (db.getUserId s.db username pwHash).1 = .ok (some u) := by
  simp only [Session.granted]
  cases (db.getUserId s.db username pwHash).1 with
  | error e => exact ⟨nofun, nofun⟩
  | ok userId => cases userId <;> simp [Except.toOption]

/-- An id that a command is answered with is a user's, unless it is an old login. -/
theorem granted_known (hdb : db.Keeps rows plain same) (h : Stands s.market a)
    (ht : Tracks rows s found) (hplain : ∀ username ∈ c.username, plain username)
    (hcount : s.market.userId < 2 ^ 64)
    (hold : ∀ username pwHash, c = .login username pwHash →
      ∀ row ∈ found, ¬ (row.2.1 = username ∧ same row.2.2 pwHash))
    {u : UInt64} (hu : Session.granted db s c = some u) :
    ((Session.execute db s c).2.market.users.find? u.toNat).isSome := by
  obtain ⟨-, husers⟩ := h.execute_users db c
  rw [husers]
  cases c with
  | register username pwHash =>
    simp only [Session.granted] at hu
    split at hu
    · next hexist =>
      rw [← Option.some.inj hu, UInt64.toNat_ofNat', Nat.mod_eq_of_lt hcount]
      exact .inr ⟨by simp [Session.registers, hexist], rfl⟩
    · cases hu
  | login username pwHash =>
    obtain ⟨row, hrow, rfl, hname, hsame⟩ :=
      hdb.selected s.db username pwHash u (hplain username rfl) (granted_login.mp hu)
    rcases ht.known row hrow with hfound | hknown
    · exact absurd ⟨hname, hsame⟩ (hold username pwHash rfl row hfound)
    · exact .inl hknown
  | _ => cases hu

/-- An old login is answered with an id that is no user's. -/
theorem granted_unknown (hdb : db.Keeps rows plain same) (hd : Distinct rows s.db)
    (ht : Tracks rows s found) {username : Bytes} {pwHash : UInt64} (hplain : plain username)
    {row : UserRow} (hrow : row ∈ found) (hname : row.2.1 = username)
    (hsame : same row.2.2 pwHash) :
    ∃ u, Session.granted db s (.login username pwHash) = some u ∧
      ¬ (s.market.users.find? u.toNat).isSome := by
  obtain ⟨hin, hsmall, hunknown⟩ := ht.found row hrow
  have honly : ∀ row' ∈ rows s.db, row'.2.1 = username → row' = row :=
    fun row' hin' hname' => hd.eq_of_name hin' hin (hname'.trans hname.symm)
  obtain ⟨u, hu⟩ := hdb.selects s.db username pwHash hplain ⟨row, hin, hname, hsame⟩
    fun row' hin' hname' => honly row' hin' hname' ▸ hsmall
  obtain ⟨row', hin', rfl, hname', -⟩ := hdb.selected s.db username pwHash u hplain hu
  rw [← honly row' hin' hname'] at hunknown
  exact ⟨_, granted_login.mpr hu, hunknown⟩

end Run

/-! Runs one after the other. -/

namespace Process

variable {δ : Type} {db : Database δ} {rows : δ → List UserRow} {plain : Bytes → Prop}
  {same : UInt64 → UInt64 → Prop} {p : Process δ}

structure Sound (rows : δ → List UserRow) (p : Process δ) : Prop where
  stands : ∃ a, Stands p.server.market a
  distinct : Distinct rows p.server.db
  tracks : p.running = true → Tracks rows p.server p.found

/-- The ids reported are of users. -/
def Known (p : Process δ) : Prop :=
  ∀ u ∈ p.granted, (p.server.market.users.find? u.toNat).isSome

theorem usable_iff (h : Sound rows p) : p.Usable db ↔ p.Known := by
  constructor
  · exact fun hu u hgranted => (hu u hgranted).1
  · intro hknown u hgranted
    refine ⟨hknown u hgranted, fun request c hc huser => ?_⟩
    obtain ⟨a, hs⟩ := h.stands
    rw [Session.serve_eq, hc, Session.attempt_ok, Session.execute_isOk db hs,
      Session.answered_of_user huser]
    exact hknown u hgranted

theorem Sound.idle (table : δ) (hempty : rows table = []) : Sound rows (idle table) where
  stands := ⟨_, Stands.empty 0 0 0⟩
  distinct := by
    have hdb : (Process.idle table).server.db = table := rfl
    rw [Distinct, hdb, hempty]
    exact .nil
  tracks h := by cases h

theorem Sound.step (hdb : db.Keeps rows plain same) (h : Sound rows p) (e : Event)
    (hplain : Plain plain e) (hcount : Unwrapped p e) : Sound rows (p.step db rows e).2 := by
  cases e with
  | start offerId dealId =>
    simp only [Process.step]
    split
    · next userId hmax =>
      obtain ⟨hsmall, hids⟩ := getMaxId_ok hmax
      have hmem : ∀ row ∈ rows p.server.db, row.1.toNat < userId ∧ row.1.toNat < 2 ^ 31 := by
        intro row hrow
        have hlt := hids _ (List.mem_map.mpr ⟨row, hrow, rfl⟩)
        exact ⟨hlt, hlt.trans hsmall⟩
      refine ⟨⟨_, Stands.empty offerId dealId userId⟩, h.distinct, fun _ => ?_⟩
      exact ⟨fun row hrow => (hmem row hrow).1, fun row hrow => .inl hrow,
        fun row hrow => ⟨hrow, (hmem row hrow).2, by simp [Market.empty]⟩⟩
    · exact ⟨h.stands, h.distinct, fun hrun => by cases hrun⟩
  | request request =>
    simp only [Process.step]
    split
    · next hrun =>
      obtain ⟨a, hs⟩ := h.stands
      have ht := h.tracks hrun
      have hserver : ∀ r s, Session.serve db p.server request = (r, s) →
          (∃ a', Stands s.market a') ∧ Distinct rows s.db ∧ Tracks rows s p.found := by
        intro r s hserve
        rw [Session.serve_eq] at hserve
        cases hc : Session.commandOf request with
        | error e =>
          rw [hc] at hserve
          rw [← (Prod.mk.inj hserve).2]
          exact ⟨⟨a, hs⟩, h.distinct, ht⟩
        | ok c =>
          rw [hc, Session.attempt_ok] at hserve
          have hs' := congrArg Prod.snd hserve
          rw [← show _ = s from hs']
          exact ⟨Session.execute_stands hs c, h.distinct.execute hdb ht (hplain c hc) hcount,
            ht.execute hdb hs (hplain c hc) hcount⟩
      split
      · next hserve =>
        obtain ⟨hstands, hdistinct, htracks⟩ := hserver _ _ hserve
        exact ⟨hstands, hdistinct, fun _ => htracks⟩
      · next hserve =>
        obtain ⟨hstands, hdistinct, -⟩ := hserver _ _ hserve
        exact ⟨hstands, hdistinct, fun hrun => by cases hrun⟩
    · exact h

/-- No command takes a user away. -/
theorem find?_execute (h : Sound rows p) (c : Command) {v : Nat}
    (hv : (p.server.market.users.find? v).isSome) :
    ((Session.execute db p.server c).2.market.users.find? v).isSome := by
  obtain ⟨a, hs⟩ := h.stands
  rw [(hs.execute_users db c).2]
  exact .inl hv

/-- What serving a command adds to the ids reported. -/
theorem step_request (db : Database δ) (rows : δ → List UserRow) {request : Json} {c : Command}
    (hrun : p.running = true) (hc : Session.commandOf request = .ok c) :
    (p.step db rows (.request request)).2.server = (Session.execute db p.server c).2 ∧
      ((p.step db rows (.request request)).2.granted = p.granted ∨
        (p.step db rows (.request request)).2.granted =
          (Session.granted db p.server c).toList ++ p.granted) ∧
      ((Session.execute db p.server c).1.isOk →
        (p.step db rows (.request request)).2.granted =
          (Session.granted db p.server c).toList ++ p.granted) := by
  have hserve : Session.serve db p.server request = Session.execute db p.server c := by
    rw [Session.serve_eq, hc, Session.attempt_ok]
  simp only [Process.step, hrun, if_true, hserve]
  cases hexec : Session.execute db p.server c with
  | mk result s =>
    cases result with
    | ok reply =>
      have hreported := reportedId_execute db p.server (congrArg Prod.fst hexec)
      rw [← hreported]
      exact ⟨rfl, .inr rfl, fun _ => rfl⟩
    | error e => exact ⟨rfl, .inl rfl, fun hok => by cases hok⟩

theorem Known.step (hdb : db.Keeps rows plain same) (h : Sound rows p) (hk : p.Known) (e : Event)
    (hplain : Plain plain e) (hcount : Unwrapped p e) (hold : NoOldLogin same p e) :
    (p.step db rows e).2.Known := by
  cases e with
  | start offerId dealId =>
    simp only [Process.step]
    split
    · intro u hu
      cases hu
    · exact hk
  | request request =>
    cases hrun : p.running with
    | false =>
      simp only [Process.step, hrun, Bool.false_eq_true, if_false]
      exact hk
    | true =>
      cases hc : Session.commandOf request with
      | error e =>
        simp only [Process.step, hrun, if_true, Session.serve_eq, hc, Session.attempt_error]
        exact hk
      | ok c =>
        obtain ⟨hserver, hgranted, -⟩ := step_request db rows hrun hc
        obtain ⟨a, hs⟩ := h.stands
        intro u hu
        rw [hserver]
        have hcases : u ∈ p.granted ∨ Session.granted db p.server c = some u := by
          rcases hgranted with heq | heq
          · rw [heq] at hu
            exact .inl hu
          · rw [heq] at hu
            rcases List.mem_append.mp hu with hu | hu
            · exact .inr (Option.mem_toList.mp hu)
            · exact .inl hu
        rcases hcases with hu | hu
        · exact find?_execute h c (hk u hu)
        · refine granted_known hdb hs (h.tracks hrun) (hplain c hc) hcount ?_ hu
          rintro username pwHash rfl
          exact hold hrun username pwHash hc

/-- After an old login an id is reported that is no user's. -/
theorem not_known_step (hdb : db.Keeps rows plain same) (h : Sound rows p) {e : Event}
    (hplain : Plain plain e) (hold : ¬ NoOldLogin same p e) : ¬ (p.step db rows e).2.Known := by
  cases e with
  | start offerId dealId => exact absurd trivial hold
  | request request =>
    simp only [NoOldLogin, not_forall, not_not] at hold
    obtain ⟨hrun, username, pwHash, hc, row, hrow, hname, hsame⟩ := hold
    obtain ⟨u, hu, hunknown⟩ := granted_unknown hdb h.distinct (h.tracks hrun)
      (hplain _ hc username rfl) hrow hname hsame
    obtain ⟨hserver, -, hgranted⟩ := step_request db rows hrun hc
    have hok : (Session.execute db p.server (.login username pwHash)).1.isOk = true := by
      refine (Session.login_isOk username pwHash).trans ?_
      rw [granted_login.mp hu]
      rfl
    intro hk
    have hmem : u ∈ (p.step db rows (.request request)).2.granted := by
      rw [hgranted hok, hu]
      exact List.mem_append_left _ (List.mem_singleton_self u)
    have hknown := hk u hmem
    rw [hserver, Session.execute_market] at hknown
    exact hunknown hknown

/-- A condition on the event alone and one on the state hold along a run together. -/
theorem sound_along (hdb : db.Keeps rows plain same) {events : List Event}
    (hplain : ∀ e ∈ events, Plain plain e)
    (hcount : Machine.Along (Process.step db rows) Unwrapped p events) (h : Sound rows p) :
    Sound rows (Machine.exec (Process.step db rows) p events) := by
  induction events generalizing p with
  | nil => exact h
  | cons e events ih =>
    obtain ⟨he, hrest⟩ := hcount
    exact ih (fun e' he' => hplain e' (List.mem_cons_of_mem e he')) hrest
      (h.step hdb e (hplain e List.mem_cons_self) he)

end Process

open Process

/-- In every history of runs over one database, all ids reported stay usable exactly when there is
no login with the name and the hash of a user that an earlier run registered. -/
theorem ids_usable_iff {δ : Type} (db : Database δ) (rows : δ → List UserRow)
    (plain : Bytes → Prop) (same : UInt64 → UInt64 → Prop) (hdb : db.Keeps rows plain same)
    (table : δ) (hempty : rows table = []) (events : List Event)
    (hplain : ∀ e ∈ events, Plain plain e)
    (hcount : Machine.Along (Process.step db rows) Unwrapped (idle table) events) :
    (∀ pre, pre <+: events →
      (Machine.exec (Process.step db rows) (idle table) pre).Usable db) ↔
    Machine.Along (Process.step db rows) (NoOldLogin same) (idle table) events := by
  have hsound : ∀ pre, pre <+: events →
      Sound rows (Machine.exec (Process.step db rows) (idle table) pre) := by
    rintro pre ⟨post, rfl⟩
    exact sound_along hdb (fun e he => hplain e (List.mem_append_left _ he))
      ((Machine.along_append _ _ _).mp hcount).1 (Sound.idle table hempty)
  have hstep : ∀ pre e, pre ++ [e] <+: events → Plain plain e ∧
      Unwrapped (Machine.exec (Process.step db rows) (idle table) pre) e := by
    intro pre e hpre
    refine ⟨hplain e (hpre.subset ?_), (Machine.along_iff _ _).mp hcount pre e hpre⟩
    exact List.mem_append_right _ (List.mem_singleton_self e)
  constructor
  · intro husable
    refine (Machine.along_iff _ _).mpr fun pre e hpre => ?_
    by_contra hold
    have hbefore := hsound pre ((List.prefix_append pre [e]).trans hpre)
    have hafter := husable (pre ++ [e]) hpre
    rw [usable_iff (hsound _ hpre), Machine.exec_concat] at hafter
    exact not_known_step hdb hbefore (hstep pre e hpre).1 hold hafter
  · intro hold pre hpre
    rw [usable_iff (hsound pre hpre)]
    -- by induction on the events of the prefix, the last one last
    induction pre using List.reverseRecOn with
    | nil => intro u hu; cases hu
    | append_singleton pre e ih =>
      have hpre' := (List.prefix_append pre [e]).trans hpre
      rw [Machine.exec_concat]
      exact (ih hpre').step hdb (hsound pre hpre') e (hstep pre e hpre).1 (hstep pre e hpre).2
        ((Machine.along_iff _ _).mp hold pre e hpre)

/-- The list of rows keeps them. -/
theorem userTable_keeps : userTable.Keeps id (fun _ => True) (· = ·) where
  added _ _ _ _ _ _ := rfl
  exist _ _ _ := ⟨rfl, rfl⟩
  read table username pwHash _ := by
    simp only [userTable]
    split <;> rfl
  selected table username pwHash userId _ h := by
    simp only [userTable] at h
    split at h
    · cases h
    · next row hfind =>
      have hrow : row.2 = (username, pwHash) := by simpa using List.find?_some hfind
      refine ⟨row, List.mem_of_find?_eq_some hfind, ?_, congrArg Prod.fst hrow,
        congrArg Prod.snd hrow⟩
      unfold userIdOf at h
      split at h
      · exact Option.some.inj (Except.ok.inj h)
      · cases h
  selects table username pwHash _ hrow hsmall := by
    obtain ⟨row, hrow, hname, hsame⟩ := hrow
    have hmatch : row.2 = (username, pwHash) := Prod.ext hname hsame
    have hsome : (table.find? fun row => row.2 = (username, pwHash)).isSome :=
      List.find?_isSome.mpr ⟨row, hrow, decide_eq_true hmatch⟩
    obtain ⟨row', hfind⟩ := Option.isSome_iff_exists.mp hsome
    have hrow' : row'.2 = (username, pwHash) := by simpa using List.find?_some hfind
    have hlt := hsmall row' (List.mem_of_find?_eq_some hfind) (congrArg Prod.fst hrow')
    refine ⟨row'.1, ?_⟩
    simp only [userTable, hfind, userIdOf, if_pos hlt]
    rfl

/-- A user registers, and logs in after a restart. -/
def relogin : List Event :=
  [.start 0 0, .request (ClientRequest.register (text "user") 1).toJson, .start 0 0,
    .request (ClientRequest.login (text "user") 1).toJson]

theorem relogin_usable_iff :
    (∀ pre, pre <+: relogin →
      (Machine.exec (Process.step userTable id) (idle []) pre).Usable userTable) ↔
    Machine.Along (Process.step userTable id) (NoOldLogin (· = ·)) (idle []) relogin := by
  refine ids_usable_iff userTable id _ _ userTable_keeps [] rfl relogin (fun e _ => ?_) ?_
  · cases e with
    | start offerId dealId => trivial
    | request request => exact fun _ _ _ _ => trivial
  · exact ⟨by decide +kernel, by decide +kernel, by decide +kernel, by decide +kernel, trivial⟩

/-- The login is answered with the id 0, which the market of the second run does not know. -/
theorem relogin_not_usable :
    ¬ ∀ pre, pre <+: relogin →
      (Machine.exec (Process.step userTable id) (idle []) pre).Usable userTable := by
  intro husable
  have hknown := (husable relogin (List.prefix_refl _) 0 (by decide +kernel)).1
  exact absurd hknown (by decide +kernel)

end ForexMarket
