import ForexMarket.Theorems.UserNames

/- Which hashes log a user in. The hash is written as a literal and compared as a number. Up
   to 2^63 - 1 a literal is the integer that it is; from there on it is the nearest double,
   2048 apart, so a hash of this half logs in as well as another one next to it. And an id
   from 2^31 on is stored but not read back. -/
namespace ForexMarket

open Sql (Plain)

/-! Literals. -/

namespace DBManager

/-- Two hashes that are read as one double. -/
def Confused (h h' : UInt64) : Prop :=
  h ≠ h' ∧ 2 ^ 63 ≤ h.toNat ∧ 2 ^ 63 ≤ h'.toNat ∧
    Double.nearest h.toNat = Double.nearest h'.toNat

/-- Such hashes are 2048 apart at most. -/
theorem Confused.near {h h' : UInt64} (hconfused : Confused h h') :
    h.toNat ≤ h'.toNat + 2048 ∧ h'.toNat ≤ h.toNat + 2048 := by
  obtain ⟨-, hbig, hbig', heq⟩ := hconfused
  have hnear := Double.nearest_near h.toNat
  have hnear' := Double.nearest_near h'.toNat
  rw [Double.place_of_top hbig h.toNat_lt] at hnear
  rw [Double.place_of_top hbig' h'.toNat_lt] at hnear'
  omega

theorem le_numberOf {n : Nat} (h : 2 ^ 63 ≤ n) : 2 ^ 63 ≤ numberOf n := by
  rw [numberOf, if_neg (by omega)]
  exact Double.le_nearest_of_le h

theorem numberOf_of_lt {n : Nat} (h : n < 2 ^ 63) : numberOf n = n := if_pos h

/-- Hashes compare as the numbers they are, up to the doubles. -/
theorem numberOf_eq_iff {h h' : UInt64} :
    numberOf h.toNat = numberOf h'.toNat ↔ h = h' ∨ Confused h h' := by
  constructor
  · intro heq
    by_cases hne : h = h'
    · exact .inl hne
    · have hnat : h.toNat ≠ h'.toNat := fun e => hne (UInt64.toNat_inj.mp e)
      by_cases hbig : 2 ^ 63 ≤ h.toNat
      · have hle := le_numberOf hbig
        by_cases hbig' : 2 ^ 63 ≤ h'.toNat
        · rw [numberOf, numberOf, if_neg (by omega), if_neg (by omega)] at heq
          exact .inr ⟨hne, hbig, hbig', heq⟩
        · rw [heq, numberOf_of_lt (by omega)] at hle
          exact absurd hle hbig'
      · rw [numberOf_of_lt (by omega)] at heq
        by_cases hbig' : 2 ^ 63 ≤ h'.toNat
        · have hle := le_numberOf hbig'
          rw [← heq] at hle
          exact absurd hle hbig
        · rw [numberOf_of_lt (by omega)] at heq
          exact absurd heq hnat
  · rintro (rfl | ⟨-, hbig, hbig', heq⟩)
    · rfl
    · rw [numberOf, numberOf, if_neg (by omega), if_neg (by omega), heq]

end DBManager

open DBManager

/-! Registrations. -/

/-- A name and the hash of a password. -/
abbrev Registration := Bytes × UInt64

variable (other : Database Users)

/-- The reply to a registration, and the server after it. -/
def Registration.serve (s : Server Users) (r : Registration) :
    Except Exception Bytes × Server Users :=
  Serializer.registerUser (sqlite other) s r.1 r.2

def Registration.serveAll (s : Server Users) (regs : List Registration) : Server Users :=
  Machine.exec (Registration.serve other) s regs

theorem Registration.serveAll_cons (s : Server Users) (r : Registration)
    (regs : List Registration) : Registration.serveAll other s (r :: regs) =
      Registration.serveAll other (Registration.serve other s r).2 regs :=
  Machine.exec_cons s r regs

/-- A server that has started over an empty table of users. -/
def freshServer (offerId dealId : Nat) : Server Users :=
  { market := Market.empty offerId dealId 0, db := .empty }

/-- The reply reports the id with success. -/
def Reports (reply : Except Exception Bytes) (u : UInt64) : Prop :=
  ∃ text, reply = .ok text ∧ reportedId text = some u

section Reports

variable {δ : Type} {db : Database δ} {s : Server δ}

/-- The server after the registration of a new name. -/
theorem registerUser_new {username : Bytes} {pwHash : UInt64}
    {table : δ} (h : db.usernameExist s.db username = (.ok false, table)) :
    (Serializer.registerUser db s username pwHash).2 =
      { market := (s.market.registerUser (nameOf username) false).2,
        db := db.addUser table (.ofNat s.market.userId) username pwHash } := by
  rw [Serializer.registerUser, h]
  rfl

/-- A reply reports the id that its command is answered with. -/
theorem reports_iff {c : Command} (hok : (Session.execute db s c).1.isOk = true) {u : UInt64} :
    Reports (Session.execute db s c).1 u ↔ Session.granted db s c = some u := by
  cases hreply : (Session.execute db s c).1 with
  | error e =>
    rw [hreply] at hok
    cases hok
  | ok reply =>
    rw [← reportedId_execute db s hreply]
    constructor
    · rintro ⟨_, htext, hu⟩
      rw [Except.ok.inj htext]
      exact hu
    · exact fun hu => ⟨reply, rfl, hu⟩

theorem reports_login {username : Bytes} {pwHash u : UInt64} :
    Reports (Serializer.login db s username pwHash).1 u ↔
      (db.getUserId s.db username pwHash).1 = .ok (some u) := by
  cases hfound : (db.getUserId s.db username pwHash).1 with
  | error e =>
    refine ⟨fun h => ?_, nofun⟩
    obtain ⟨_, h, -⟩ := h
    obtain ⟨_, hok, -⟩ := Serializer.login_eq_ok.mp h
    cases hfound.symm.trans hok
  | ok userId =>
    have hok : (Serializer.login db s username pwHash).1.isOk = true := by
      rw [Session.login_isOk, hfound]
      rfl
    rw [← hfound]
    exact (reports_iff (c := .login username pwHash) hok).trans granted_login

end Reports

/-- What is stored after some registrations from a fresh server. -/
structure Registered (regs : List Registration) (s : Server Users) : Prop where
  userId : s.market.userId = regs.length
  row : ∀ row ∈ s.db.rows, regs[row.1.toNat]? = some row.2
  stored : ∀ i r, regs[i]? = some r → i < 2 ^ 64 → (UInt64.ofNat i, r) ∈ s.db.rows

/-- Names that are read as the strings they are. -/
def PlainNames (regs : List Registration) : Prop :=
  ∀ r ∈ regs, Plain r.1 ∧ ¬ NamesColumn r.1

instance (regs : List Registration) : Decidable (PlainNames regs) :=
  inferInstanceAs (Decidable (∀ r ∈ regs, _))

/-- Under distinct names each one is new when it is registered. -/
theorem new_of_nodup {before after : List Registration} {r : Registration}
    (h : ((before ++ r :: after).map Prod.fst).Nodup) : r.1 ∉ before.map Prod.fst := by
  rw [List.map_append, List.map_cons, List.nodup_append] at h
  exact fun hmem => h.2.2 _ hmem _ List.mem_cons_self rfl

section Register

variable {other} {regs : List Registration} {s : Server Users} {r : Registration}

theorem Registered.fresh (offerId dealId : Nat) : Registered [] (freshServer offerId dealId) where
  userId := rfl
  row := nofun
  stored i r h := by cases h

/-- A new name is not in the table. -/
theorem Registered.not_exist (h : Registered regs s) (hplain : Plain r.1 ∧ ¬ NamesColumn r.1)
    (hnew : r.1 ∉ regs.map Prod.fst) :
    (sqlite other).usernameExist s.db r.1 = (.ok false, s.db) := by
  have hany : (s.db.rows.any fun row => row.2.1 = r.1) = false := by
    rw [List.any_eq_false]
    intro row hrow hname
    apply hnew
    have hmem := List.mem_of_getElem? (h.row row hrow)
    exact List.mem_map.mpr ⟨row.2, hmem, of_decide_eq_true hname⟩
  rw [sqlite_usernameExist other s.db hplain.1 (columnOf_eq_none_iff.mpr hplain.2), hany]

theorem Registered.step (h : Registered regs s) (hplain : Plain r.1 ∧ ¬ NamesColumn r.1)
    (hnew : r.1 ∉ regs.map Prod.fst) :
    Registered (regs ++ [r]) (Registration.serve other s r).2 := by
  have hexist : (sqlite other).usernameExist s.db r.1 = (.ok false, s.db) :=
    h.not_exist hplain hnew
  have hafter : (Registration.serve other s r).2 =
      { market := (s.market.registerUser (nameOf r.1) false).2,
        db := s.db.insert (UInt64.ofNat s.market.userId, r.1, r.2) } := by
    rw [Registration.serve, registerUser_new hexist, sqlite_addUser other s.db hplain.1]
  rw [hafter, h.userId]
  have hlt : ∀ row ∈ s.db.rows, row.1.toNat < regs.length := by
    intro row hrow
    obtain ⟨hlt, -⟩ := List.getElem?_eq_some_iff.mp (h.row row hrow)
    exact hlt
  constructor
  case userId => simp [Market.registerUser, h.userId]
  case row =>
    intro row hrow
    rcases KeyTable.mem_insert.mp hrow with hrow | ⟨rfl, hfree⟩
    · rw [List.getElem?_append_left (hlt row hrow)]
      exact h.row row hrow
    · have hsmall : regs.length < 2 ^ 64 := by
        -- else all ids are taken
        by_contra hbig
        have hmod : regs.length % 2 ^ 64 < regs.length := by omega
        have htaken := h.stored _ _ (List.getElem?_eq_getElem hmod) (by omega)
        refine KeyTable.free_iff.mp hfree _ htaken (UInt64.toNat_inj.mp ?_)
        rw [UInt64.toNat_ofNat', UInt64.toNat_ofNat', Nat.mod_mod]
      rw [UInt64.toNat_ofNat_of_lt' hsmall, List.getElem?_concat_length]
  case stored =>
    intro i r' hr' hi
    refine KeyTable.mem_insert.mpr ?_
    by_cases hold : i < regs.length
    · rw [List.getElem?_append_left hold] at hr'
      exact .inl (h.stored i r' hr' hi)
    · obtain ⟨hlen, -⟩ := List.getElem?_eq_some_iff.mp hr'
      rw [List.length_append, List.length_singleton] at hlen
      obtain rfl : i = regs.length := by omega
      rw [List.getElem?_concat_length] at hr'
      obtain rfl := Option.some.inj hr'
      refine .inr ⟨rfl, KeyTable.free_iff.mpr fun row hrow hid => ?_⟩
      have hrowlt := hlt row hrow
      rw [show row.1 = UInt64.ofNat regs.length from hid, UInt64.toNat_ofNat_of_lt' hi] at hrowlt
      exact Nat.lt_irrefl _ hrowlt

/-- Registrations under distinct names, one after the other. -/
theorem Registered.exec (other : Database Users) {regs' : List Registration}
    (h : Registered regs s) (hplain : PlainNames regs')
    (hnames : ((regs ++ regs').map Prod.fst).Nodup) :
    Registered (regs ++ regs') (Registration.serveAll other s regs') := by
  induction regs' generalizing regs s with
  | nil =>
    rw [List.append_nil]
    exact h
  | cons r regs' ih =>
    have hnew : r.1 ∉ regs.map Prod.fst := new_of_nodup hnames
    rw [List.append_cons] at hnames ⊢
    rw [Registration.serveAll_cons]
    exact ih (h.step (hplain r List.mem_cons_self) hnew)
      (fun r' hr' => hplain r' (List.mem_cons_of_mem r hr')) hnames

/-- A name that is new is registered, under the next id. -/
theorem Registered.reports (h : Registered regs s) (hplain : Plain r.1 ∧ ¬ NamesColumn r.1)
    (hnew : r.1 ∉ regs.map Prod.fst) :
    Reports (Registration.serve other s r).1 (.ofNat regs.length) := by
  have hexist : (sqlite other).usernameExist s.db r.1 = (.ok false, s.db) :=
    h.not_exist hplain hnew
  have hok : (Registration.serve other s r).1.isOk = true := by
    rw [Registration.serve, Session.registerUser_isOk, hexist]
    rfl
  refine (reports_iff (c := .register r.1 r.2) hok).mpr ?_
  rw [Session.granted, hexist, h.userId]
  rfl

/-- A registered user is logged in by the hashes that are read as the same number, as long as the
id is read. -/
theorem Registered.login_iff (other : Database Users) (h : Registered regs s)
    (hplain : PlainNames regs) (hnames : (regs.map Prod.fst).Nodup) {i : Nat}
    (hr : regs[i]? = some r) {pwHash u : UInt64} :
    Reports (Serializer.login (sqlite other) s r.1 pwHash).1 u ↔
      i < 2 ^ 31 ∧ numberOf r.2.toNat = numberOf pwHash.toNat ∧ u = .ofNat i := by
  have hname := hplain r (List.mem_of_getElem? hr)
  have hstring := columnOf_eq_none_iff.mpr hname.2
  have honly : ∀ row ∈ s.db.rows, row.2.1 = r.1 → row.1.toNat = i ∧ row.2 = r := by
    intro row hrow hsame
    have hat := h.row row hrow
    obtain ⟨hlt, -⟩ := List.getElem?_eq_some_iff.mp hat
    have hindex : row.1.toNat = i := by
      refine (List.getElem?_inj (by rwa [List.length_map]) hnames).mp ?_
      rw [List.getElem?_map, List.getElem?_map, hat, hr]
      exact congrArg some hsame
    rw [hindex, hr] at hat
    exact ⟨hindex, (Option.some.inj hat).symm⟩
  rw [reports_login]
  constructor
  · intro hfound
    obtain ⟨hsmall, row, hrow, rfl, hsame, hhash⟩ := getUserId_eq_some other hname.1 hstring hfound
    obtain ⟨rfl, rfl⟩ := honly row hrow hsame
    exact ⟨hsmall, hhash, UInt64.ofNat_toNat.symm⟩
  · rintro ⟨hsmall, hhash, rfl⟩
    have hrow := h.stored i r hr (by omega)
    obtain ⟨u, hfound⟩ := (sqlite_keeps other).selects s.db r.1 pwHash hname
      ⟨_, hrow, rfl, hhash⟩ fun row hrow hsame => by rwa [(honly row hrow hsame).1]
    obtain ⟨-, row, hrow, rfl, hsame, -⟩ := getUserId_eq_some other hname.1 hstring hfound
    rw [← (honly row hrow hsame).1, UInt64.ofNat_toNat]
    exact hfound

end Register

/-! The hash a user registered with. -/

/-- The user who registered with the first hash is logged in by the second one exactly when that is
the same, and under the id of the registration. -/
structure LoginExact (other : Database Users) (start : Server Users) (before : List Registration)
    (username : Bytes) (h h' : UInt64) (after : List Registration) : Prop where
  succeeds : (∃ u, Reports (Serializer.login (sqlite other) (Registration.serveAll other start
    (before ++ (username, h) :: after)) username h').1 u) ↔ h' = h
  sameId : ∀ u, Reports (Serializer.login (sqlite other) (Registration.serveAll other start
      (before ++ (username, h) :: after)) username h').1 u →
    Reports (Registration.serve other (Registration.serveAll other start before) (username, h)).1 u

section Login

variable (other : Database Users) (offerId dealId : Nat) {before after : List Registration}
  {username : Bytes} {h : UInt64}

/-- The registration is answered with the next id. -/
theorem reports_registration
    (hplain : PlainNames (before ++ (username, h) :: after))
    (hnames : ((before ++ (username, h) :: after).map Prod.fst).Nodup) :
    Reports (Registration.serve other
      (Registration.serveAll other (freshServer offerId dealId) before) (username, h)).1
        (.ofNat before.length) := by
  have hbefore : PlainNames before := fun r hr => hplain r (List.mem_append_left _ hr)
  have hnew : username ∉ before.map Prod.fst := new_of_nodup hnames
  rw [List.map_append, List.nodup_append] at hnames
  have hregistered := (Registered.fresh offerId dealId).exec other hbefore hnames.1
  exact hregistered.reports (hplain _ (by simp)) hnew

/-- The hashes that log the user in afterwards. -/
theorem reports_login_iff
    (hplain : PlainNames (before ++ (username, h) :: after))
    (hnames : ((before ++ (username, h) :: after).map Prod.fst).Nodup) (h' u : UInt64) :
    Reports (Serializer.login (sqlite other) (Registration.serveAll other
        (freshServer offerId dealId) (before ++ (username, h) :: after)) username h').1 u ↔
      before.length < 2 ^ 31 ∧ (h = h' ∨ Confused h h') ∧ u = .ofNat before.length := by
  have hat : (before ++ (username, h) :: after)[before.length]? = some (username, h) := by simp
  have hregistered := (Registered.fresh offerId dealId).exec other hplain hnames
  rw [← numberOf_eq_iff]
  exact hregistered.login_iff other hplain hnames hat

end Login

/-- A login needs the exact hash exactly when no two hashes are read as one double, for the ids
that are read back; for the others, only a login with another hash ends as it should. -/
theorem login_exact_iff (other : Database Users) (offerId dealId : Nat)
    {before after : List Registration} {username : Bytes} {h : UInt64}
    (hplain : PlainNames (before ++ (username, h) :: after))
    (hnames : ((before ++ (username, h) :: after).map Prod.fst).Nodup) (h' : UInt64) :
    LoginExact other (freshServer offerId dealId) before username h h' after ↔
      if before.length < 2 ^ 31 then ¬ Confused h h' else h' ≠ h := by
  have hlogin := reports_login_iff other offerId dealId hplain hnames h'
  have hsame : ∀ u, Reports (Serializer.login (sqlite other) (Registration.serveAll other
      (freshServer offerId dealId) (before ++ (username, h) :: after)) username h').1 u →
        Reports (Registration.serve other (Registration.serveAll other (freshServer offerId dealId)
          before) (username, h)).1 u := by
    intro u hu
    obtain ⟨-, -, rfl⟩ := (hlogin u).mp hu
    exact reports_registration other offerId dealId hplain hnames
  by_cases hsmall : before.length < 2 ^ 31
  · rw [if_pos hsmall]
    constructor
    · intro hexact hconfused
      have heq := hexact.succeeds.mp ⟨_, (hlogin _).mpr ⟨hsmall, .inr hconfused, rfl⟩⟩
      exact hconfused.1 heq.symm
    · refine fun hclear => ⟨⟨fun hu => ?_, fun heq => ?_⟩, hsame⟩
      · obtain ⟨u, hu⟩ := hu
        exact (((hlogin u).mp hu).2.1.resolve_right hclear).symm
      · exact ⟨_, (hlogin _).mpr ⟨hsmall, .inl heq.symm, rfl⟩⟩
  · rw [if_neg hsmall]
    constructor
    · intro hexact heq
      obtain ⟨u, hu⟩ := hexact.succeeds.mpr heq
      exact hsmall ((hlogin u).mp hu).1
    · refine fun hne => ⟨⟨fun hu => ?_, fun heq => absurd heq hne⟩, hsame⟩
      obtain ⟨u, hu⟩ := hu
      exact absurd ((hlogin u).mp hu).1 hsmall

/-- A hash of the lower half, with another user before and one after. -/
theorem seller_login_exact :
    LoginExact failing (freshServer 0 0) [(text "buyer", 7)] (text "seller") 5 6
        [(text "broker", 9)] ↔
      if [((text "buyer", 7) : Registration)].length < 2 ^ 31 then ¬ Confused 5 6
      else (6 : UInt64) ≠ 5 :=
  login_exact_iff failing 0 0 (by decide +kernel) (by decide +kernel) 6

/-- The hash 2^63 + 1 logs a user in who registered with 2^63. -/
theorem nextHash_not_exact :
    ¬ LoginExact failing (freshServer 0 0) [] (text "user") 9223372036854775808
      9223372036854775809 [] := by
  intro hexact
  have hconfused : Confused 9223372036854775808 9223372036854775809 := by
    refine ⟨by decide, by decide, by decide, ?_⟩
    decide +kernel
  have hplain : PlainNames ([] ++ [(text "user", 9223372036854775808)]) := by decide +kernel
  have hlogin := (reports_login_iff failing 0 0 hplain (List.nodup_singleton _)
    9223372036854775809 0).mpr ⟨by decide, .inr hconfused, rfl⟩
  exact hconfused.1 (hexact.succeeds.mp ⟨0, hlogin⟩).symm

end ForexMarket
