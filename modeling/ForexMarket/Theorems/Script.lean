import ForexMarket.Spec.Script
import ForexMarket.Theorems.Clients

/- What is typed is what is asked for. Each prompt reads the line that is meant for it, after the
   lines it asks for again, and leaves the lines of the next ones (`safeIntInput_enters`,
   `getAuthInfo_words`). So each turn in which a client asks for an entry makes the request
   of the next entry, and no other turn touches what is typed (`script_asked`). -/
namespace ForexMarket

open Istream (At)

namespace Client

variable {predicate : Int → Bool} {cin : Istream} {n : Int} {ls ms : List Bytes}

/-- The loop of `SafeIntInput` goes over the lines that are asked for again and ends with the
integer, with the lines after it left. -/
theorem safeIntInput_enters (h : Enters predicate n ls) {fuel : Nat} (hcin : cin.At (ls ++ ms))
    (hfuel : cin.rest.length ≤ fuel) (var : Int) :
    ∃ cin', safeIntInput predicate fuel cin var = some (n, cin') ∧ cin'.At ms := by
  induction h generalizing cin fuel var with
  | line hl hn =>
    have hpos := List.length_pos_iff.mpr hcin.rest_ne_nil
    obtain ⟨fuel, rfl⟩ := Nat.exists_eq_add_of_le' (Nat.lt_of_lt_of_le hpos hfuel)
    obtain ⟨hpeek, hat⟩ := hcin.extract hl var
    exact ⟨_, safeIntInput_stop fuel hpeek hn, hat⟩
  | @slip l ls hl _ ih =>
    by_cases hblank : l.dropWhile Istream.isSpace = []
    · exact ih (hcin.blank (List.dropWhile_eq_nil_iff.mp hblank)) hfuel var
    · have hne := hcin.rest_ne_nil
      have hpos := List.length_pos_iff.mpr hne
      obtain ⟨fuel, rfl⟩ := Nat.exists_eq_add_of_le' (Nat.lt_of_lt_of_le hpos hfuel)
      have hlt : (cin.next (-2 ^ 31) (2 ^ 31 - 1) var).rest.length < cin.rest.length :=
        Istream.length_next_lt hne var
      rw [safeIntInput_next fuel fun m hm => hl.2 m ((hcin.peek hblank).symm.trans hm)]
      exact ih (hcin.next hl.1 hblank var) (by omega) _

theorem intInput_enters (h : Enters predicate n ls) (hcin : cin.At (ls ++ ms)) :
    ∃ cin', intInput predicate cin = some (n, cin') ∧ cin'.At ms :=
  safeIntInput_enters h hcin le_rfl 0

/-- Where only blanks are left an integer is asked for for ever. -/
theorem intInput_nil (hcin : cin.At []) (predicate : Int → Bool) :
    intInput predicate cin = none := by
  cases hread : intInput predicate cin with
  | none => rfl
  | some result =>
    obtain ⟨blanks, hblanks, hrest⟩ := hcin.rest
    have hblank : Istream.Blank cin.rest := by
      rw [hrest, show Istream.typed [] = [] from rfl, List.append_nil]
      exact hblanks
    exact absurd (safeIntInput_sound hread).1 (Istream.not_offers_of_blank hcin.good hblank)

/-- A name and a password are read as the two words they are typed in. -/
theorem getAuthInfo_words {username password : Bytes} (h : Words username password ls)
    (hcin : cin.At (ls ++ ms)) :
    (getAuthInfo cin).1 = (username, password) ∧ (getAuthInfo cin).2.At ms := by
  obtain ⟨husername, hpassword, before, between, after, hbefore, hbetween, hne, hafter, hne',
    htext⟩ := h
  obtain ⟨b, between, rfl⟩ := List.exists_cons_of_ne_nil hne
  obtain ⟨a, after, rfl⟩ := List.exists_cons_of_ne_nil hne'
  obtain ⟨blanks, hblanks, hrest⟩ := hcin.rest
  rw [Istream.typed_append, htext] at hrest
  have hrest₁ : cin.rest = (blanks ++ before) ++ (username ++
      b :: (between ++ (password ++ a :: (after ++ Istream.typed ms)))) := by
    rw [hrest]
    simp
  obtain ⟨hname, hgood, hrest₂⟩ := Istream.extractWord_eq hcin.good hrest₁
    (hblanks.append hbefore) husername (hbetween b List.mem_cons_self) []
  rw [← List.cons_append] at hrest₂
  obtain ⟨hpw, hgood', hrest₃⟩ := Istream.extractWord_eq hgood hrest₂ hbetween hpassword
    (hafter a List.mem_cons_self) []
  exact ⟨Prod.ext hname hpw, hgood', a :: after, hafter, hrest₃⟩

/-! What the entries ask for. -/

variable {hash : Bytes → UInt64} {userId : UInt64}

/-- After the choice a name and a password are read, whichever it is. -/
theorem processAuthentication_of {option : Int} (hls : Enters authOption option ls)
    {username password : Bytes} {ms rest : List Bytes} (hms : Words username password ms)
    (hcin : cin.At (ls ++ ms ++ rest)) :
    ∃ cin', processAuthentication hash cin =
        some (if option = 1 then .register username (hash password)
          else .login username (hash password), cin') ∧ cin'.At rest := by
  rw [List.append_assoc] at hcin
  obtain ⟨cin₁, hread, hcin₁⟩ := intInput_enters hls hcin
  obtain ⟨hinfo, hat⟩ := getAuthInfo_words hms hcin₁
  refine ⟨_, ?_, hat⟩
  have hread' : intInput (fun var => var = 1 ∨ var = 2) cin = some (option, cin₁) := hread
  simp only [processAuthentication, hread', Option.bind_eq_bind, Option.bind_some, hinfo]
  split <;> rfl

/-- The first of the integers is read, and the others are left. -/
theorem bind_enters {α : Type} {prompts : List ((Int → Bool) × Int)}
    (h : EntersAll ((predicate, n) :: prompts) ls) (hcin : cin.At (ls ++ ms))
    (f : Int × Istream → Option α) :
    ∃ cin' rest, intInput predicate cin >>= f = f (n, cin') ∧ EntersAll prompts rest ∧
      cin'.At (rest ++ ms) := by
  cases h with
  | @cons _ _ _ _ rest hls hms =>
    rw [List.append_assoc] at hcin
    obtain ⟨cin', hread, hcin'⟩ := intInput_enters hls hcin
    exact ⟨cin', rest, by rw [hread]; rfl, hms, hcin'⟩

theorem at_of_entersAll_nil (h : EntersAll [] ls) (hcin : cin.At (ls ++ ms)) : cin.At ms := by
  cases h
  exact hcin

theorem postOfferRequest_typed {side amount price : Int}
    (h : EntersAll (Choice.postOffer side amount price).prompts ls) (hcin : cin.At (ls ++ ms)) :
    ∃ cin', postOfferRequest userId cin = some (.postOffer userId side amount price, cin') ∧
      cin'.At ms := by
  obtain ⟨cin₁, ls₁, hside, h₁, hcin₁⟩ := bind_enters h hcin _
  obtain ⟨cin₂, ls₂, hamount, h₂, hcin₂⟩ := bind_enters h₁ hcin₁ _
  obtain ⟨cin₃, ls₃, hprice, h₃, hcin₃⟩ := bind_enters h₂ hcin₂ _
  exact ⟨cin₃, hside.trans (hamount.trans hprice), at_of_entersAll_nil h₃ hcin₃⟩

theorem cancleOfferRequest_typed {offerId : Int}
    (h : EntersAll (Choice.cancelOffer offerId).prompts ls) (hcin : cin.At (ls ++ ms)) :
    ∃ cin', cancleOfferRequest userId cin = some (.cancelOffer userId offerId, cin') ∧
      cin'.At ms := by
  obtain ⟨cin₁, ls₁, hid, h₁, hcin₁⟩ := bind_enters h hcin _
  exact ⟨cin₁, hid, at_of_entersAll_nil h₁ hcin₁⟩

theorem sendRequest_typed (userId : UInt64) {c : Choice} (h : EntersAll c.prompts ls)
    (hcin : cin.At (ls ++ ms)) :
    ∃ cin', sendRequest c.type userId cin = some (c.request userId, cin') ∧ cin'.At ms := by
  cases c with
  | postOffer side amount price => exact postOfferRequest_typed h hcin
  | cancelOffer offerId => exact cancleOfferRequest_typed h hcin
  | getQuotes => exact ⟨cin, rfl, at_of_entersAll_nil h hcin⟩
  | getBalance => exact ⟨cin, rfl, at_of_entersAll_nil h hcin⟩
  | getActive => exact ⟨cin, rfl, at_of_entersAll_nil h hcin⟩
  | getClosed => exact ⟨cin, rfl, at_of_entersAll_nil h hcin⟩

theorem ofOption_option (c : Choice) : RequestType.ofOption c.option = some c.type := by
  cases c <;> rfl

theorem poll_choice {c : Choice} (h : EntersAll ((menuOption, c.option) :: c.prompts) ls)
    (hcin : cin.At (ls ++ ms)) :
    ∃ cin', poll userId cin = some (some (c.type, c.request userId), cin') ∧ cin'.At ms := by
  obtain ⟨cin₁, ls₁, hoption, h₁, hcin₁⟩ := bind_enters h hcin _
  obtain ⟨cin', hsend, hcin'⟩ := sendRequest_typed userId h₁ hcin₁
  refine ⟨cin', hoption.trans ?_, hcin'⟩
  simp only [ofOption_option, hsend]
  rfl

theorem poll_endSession (h : Enters menuOption 7 ls) (hcin : cin.At (ls ++ ms)) :
    ∃ cin', poll userId cin = some (none, cin') ∧ cin'.At ms := by
  obtain ⟨cin', hread, hcin'⟩ := intInput_enters h hcin
  have hread' : intInput (fun var => 1 ≤ var ∧ var ≤ 7) cin = some (7, cin') := hread
  exact ⟨cin', by rw [poll, hread']; rfl, hcin'⟩

theorem processAuthentication_typed (hash : Bytes → UInt64) {e : Entry} (h : e.Typed ls)
    (hfits : e.Fits none) (hcin : cin.At (ls ++ ms)) :
    e ≠ .endSession ∧ ∃ request cin', e.request hash none = some request ∧
      processAuthentication hash cin = some (request, cin') ∧ cin'.At ms := by
  cases h with
  | register hls hms =>
    obtain ⟨cin', hread, hat⟩ := processAuthentication_of hls hms hcin
    exact ⟨by simp, _, cin', rfl, hread, hat⟩
  | login hls hms =>
    obtain ⟨cin', hread, hat⟩ := processAuthentication_of hls hms hcin
    exact ⟨by simp, _, cin', rfl, hread, hat⟩
  | choice hls => cases hfits
  | endSession hls => cases hfits

theorem poll_typed (hash : Bytes → UInt64) {e : Entry} (h : e.Typed ls)
    (hfits : e.Fits (some userId)) (hcin : cin.At (ls ++ ms)) :
    ∃ made cin', poll userId cin = some (made, cin') ∧
      made.map Prod.snd = e.request hash (some userId) ∧ (made = none ↔ e = .endSession) ∧
        cin'.At ms := by
  cases h with
  | register hls hms => cases hfits
  | login hls hms => cases hfits
  | choice hls =>
    obtain ⟨cin', hread, hat⟩ := poll_choice hls hcin
    exact ⟨_, cin', hread, rfl, by simp, hat⟩
  | endSession hls =>
    obtain ⟨cin', hread, hat⟩ := poll_endSession hls hcin
    exact ⟨_, cin', hread, rfl, by simp, hat⟩

end Client

theorem Phase.asks_of_over {phase : Phase} (h : phase.over = true) : phase.asks = none := by
  cases phase with
  | ended => rfl
  | asking => rfl
  | threw => rfl
  | _ => cases h

namespace Terminal

variable {hash : Bytes → UInt64} {c : Terminal} {e : Entry} {es : List Entry}
  {user : Option UInt64}

/-- The program has these entries still to read, or goes no further. -/
def Follows (es : List Entry) (c : Terminal) : Prop :=
  c.phase.over = true ∨ ∃ ls, Script es ls ∧ c.cin.At ls

theorem Follows.script (h : c.Follows es) (hasks : c.phase.asks = some user) :
    ∃ ls, Script es ls ∧ c.cin.At ls := by
  rcases h with hover | hscript
  · rw [Phase.asks_of_over hover] at hasks
    cases hasks
  · exact hscript

/-- A program that asks for an entry makes the request of the next one. -/
theorem prepare_follows (hash : Bytes → UInt64) (h : c.Follows (e :: es))
    (hasks : c.phase.asks = some user) (hfits : e.Fits user) :
    (c.prepare hash).1 = e.request hash user ∧ (c.prepare hash).2.Follows es ∧
      ((c.prepare hash).2.phase = .ended ↔ e = .endSession) := by
  obtain ⟨ls, hscript, hat⟩ := h.script hasks
  cases hscript with
  | @cons _ _ ls ms hls hms =>
    cases hphase : c.phase with
    | authentication =>
      rw [hphase] at hasks
      obtain rfl := Option.some.inj hasks
      obtain ⟨hne, request, cin', hrequest, hread, hat'⟩ :=
        Client.processAuthentication_typed hash hls hfits hat
      simp only [prepare, hphase, hread, hrequest]
      exact ⟨trivial, .inr ⟨ms, hms, hat'⟩, iff_of_false (by simp) hne⟩
    | poll userId =>
      rw [hphase] at hasks
      obtain rfl := Option.some.inj hasks
      obtain ⟨made, cin', hread, hrequest, hend, hat'⟩ :=
        Client.poll_typed hash hls hfits hat
      simp only [prepare, hphase, hread, ← hrequest]
      cases made with
      | none => exact ⟨rfl, .inr ⟨ms, hms, hat'⟩, iff_of_true rfl (hend.mp rfl)⟩
      | some request =>
        exact ⟨rfl, .inr ⟨ms, hms, hat'⟩, iff_of_false (by simp) fun he => by
          cases hend.mpr he⟩
    | _ => rw [hphase] at hasks; cases hasks

/-- Without an entry it asks for ever. -/
theorem prepare_nil (hash : Bytes → UInt64) (h : c.Follows [])
    (hasks : c.phase.asks = some user) :
    c.prepare hash = (none, { c with phase := .asking }) := by
  obtain ⟨ls, hscript, hat⟩ := h.script hasks
  cases hscript
  cases hphase : c.phase with
  | authentication =>
    simp only [prepare, hphase, Client.processAuthentication, Client.intInput_nil hat]
    rfl
  | poll userId =>
    simp only [prepare, hphase, Client.poll, Client.intInput_nil hat]
    rfl
  | _ => rw [hphase] at hasks; cases hasks

theorem prepare_of_asks_none (hash : Bytes → UInt64) (h : c.phase.asks = none) :
    c.prepare hash = (none, c) := by
  cases hphase : c.phase with
  | authentication => rw [hphase] at h; cases h
  | poll userId => rw [hphase] at h; cases h
  | _ => simp only [prepare, hphase]

theorem Follows.send (h : (c.prepare hash).2.Follows es) : (c.send hash).2.Follows es := by
  unfold Terminal.send
  cases hprepare : c.prepare hash with
  | mk made c' =>
    rw [hprepare] at h
    cases made with
    | none => exact h
    | some request =>
      dsimp only
      cases hdump : request.toJson.dump with
      | none => exact .inl rfl
      | some bytes => exact h

/-- Only a program that makes no request ends in a turn of its own. -/
theorem send_ended : (c.send hash).2.phase = .ended ↔ (c.prepare hash).2.phase = .ended := by
  unfold Terminal.send
  cases hprepare : c.prepare hash with
  | mk made c' =>
    cases made with
    | none => rfl
    | some request =>
      have hne : c'.phase ≠ .ended := by
        rcases prepare_cases hprepare with ⟨-, hphase, -⟩ | ⟨type, u, -, hphase, -⟩ <;>
          rw [hphase] <;> intro h <;> cases h
      dsimp only
      cases hdump : request.toJson.dump with
      | none => exact iff_of_false (by simp) hne
      | some bytes => rfl

/-- What happens to a program that is not asking for an entry. -/
structure Keeps (c c' : Terminal) : Prop where
  cin : c'.cin = c.cin
  done : c.phase.over = true → c'.phase.over = true
  ended : c'.phase = .ended ↔ c.phase = .ended

theorem Keeps.refl (c : Terminal) : Keeps c c := ⟨rfl, id, Iff.rfl⟩

theorem Keeps.follows {c' : Terminal} (h : Keeps c c') (hc : c.Follows es) : c'.Follows es := by
  rcases hc with hover | ⟨ls, hscript, hat⟩
  · exact .inl (h.done hover)
  · exact .inr ⟨ls, hscript, h.cin ▸ hat⟩

theorem keeps_receive (c : Terminal) (pending : Bytes) (more : Nat) :
    Keeps c (c.receive pending more).1 := by
  unfold receive
  split
  · next request hphase =>
    split <;> exact ⟨rfl, by simp [hphase, Phase.over], by simp [hphase]⟩
  · next type userId hphase =>
    repeat' split
    · exact ⟨rfl, by simp [hphase, Phase.over], by simp [hphase]⟩
    · exact ⟨rfl, by simp [hphase, Phase.over], by simp [hphase]⟩
    · exact ⟨rfl, by simp [hphase, Phase.over], by simp [hphase]⟩
  · exact .refl c

theorem keeps_disconnect (c : Terminal) : Keeps c c.disconnect := by
  unfold disconnect
  split
  · next request hphase => exact ⟨rfl, by simp [hphase, Phase.over], by simp [hphase]⟩
  · next type userId hphase => exact ⟨rfl, by simp [hphase, Phase.over], by simp [hphase]⟩
  · exact .refl c

end Terminal

namespace Exchange

variable {δ : Type} {db : Database δ} {hash : Bytes → UInt64} {x : Exchange δ} {k : Nat}
  {es : List Entry}

theorem terminal_send (db : Database δ) (hash : Bytes → UInt64) (x : Exchange δ) (k : Nat) :
    (x.step db hash (.send k)).2.terminal k = ((x.terminal k).send hash).2 := by
  simp only [Exchange.step]
  cases hsend : (x.terminal k).send hash with
  | mk text c =>
    cases text with
    | none => exact Function.update_self ..
    | some bytes => exact Function.update_self ..

/-- A turn in which the client asks for no entry leaves what is typed for it, and it makes no
request. -/
theorem keeps_step (db : Database δ) (hash : Bytes → UInt64) {t : Turn}
    (h : asked k x t = []) :
    made hash k x t = [] ∧ Terminal.Keeps (x.terminal k) ((x.step db hash t).2.terminal k) := by
  by_cases ht : t.client = k
  · cases t with
    | send j =>
      obtain rfl : j = k := ht
      rw [asked, if_pos rfl, Option.toList_eq_nil_iff] at h
      have hprepare := Terminal.prepare_of_asks_none hash h
      rw [made, if_pos rfl, terminal_send, Terminal.send, hprepare]
      exact ⟨rfl, .refl _⟩
    | receive j more =>
      obtain rfl : j = k := ht
      refine ⟨if_neg (by simp), ?_⟩
      simp only [Exchange.step]
      repeat' split
      · exact .refl _
      · dsimp only
        rw [Function.update_self]
        exact Terminal.keeps_disconnect _
      · dsimp only
        rw [Function.update_self]
        exact Terminal.keeps_receive _ _ _
  · rw [terminal_step_of_ne ht]
    refine ⟨if_neg fun hsend => ht ?_, .refl _⟩
    rw [hsend]
    rfl

theorem asked_cases (k : Nat) (x : Exchange δ) (t : Turn) :
    asked k x t = [] ∨
      ∃ user, t = .send k ∧ (x.terminal k).phase.asks = some user ∧ asked k x t = [user] := by
  rw [asked]
  split
  · next ht =>
    cases hasks : (x.terminal k).phase.asks with
    | none => exact .inl rfl
    | some user => exact .inr ⟨user, ht, rfl, rfl⟩
  · exact .inl rfl

/-- What a client has made of its entries after some turns, by induction on them. -/
theorem made_of_follows (db : Database δ) (hash : Bytes → UInt64) (turns : List Turn)
    (h : (x.terminal k).Follows es)
    (hfits : ∀ p ∈ es.zip (Machine.gather (step db hash) (asked k) x turns), p.1.Fits p.2) :
    Machine.gather (step db hash) (made hash k) x turns =
        (es.zip (Machine.gather (step db hash) (asked k) x turns)).filterMap
          (fun p => p.1.request hash p.2) ∧
      (((Machine.exec (step db hash) x turns).terminal k).phase = .ended ↔
        (x.terminal k).phase = .ended ∨ .endSession ∈
          es.take (Machine.gather (step db hash) (asked k) x turns).length) := by
  induction turns generalizing x es with
  | nil => simp [Machine.gather]
  | cons t turns ih =>
    rw [Machine.gather, Machine.gather, Machine.exec_cons]
    rw [Machine.gather] at hfits
    rcases asked_cases k x t with hnone | ⟨user, rfl, hasks, hasked⟩
    · obtain ⟨hmade, hkeeps⟩ := keeps_step db hash hnone
      rw [hnone, List.nil_append] at hfits ⊢
      rw [hmade, List.nil_append, ← hkeeps.ended]
      exact ih (hkeeps.follows h) hfits
    · have hmade : made hash k x (.send k) = ((x.terminal k).prepare hash).1.toList := if_pos rfl
      have hbefore : (x.terminal k).phase ≠ .ended := by
        intro hend
        rw [hend] at hasks
        cases hasks
      rw [hasked, List.singleton_append] at hfits ⊢
      cases es with
      | nil =>
        have hprepare := Terminal.prepare_nil hash h hasks
        have hafter : (x.step db hash (.send k)).2.terminal k =
            { x.terminal k with phase := .asking } := by
          rw [terminal_send, Terminal.send, hprepare]
        have hover : ((x.step db hash (.send k)).2.terminal k).Follows [] :=
          .inl (by rw [hafter]; rfl)
        obtain ⟨hih, hend⟩ := ih hover (by simp)
        rw [hmade, hprepare]
        refine ⟨hih, hend.trans ?_⟩
        rw [hafter]
        simp [hbefore]
      | cons e es =>
        rw [List.zip_cons_cons, List.forall_mem_cons] at hfits
        obtain ⟨hrequest, hfollows, hends⟩ := Terminal.prepare_follows hash h hasks hfits.1
        have hafter : ((x.step db hash (.send k)).2.terminal k).Follows es := by
          rw [terminal_send]
          exact hfollows.send
        obtain ⟨hih, hend⟩ := ih hafter hfits.2
        rw [hmade, hrequest, hih, List.zip_cons_cons]
        constructor
        · simp only [List.filterMap_cons]
          cases e.request hash user <;> rfl
        · rw [hend, terminal_send, Terminal.send_ended, hends, List.length_cons,
            List.take_succ_cons, List.mem_cons]
          simp [hbefore, eq_comm]

theorem follows_start {lines : List Bytes} (h : Script es lines) :
    (Terminal.start (Istream.typed lines)).Follows es :=
  .inr ⟨lines, h, rfl, [], by decide, rfl⟩

/-- In every run, in whatever order the clients and the server go on: where a client's entries are
typed one after the other, with any number of lines in between that are asked for again, and each
of those it has been asked for fits the question, it has made exactly their requests, in their
order, and it has ended exactly when the end of the session is among them. -/
theorem script_asked (db : Database δ) (hash : Bytes → UInt64) (server : Server δ)
    (data input : Nat → Bytes) (k : Nat) {entries : List Entry} {lines : List Bytes}
    (hscript : Script entries lines) (hinput : input k = Istream.typed lines) (turns : List Turn)
    (hfits : ∀ p ∈ entries.zip
      (Machine.gather (step db hash) (asked k) (start server data input) turns), p.1.Fits p.2) :
    Machine.gather (step db hash) (made hash k) (start server data input) turns =
        (entries.zip
          (Machine.gather (step db hash) (asked k) (start server data input) turns)).filterMap
            (fun p => p.1.request hash p.2) ∧
      (((Machine.exec (step db hash) (start server data input) turns).terminal k).phase = .ended ↔
        .endSession ∈ entries.take
          (Machine.gather (step db hash) (asked k) (start server data input) turns).length) := by
  have hstart : ((start server data input).terminal k).Follows entries := by
    rw [show (start server data input).terminal k = .start (input k) from rfl, hinput]
    exact follows_start hscript
  obtain ⟨hmade, hend⟩ := made_of_follows db hash turns hstart hfits
  exact ⟨hmade, hend.trans (or_iff_right (by simp [start, Terminal.start]))⟩

/-- Two lines are asked for again. -/
def sampleLines : List Bytes :=
  [text "one", text " 1 ", text "ann secret", text "9", text "4", text "+7"]

def sampleEntries : List Entry :=
  [.register (text "ann") (text "secret"), .choice .getBalance, .endSession]

theorem sampleEntries_typed : Script sampleEntries sampleLines := by
  have hregister : (Entry.register (text "ann") (text "secret")).Typed
      ([text "one", text " 1 "] ++ [text "ann secret"]) := by
    refine .register (.slip (by decide) (.line ⟨by decide, by decide, by decide⟩ rfl)) ?_
    refine ⟨by decide, by decide, [], text " ", [Istream.newline], ?_⟩
    decide
  have hbalance : (Entry.choice .getBalance).Typed ([text "9", text "4"] ++ []) :=
    .choice (.cons (.slip (by decide) (.line ⟨by decide, by decide, by decide⟩ rfl)) .nil)
  have hend : Entry.endSession.Typed [text "+7"] :=
    .endSession (.line ⟨by decide, by decide, by decide⟩ rfl)
  exact .cons hregister (.cons hbalance (.cons hend .nil))

theorem sample_asked :
    Machine.gather (step userTable sampleHash) (made sampleHash 0)
        (start sampleServer (fun _ => []) fun _ => Istream.typed sampleLines)
        (sampleTurns ++ [.send 0]) =
      [.register (text "ann") 6, .idOnly requests.balance 0] := by
  refine (script_asked userTable sampleHash sampleServer (fun _ => [])
    (fun _ => Istream.typed sampleLines) 0 sampleEntries_typed rfl (sampleTurns ++ [.send 0])
    (by decide +kernel)).1.trans ?_
  decide +kernel

end Exchange

end ForexMarket
