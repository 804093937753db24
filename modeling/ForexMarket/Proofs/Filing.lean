import ForexMarket.Model.Filing
import ForexMarket.Proofs.Queries
import ForexMarket.Theorems.Audit

/- What the texts of the queries do to the tables of offers and deals. The text of an
   insertion reads as an insertion of the values that it was made of (`values?_text`), so
   it inserts the row; a query on `User` for a name with no quote and no NUL leaves the two
   tables alone. So a run inserts the rows of what it constructs (`exec_file`). -/
namespace ForexMarket

open Sql (Plain plain_append)

namespace DBManager

/-! Numbers. -/

theorem dumpNat_ne_nil (m : Nat) : Json.dumpNat m ≠ [] := by
  refine digits_induction (P := fun _ digits => digits ≠ []) (fun d _ => ?_)
    (fun m d digits _ _ => ?_) m
  · exact List.cons_ne_nil _ _
  · exact List.append_ne_nil_of_right_ne_nil _ (List.cons_ne_nil _ _)

theorem dumpNat_digits (m : Nat) : ∀ c ∈ Json.dumpNat m, Sql.isDigit c = true := by
  refine digits_induction (P := fun _ digits => ∀ c ∈ digits, Sql.isDigit c = true)
    (fun d hd => ?_) (fun m d digits hd ih => ?_) m
  · intro c hc
    rw [List.mem_singleton.mp hc]
    exact (digit_read hd).1
  · intro c hc
    rcases List.mem_append.mp hc with hc | hc
    · exact ih c hc
    · rw [List.mem_singleton.mp hc]
      exact (digit_read hd).1

theorem number_dumpNat (m : Nat) : Sql.number (Json.dumpNat m) = m := by
  refine digits_induction (P := fun m digits => Sql.number digits = m) (fun d hd => ?_)
    (fun m d digits hd ih => ?_) m
  · exact (Nat.zero_mul 10 ▸ Nat.zero_add _).trans (digit_read hd).2
  · rw [Sql.number, List.foldl_append, List.foldl_cons, List.foldl_nil, (digit_read hd).2]
    exact congrArg (· * 10 + d) ih

theorem word_of_digit {c : UInt8} (h : Sql.isDigit c = true) : Sql.isWordByte c = true := by
  simp [Sql.isWordByte, h]

/-- The tokens of a number: its digits, after the sign `-` when it is negative. -/
def valueTokens (v : Int) : List Sql.Token :=
  if v < 0 then [.sign 0x2D, .word (Json.dumpNat v.natAbs)] else [.word (Json.dumpNat v.natAbs)]

theorem lex_dumpNat (m : Nat) {b : Bytes} (hb : ∀ c ∈ b.head?, Sql.isWordByte c = false) :
    Sql.lex .between (Json.dumpNat m ++ b) = .word (Json.dumpNat m) :: Sql.lex .between b :=
  Sql.lex_append_word (a := []) rfl (dumpNat_ne_nil m)
    (fun c hc => word_of_digit (dumpNat_digits m c hc)) hb

theorem lex_formattedInt (v : Int) {b : Bytes} (hb : ∀ c ∈ b.head?, Sql.isWordByte c = false) :
    Sql.lex .between (formattedInt v ++ b) = valueTokens v ++ Sql.lex .between b := by
  unfold formattedInt Json.dumpInteger valueTokens
  split
  · rw [List.cons_append, Sql.lex_cons]
    show .sign 0x2D :: Sql.lex .between (Json.dumpNat v.natAbs ++ b) = _
    rw [lex_dumpNat _ hb]
    rfl
  · exact lex_dumpNat _ hb

theorem plain_formattedInt (v : Int) : Plain (formattedInt v) := by
  have hdigits : Plain (Json.dumpNat v.natAbs) :=
    ⟨fun h => absurd (dumpNat_digits _ _ h) (by decide),
      fun h => absurd (dumpNat_digits _ _ h) (by decide)⟩
  unfold formattedInt Json.dumpInteger
  split
  · exact plain_append.mpr ⟨(by decide : Plain [0x2D]), hdigits⟩
  · exact hdigits

/-! Lists of values. -/

/-- The values from `v` on, as `format` writes them. -/
def valuesText : Int → List Int → Bytes
  | v, [] => formattedInt v
  | v, w :: vs => formattedInt v ++ (text ", " ++ valuesText w vs)

theorem values?_next (v : Int) (ts : List Sql.Token) :
    Sql.values? (valueTokens v ++ .sign 0x2C :: ts) =
      (Sql.values? ts).map fun r => (v :: r.1, r.2) := by
  have hdigits : (Json.dumpNat v.natAbs).all Sql.isDigit = true :=
    List.all_eq_true.mpr (dumpNat_digits _)
  unfold valueTokens
  split
  · next hneg =>
    have hv : -(Sql.number (Json.dumpNat v.natAbs) : Int) = v := by
      rw [number_dumpNat]
      omega
    simp only [List.cons_append, List.nil_append, Sql.values?, hdigits, and_self, if_true, hv]
  · next hpos =>
    have hv : (Sql.number (Json.dumpNat v.natAbs) : Int) = v := by
      rw [number_dumpNat]
      omega
    simp only [List.cons_append, List.nil_append, Sql.values?, hdigits, if_true, hv]

theorem values?_last (v : Int) (ts : List Sql.Token) :
    Sql.values? (valueTokens v ++ .sign 0x29 :: ts) = some ([v], ts) := by
  have hdigits : (Json.dumpNat v.natAbs).all Sql.isDigit = true :=
    List.all_eq_true.mpr (dumpNat_digits _)
  have hcomma : ¬ (0x29 : UInt8) = 0x2C := by decide
  unfold valueTokens
  split
  · next hneg =>
    have hv : -(Sql.number (Json.dumpNat v.natAbs) : Int) = v := by
      rw [number_dumpNat]
      omega
    simp only [List.cons_append, List.nil_append, Sql.values?, hdigits, and_self, if_true, hcomma,
      if_false, hv]
  · next hpos =>
    have hv : (Sql.number (Json.dumpNat v.natAbs) : Int) = v := by
      rw [number_dumpNat]
      omega
    simp only [List.cons_append, List.nil_append, Sql.values?, hdigits, if_true, hcomma, if_false,
      hv]

/-- The values that are written are read, up to the bracket. -/
theorem values?_text (v : Int) (vs : List Int) (b : Bytes) :
    Sql.values? (Sql.lex .between (valuesText v vs ++ 0x29 :: b)) =
      some (v :: vs, Sql.lex .between b) := by
  induction vs generalizing v with
  | nil =>
    rw [valuesText, lex_formattedInt v (by simp; decide), Sql.lex_cons]
    exact values?_last v _
  | cons w vs ih =>
    have htext : text ", " = [0x2C, 0x20] := by decide
    have hcomma (rest : Bytes) : Sql.lex .between (text ", " ++ rest) =
        .sign 0x2C :: Sql.lex .between rest := by
      have hrun : Sql.run .between (text ", ") = ([.sign 0x2C], .between) := by decide
      rw [Sql.lex_append, hrun]
      rfl
    rw [valuesText, List.append_assoc, List.append_assoc,
      lex_formattedInt v (by rw [htext]; simp; decide), hcomma, values?_next, ih w]
    rfl

theorem plain_valuesText (v : Int) (vs : List Int) : Plain (valuesText v vs) := by
  induction vs generalizing v with
  | nil => exact plain_formattedInt v
  | cons w vs ih =>
    exact plain_append.mpr ⟨plain_formattedInt v,
      plain_append.mpr ⟨(by decide : Plain (text ", ")), ih w⟩⟩

/-! The insertions. -/

/-- The text of an insertion reads as one, with a semicolon at its end or without. -/
theorem insertion?_text {head table tail : Bytes}
    (hhead : Sql.run .between head =
      ([.word (text "INSERT"), .word (text "INTO"), .word table, .word (text "VALUES"),
        .sign 0x28], .between))
    (htail : Sql.lex .between tail = [] ∨ Sql.lex .between tail = [.sign 0x3B])
    (hplain : Plain head ∧ Plain (0x29 :: tail)) (v : Int) (vs : List Int) :
    insertion? (Sql.tokens (head ++ (valuesText v vs ++ 0x29 :: tail))) =
      some (table, v :: vs) := by
  have htext : Plain (head ++ (valuesText v vs ++ 0x29 :: tail)) :=
    plain_append.mpr ⟨hplain.1, plain_append.mpr ⟨plain_valuesText v vs, hplain.2⟩⟩
  rw [Sql.tokens_plain htext, Sql.lex_append, hhead]
  rcases htail with htail | htail <;>
    simp only [List.cons_append, List.nil_append, insertion?, and_self, if_true, values?_text,
      htail]

theorem insertion?_addOfferQuery (offerId ownerId : Nat) (offerType : OfferType)
    (amount : UInt64) (price : Int) :
    insertion? (Sql.tokens (addOfferQuery offerId ownerId offerType amount price)) =
      some (text "Offer",
        [(offerId : Int), ownerId, if offerType = .BUY then 1 else 0, amount.toNat, price]) := by
  have hhead : Sql.run .between (text "INSERT INTO Offer VALUES(") =
      ([.word (text "INSERT"), .word (text "INTO"), .word (text "Offer"), .word (text "VALUES"),
        .sign 0x28], .between) := by
    decide
  have hend : text ");" = 0x29 :: text ";" := by decide
  rw [← insertion?_text hhead (.inr (by decide : Sql.lex .between (text ";") = _))
    (by decide)]
  simp only [addOfferQuery, valuesText, hend, List.append_assoc]

theorem insertion?_addDealQuery (dealId sellerId buyerId : Nat) (amount : UInt64) (price : Int) :
    insertion? (Sql.tokens (addDealQuery dealId sellerId buyerId amount price)) =
      some (text "Deal", [(dealId : Int), sellerId, buyerId, amount.toNat, price]) := by
  have hhead : Sql.run .between (text "INSERT INTO Deal VALUES(") =
      ([.word (text "INSERT"), .word (text "INTO"), .word (text "Deal"), .word (text "VALUES"),
        .sign 0x28], .between) := by
    decide
  have hend : text ")" = 0x29 :: [] := by decide
  rw [← insertion?_text hhead (.inl (Sql.lex_nil .between)) (by decide)]
  simp only [addDealQuery, valuesText, hend, List.append_assoc]

/-! The queries on `User`. -/

theorem insertion?_of_head {w : Bytes} (h : w ≠ text "INSERT") (ts : List Sql.Token) :
    insertion? (.word w :: ts) = none := by
  unfold insertion?
  split
  · next heq =>
    obtain ⟨hw, -⟩ := List.cons.inj heq
    rw [if_neg fun hall => h ((Sql.Token.word.inj hw).trans hall.1)]
  · rfl

/-- A statement that begins with `SELECT` inserts nothing, whatever it is bound to. -/
theorem insertion?_select {statement : List Sql.Token}
    (h : statement.head? = some (.word (text "SELECT"))) (arg : Sql.Token)
    (args : List Sql.Token) : insertion? (Sql.bind statement (arg :: args)) = none := by
  cases statement with
  | nil => cases h
  | cons t ts =>
    obtain rfl := Option.some.inj h
    have hne : Sql.Token.word (text "SELECT") ≠ Sql.parameter := by decide
    rw [Sql.bind, if_neg hne]
    exact insertion?_of_head (by decide) _

/-- A name is no number. -/
theorem insertion?_addUser (id : Bytes) (name : Bytes) (hash : Sql.Token) :
    insertion? (Sql.bind addUserStatement [.word id, .quoted name, hash]) = none := by
  have hstatement : addUserStatement =
      [.word (text "INSERT"), .word (text "INTO"), .word (text "User"), .word (text "VALUES"),
        .sign 0x28, .sign 0x3F, .sign 0x2C, .sign 0x3F, .sign 0x2C, .sign 0x3F, .sign 0x29,
        .sign 0x3B] := by
    decide
  rw [hstatement]
  simp [Sql.bind, Sql.parameter, insertion?, Sql.values?]

end DBManager

namespace SqlTables

variable (other : SqlTables → Bytes → SqlTables) (file : SqlTables)

open DBManager

/-- `AddOffer` inserts the values of the row. -/
theorem execute_addOffer (offerId ownerId : Nat) (offerType : OfferType) (amount : UInt64)
    (price : Int) :
    file.execute other (addOfferQuery offerId ownerId offerType amount price) =
      { file with
        offer := file.offer.insert
          ([(offerId : Int), ownerId, if offerType = .BUY then 1 else 0, amount.toNat,
            price].map kept) } := by
  rw [execute, insertion?_addOfferQuery]
  exact if_pos rfl

theorem execute_addDeal (dealId sellerId buyerId : Nat) (amount : UInt64) (price : Int) :
    file.execute other (addDealQuery dealId sellerId buyerId amount price) =
      { file with
        deal := file.deal.insert
          ([(dealId : Int), sellerId, buyerId, amount.toNat, price].map kept) } := by
  have hne : text "Deal" ≠ text "Offer" := by decide
  rw [execute, insertion?_addDealQuery]
  exact (if_neg hne).trans (if_pos rfl)

/-- A query on `User` as it is meant. -/
theorem execute_asksUser {query : Bytes} (hnone : insertion? (Sql.tokens query) = none)
    (hasks : asksUser (Sql.tokens query) = true) : file.execute other query = file := by
  rw [execute, hnone]
  exact if_pos hasks

variable {username : Bytes}

theorem execute_usernameExist (h : Plain username) :
    file.execute other (usernameExistQuery username) = file := by
  have htokens := (usernameExistQuery_iff username).mpr h
  have hargs : Sql.args? usernameExistStatement _ = some [.quoted username] :=
    Sql.args?_bind (show usernameExistStatement.count Sql.parameter = 1 by decide)
  apply execute_asksUser
  · rw [htokens]
    exact insertion?_select (by decide) _ _
  · rw [htokens, asksUser, hargs]
    rfl

theorem execute_addUser (h : Plain username) (userId pwHash : UInt64) :
    file.execute other (addUserQuery userId username pwHash) = file := by
  have htokens := (addUserQuery_iff userId pwHash username).mpr h
  have hargs : Sql.args? addUserStatement _ =
      some [.word (formatted userId), .quoted username, .word (formatted pwHash)] :=
    Sql.args?_bind (show addUserStatement.count Sql.parameter = 3 by decide)
  apply execute_asksUser
  · rw [htokens]
    exact insertion?_addUser _ _ _
  · rw [htokens, asksUser, hargs, Option.isSome_some, Bool.or_true, Bool.true_or]

theorem execute_getUserId (h : Plain username) (pwHash : UInt64) :
    file.execute other (getUserIdQuery username pwHash) = file := by
  have htokens := (getUserIdQuery_iff pwHash username).mpr h
  have hargs : Sql.args? getUserIdStatement _ =
      some [.quoted username, .word (formatted pwHash)] :=
    Sql.args?_bind (show getUserIdStatement.count Sql.parameter = 2 by decide)
  apply execute_asksUser
  · rw [htokens]
    exact insertion?_select (by decide) _ _
  · rw [htokens, asksUser, hargs, Option.isSome_some, Bool.or_true]

end SqlTables

namespace Filed

variable (other : SqlTables → Bytes → SqlTables)

/-! What the queries of an event do. -/

theorem execute_deals (deals : List Deal) (file : SqlTables) :
    (deals.map fun deal => DBManager.addDealQuery deal.id deal.sellerId deal.buyerId deal.amount
        deal.price).foldl (SqlTables.execute other) file =
      { file with
        deal := ((deals.map Deal.row).map StoredDeal.filed).foldl KeyTable.insert file.deal } := by
  induction deals generalizing file with
  | nil => rfl
  | cons deal deals ih =>
    rw [List.map_cons, List.foldl_cons, SqlTables.execute_addDeal, ih]
    rfl

/-- The tables with some rows inserted. -/
def inserted (file : SqlTables) (offers : List StoredOffer) (deals : List StoredDeal) :
    SqlTables :=
  { offer := (offers.map StoredOffer.filed).foldl KeyTable.insert file.offer
    deal := (deals.map StoredDeal.filed).foldl KeyTable.insert file.deal }

theorem inserted_append (file : SqlTables) (offers offers' : List StoredOffer)
    (deals deals' : List StoredDeal) :
    inserted (inserted file offers deals) offers' deals' =
      inserted file (offers ++ offers') (deals ++ deals') := by
  simp only [inserted, List.map_append, List.foldl_append]

/-- The queries of an event insert the rows of what it constructs, and change nothing else. -/
theorem execute_queries (s : Store) {e : Store.Event} (hname : (Event.store e).PlainName)
    (file : SqlTables) : (s.queries e).foldl (SqlTables.execute other) file =
      inserted file (s.offerRows e) (s.dealRows e) := by
  cases e with
  | start => rfl
  | call op pwHash =>
    cases hrun : s.running with
    | false =>
      have hoffers : s.offerRows (.call op pwHash) = [] := by
        cases op <;> simp [Store.offerRows, hrun]
      simp only [Store.queries, Store.dealRows, hoffers, hrun, Bool.false_eq_true, if_false]
      rfl
    | true =>
      simp only [Store.queries, Store.dealRows, hrun, if_true, List.foldl_append, execute_deals]
      cases op with
      | registerUser username exist =>
        cases exist with
        | true =>
          simp only [if_true, List.foldl_cons, List.foldl_nil]
          rw [SqlTables.execute_usernameExist other file hname]
          rfl
        | false =>
          simp only [Bool.false_eq_true, if_false, List.foldl_cons, List.foldl_nil]
          rw [SqlTables.execute_usernameExist other file hname,
            SqlTables.execute_addUser other file hname]
          rfl
      | postOffer u type price amount =>
        simp only [List.foldl_cons, List.foldl_nil, SqlTables.execute_addOffer]
        simp only [inserted, Store.offerRows, hrun, if_true]
        cases type <;> rfl
      | _ => rfl

/-- Over a run the texts insert the rows of all that is constructed. -/
theorem exec_file {events : List Event} (hnames : ∀ e ∈ events, e.PlainName) (s : Filed) :
    (Machine.exec (step other) s events).store =
        Machine.exec Store.step s.store (events.filterMap Event.stored) ∧
      (Machine.exec (step other) s events).file =
        inserted s.file
          (Machine.gather Store.step Store.offerRows s.store (events.filterMap Event.stored))
          (Machine.gather Store.step Store.dealRows s.store (events.filterMap Event.stored)) := by
  induction events generalizing s with
  | nil => exact ⟨rfl, rfl⟩
  | cons e events ih =>
    have hname := hnames e List.mem_cons_self
    obtain ⟨hstore, hfile⟩ := ih (fun e he => hnames e (List.mem_cons_of_mem _ he))
      (s.step other e).2
    rw [Machine.exec_cons, hstore, hfile]
    cases e with
    | store e =>
      have hqueries : (s.step other (.store e)).2.file = _ := execute_queries other s.store hname _
      rw [hqueries, inserted_append]
      exact ⟨rfl, rfl⟩
    | login username pwHash =>
      have hsame : (s.step other (.login username pwHash)).2 = s := by
        simp only [step, SqlTables.execute_getUserId other s.file hname]
        exact ite_self s
      rw [hsame]
      exact ⟨rfl, rfl⟩

end Filed

end ForexMarket
