import ForexMarket.Lib.Json.RoundTrip
import ForexMarket.Model.DBManager

/- How the texts of the queries are read. Around the name the texts are fixed, up to the
   digits of numbers, so each query reads as its statement with the name as one token
   exactly when the name has no quote and no NUL. For such a name that names no column
   the queries are what they are meant as. -/
namespace ForexMarket

open Sql (Plain plain_append)

namespace DBManager

/-! Digits. -/

/-- What holds of the digits holds of a formatted number. -/
theorem digits_induction {P : Nat → Bytes → Prop}
    (hone : ∀ d, d < 10 → P d [Json.Lexer.digitByte d])
    (hmore : ∀ m d digits, d < 10 → P m digits →
      P (m * 10 + d) (digits ++ [Json.Lexer.digitByte d]))
    (m : Nat) : P m (Json.dumpNat m) := by
  induction m using Nat.strongRecOn with
  | ind m ih =>
    by_cases hlt : m < 10
    · rw [Json.Lexer.dumpNat_of_lt hlt]
      exact hone m hlt
    · have hstep := hmore (m / 10) (m % 10) _ (Nat.mod_lt m (by decide)) (ih (m / 10) (by omega))
      rw [Nat.div_add_mod'] at hstep
      rw [Json.Lexer.dumpNat_of_le (Nat.le_of_not_lt hlt)]
      exact hstep

theorem digit_read {d : Nat} (h : d < 10) :
    Sql.isDigit (Json.Lexer.digitByte d) = true ∧ (Json.Lexer.digitByte d - 0x30).toNat = d := by
  interval_cases d <;> decide

variable (n : UInt64)

theorem formatted_ne_nil : formatted n ≠ [] := by
  refine digits_induction (P := fun _ digits => digits ≠ []) (fun d _ => ?_)
    (fun m d digits _ _ => ?_) n.toNat
  · exact List.cons_ne_nil _ _
  · exact List.append_ne_nil_of_right_ne_nil _ (List.cons_ne_nil _ _)

theorem formatted_digits : ∀ c ∈ formatted n, Sql.isDigit c = true := by
  refine digits_induction (P := fun _ digits => ∀ c ∈ digits, Sql.isDigit c = true)
    (fun d hd => ?_) (fun m d digits hd ih => ?_) n.toNat
  · intro c hc
    rw [List.mem_singleton.mp hc]
    exact (digit_read hd).1
  · intro c hc
    rcases List.mem_append.mp hc with hc | hc
    · exact ih c hc
    · rw [List.mem_singleton.mp hc]
      exact (digit_read hd).1

theorem formatted_word : ∀ c ∈ formatted n, Sql.isWordByte c = true :=
  fun c hc => by simp [Sql.isWordByte, formatted_digits n c hc]

theorem number_formatted : Sql.number (formatted n) = n.toNat := by
  refine digits_induction (P := fun m digits => Sql.number digits = m) (fun d hd => ?_)
    (fun m d digits hd ih => ?_) n.toNat
  · exact (Nat.zero_mul 10 ▸ Nat.zero_add _).trans (digit_read hd).2
  · rw [Sql.number, List.foldl_append, List.foldl_cons, List.foldl_nil, (digit_read hd).2]
    exact congrArg (· * 10 + d) ih

/-- A formatted number is a literal of that number. -/
@[simp] theorem literal?_formatted : literal? (formatted n) = some n := by
  have hdigits : (formatted n).all Sql.isDigit = true := List.all_eq_true.mpr (formatted_digits n)
  have hlt : Sql.number (formatted n) < 2 ^ 64 := by
    rw [number_formatted]
    exact n.toNat_lt
  rw [literal?, if_pos ⟨hdigits, hlt⟩, number_formatted, UInt64.ofNat_toNat]

theorem plain_formatted : Plain (formatted n) := by
  refine ⟨fun h => ?_, fun h => ?_⟩
  · exact absurd (formatted_word n _ h) (by decide)
  · exact absurd (formatted_word n _ h) (by decide)

/-! Each text, as its statement. -/

section Texts

/-- A number between two fixed texts, of which the second does not go on with it. -/
theorem lex_formatted {a b : Bytes} (ha : (Sql.run .between a).2 = .between)
    (hb : ∀ c ∈ b.head?, Sql.isWordByte c = false) :
    Sql.lex .between (a ++ (formatted n ++ b)) =
      Sql.lex .between a ++ .word (formatted n) :: Sql.lex .between b :=
  Sql.lex_append_word ha (formatted_ne_nil n) (formatted_word n) hb

variable (userId pwHash : UInt64) (username : Bytes)

theorem addUserQuery_iff :
    Sql.tokens (addUserQuery userId username pwHash) =
        Sql.bind addUserStatement
          [.word (formatted userId), .quoted username, .word (formatted pwHash)] ↔
      Plain username := by
  have hquery : addUserQuery userId username pwHash =
      (text "INSERT INTO User VALUES(" ++ (formatted userId ++ text ", ")) ++
        Sql.quote :: (username ++ Sql.quote :: (text ", " ++ (formatted pwHash ++ text ");"))) := by
    have hopen : text ", \"" = text ", " ++ [Sql.quote] := by decide +kernel
    have hclose : text "\", " = Sql.quote :: text ", " := by decide +kernel
    simp only [addUserQuery, hopen, hclose, List.append_assoc, List.cons_append, List.nil_append]
  have hinsert : Plain (text "INSERT INTO User VALUES(") := by decide +kernel
  have hcomma : Plain (text ", ") := by decide +kernel
  have hend : Plain (text ");") := by decide +kernel
  have hstatement : addUserStatement =
      Sql.lex .between (text "INSERT INTO User VALUES(") ++ Sql.parameter ::
        (Sql.lex .between (text ", ") ++ Sql.parameter ::
          (Sql.lex .between (text ", ") ++ Sql.parameter :: Sql.lex .between (text ");"))) := by
    have hsplit : text "INSERT INTO User VALUES(?, ?, ?);" =
        text "INSERT INTO User VALUES(" ++ 0x3F :: (text ", " ++ 0x3F ::
          (text ", " ++ 0x3F :: text ");")) := by
      decide +kernel
    rw [addUserStatement, hsplit, Sql.tokens_parameter hinsert, Sql.tokens_parameter hcomma,
      Sql.tokens_parameter hcomma, Sql.tokens_plain hend]
  have hopen : (Sql.run .between (text "INSERT INTO User VALUES(")).2 = .between := by
    decide +kernel
  have hbefore : Plain (text "INSERT INTO User VALUES(" ++ (formatted userId ++ text ", ")) :=
    plain_append.mpr ⟨hinsert, plain_append.mpr ⟨plain_formatted userId, hcomma⟩⟩
  have hafter : Plain (text ", " ++ (formatted pwHash ++ text ");")) :=
    plain_append.mpr ⟨hcomma, plain_append.mpr ⟨plain_formatted pwHash, hend⟩⟩
  have hvalues : Sql.parameter ∉ Sql.lex .between (text "INSERT INTO User VALUES(") := by
    decide +kernel
  have hnext : Sql.parameter ∉ Sql.lex .between (text ", ") := by decide +kernel
  rw [hquery, ← Sql.tokens_quoted_iff hbefore hafter,
    lex_formatted userId hopen (by decide +kernel),
    lex_formatted pwHash (by decide +kernel) (by decide +kernel), hstatement,
    Sql.bind_first hvalues, Sql.bind_first hnext, Sql.bind_first hnext, Sql.bind_nil,
    List.append_assoc (Sql.lex _ _), List.cons_append]

theorem usernameExistQuery_iff :
    Sql.tokens (usernameExistQuery username) =
        Sql.bind usernameExistStatement [.quoted username] ↔ Plain username := by
  have hquery : usernameExistQuery username =
      text "SELECT EXISTS(SELECT 1 FROM User WHERE USERNAME=" ++
        Sql.quote :: (username ++ Sql.quote :: text " LIMIT 1);") := by
    have hopen : text "SELECT EXISTS(SELECT 1 FROM User WHERE USERNAME=\"" =
        text "SELECT EXISTS(SELECT 1 FROM User WHERE USERNAME=" ++ [Sql.quote] := by decide +kernel
    have hclose : text "\" LIMIT 1);" = Sql.quote :: text " LIMIT 1);" := by decide +kernel
    simp only [usernameExistQuery, hopen, hclose, List.append_assoc, List.cons_append,
      List.nil_append]
  have hbefore : Plain (text "SELECT EXISTS(SELECT 1 FROM User WHERE USERNAME=") := by
    decide +kernel
  have hafter : Plain (text " LIMIT 1);") := by decide +kernel
  have hstatement : usernameExistStatement =
      Sql.lex .between (text "SELECT EXISTS(SELECT 1 FROM User WHERE USERNAME=") ++
        Sql.parameter :: Sql.lex .between (text " LIMIT 1);") := by
    have hsplit : text "SELECT EXISTS(SELECT 1 FROM User WHERE USERNAME=? LIMIT 1);" =
        text "SELECT EXISTS(SELECT 1 FROM User WHERE USERNAME=" ++ 0x3F :: text " LIMIT 1);" := by
      decide +kernel
    rw [usernameExistStatement, hsplit, Sql.tokens_parameter hbefore, Sql.tokens_plain hafter]
  rw [hquery, ← Sql.tokens_quoted_iff hbefore hafter, hstatement,
    Sql.bind_first (by decide +kernel), Sql.bind_nil]

theorem getUserIdQuery_iff :
    Sql.tokens (getUserIdQuery username pwHash) =
        Sql.bind getUserIdStatement [.quoted username, .word (formatted pwHash)] ↔
      Plain username := by
  have hquery : getUserIdQuery username pwHash =
      text "SELECT * FROM User WHERE (USERNAME = " ++ Sql.quote :: (username ++
        Sql.quote :: (text " AND PW_HASH = " ++ (formatted pwHash ++ text ") LIMIT 1;"))) := by
    have hopen : text "SELECT * FROM User WHERE (USERNAME = \"" =
        text "SELECT * FROM User WHERE (USERNAME = " ++ [Sql.quote] := by decide +kernel
    have hclose : text "\" AND PW_HASH = " = Sql.quote :: text " AND PW_HASH = " := by
      decide +kernel
    simp only [getUserIdQuery, hopen, hclose, List.append_assoc, List.cons_append,
      List.nil_append]
  have hbefore : Plain (text "SELECT * FROM User WHERE (USERNAME = ") := by decide +kernel
  have hand : Plain (text " AND PW_HASH = ") := by decide +kernel
  have hend : Plain (text ") LIMIT 1;") := by decide +kernel
  have hstatement : getUserIdStatement =
      Sql.lex .between (text "SELECT * FROM User WHERE (USERNAME = ") ++ Sql.parameter ::
        (Sql.lex .between (text " AND PW_HASH = ") ++
          Sql.parameter :: Sql.lex .between (text ") LIMIT 1;")) := by
    have hsplit : text "SELECT * FROM User WHERE (USERNAME = ? AND PW_HASH = ?) LIMIT 1;" =
        text "SELECT * FROM User WHERE (USERNAME = " ++ 0x3F :: (text " AND PW_HASH = " ++
          0x3F :: text ") LIMIT 1;") := by
      decide +kernel
    rw [getUserIdStatement, hsplit, Sql.tokens_parameter hbefore, Sql.tokens_parameter hand,
      Sql.tokens_plain hend]
  have hafter : Plain (text " AND PW_HASH = " ++ (formatted pwHash ++ text ") LIMIT 1;")) :=
    plain_append.mpr ⟨hand, plain_append.mpr ⟨plain_formatted pwHash, hend⟩⟩
  rw [hquery, ← Sql.tokens_quoted_iff hbefore hafter,
    lex_formatted pwHash (by decide +kernel) (by decide +kernel), hstatement,
    Sql.bind_first (by decide +kernel), Sql.bind_first (by decide +kernel), Sql.bind_nil]

end Texts

/-! The queries for such a name. -/

section Executed

variable (other : Database Users) (users : Users) {username : Bytes}

theorem sqlite_addUser (h : Plain username) (userId pwHash : UInt64) :
    (sqlite other).addUser users userId username pwHash =
      users.insert (userId, username, pwHash) := by
  have hargs : Sql.args? addUserStatement (Sql.tokens (addUserQuery userId username pwHash)) =
      some [.word (formatted userId), .quoted username, .word (formatted pwHash)] := by
    rw [(addUserQuery_iff userId pwHash username).mpr h]
    exact Sql.args?_bind (show addUserStatement.count Sql.parameter = 3 by decide +kernel)
  simp only [sqlite, hargs, literal?_formatted]

theorem sqlite_usernameExist (h : Plain username)
    (hstring : Sql.columnOf userColumns username = none) :
    (sqlite other).usernameExist users username =
      (.ok (users.rows.any fun row => row.2.1 = username), users) := by
  have hargs : Sql.args? usernameExistStatement (Sql.tokens (usernameExistQuery username)) =
      some [.quoted username] := by
    rw [(usernameExistQuery_iff username).mpr h]
    exact Sql.args?_bind (show usernameExistStatement.count Sql.parameter = 1 by decide +kernel)
  simp only [sqlite, hargs, hstring, if_true]

theorem sqlite_getUserId (h : Plain username)
    (hstring : Sql.columnOf userColumns username = none) (pwHash : UInt64) :
    (sqlite other).getUserId users username pwHash =
      ((users.rows.find? fun row =>
        row.2.1 = username ∧ numberOf row.2.2.toNat = numberOf pwHash.toNat).elim (.ok none)
          fun row => (userIdOf row.1).map some, users) := by
  have hargs : Sql.args? getUserIdStatement (Sql.tokens (getUserIdQuery username pwHash)) =
      some [.quoted username, .word (formatted pwHash)] := by
    rw [(getUserIdQuery_iff pwHash username).mpr h]
    exact Sql.args?_bind (show getUserIdStatement.count Sql.parameter = 2 by decide +kernel)
  simp only [sqlite, hargs, hstring, literal?_formatted]
  split
  · next hnone => rw [hnone]; rfl
  · next row hrow => rw [hrow]; rfl

end Executed

end DBManager

end ForexMarket
