import ForexMarket.Lib.Double
import ForexMarket.Lib.KeyTable
import ForexMarket.Lib.SqlText
import ForexMarket.Model.Process

/- The queries on the `User` table (`AddUser`, `UsernameExist` and `GetUserId` of
   `db_manager.cpp`). A query is the text that `format` makes of the arguments. SQLite reads
   the text: where it reads as the statement with its parameters bound to a string and to
   numbers, the statement is executed; what happens on another text is a parameter,
   which is also what a query leaves in a variable when it fails. A number from 2^63 on
   is read and stored as the nearest double. The text of an id is its decimal digits. -/
namespace ForexMarket

namespace DBManager

/-- `std::format` of a `uint64_t`. -/
def formatted (n : UInt64) : Bytes := Json.dumpNat n.toNat

/-! The texts. -/

def addUserQuery (userId : UInt64) (username : Bytes) (pwHash : UInt64) : Bytes :=
  text "INSERT INTO User VALUES(" ++ formatted userId ++ text ", \"" ++ username ++ text "\", " ++
    formatted pwHash ++ text ");"

def usernameExistQuery (username : Bytes) : Bytes :=
  text "SELECT EXISTS(SELECT 1 FROM User WHERE USERNAME=\"" ++ username ++ text "\" LIMIT 1);"

def getUserIdQuery (username : Bytes) (pwHash : UInt64) : Bytes :=
  text "SELECT * FROM User WHERE (USERNAME = \"" ++ username ++ text "\" AND PW_HASH = " ++
    formatted pwHash ++ text ") LIMIT 1;"

/-! The statements they are meant as. -/

def addUserStatement : List Sql.Token :=
  Sql.tokens (text "INSERT INTO User VALUES(?, ?, ?);")

def usernameExistStatement : List Sql.Token :=
  Sql.tokens (text "SELECT EXISTS(SELECT 1 FROM User WHERE USERNAME=? LIMIT 1);")

def getUserIdStatement : List Sql.Token :=
  Sql.tokens (text "SELECT * FROM User WHERE (USERNAME = ? AND PW_HASH = ?) LIMIT 1;")

/-- The columns of `User`, and the names its row id has. -/
def userColumns : List Bytes :=
  [text "ID", text "USERNAME", text "PW_HASH", text "ROWID", text "OID", text "_ROWID_"]

/-- The number that a literal reads as, and that an INT column keeps of it. -/
def numberOf (literal : Nat) : Nat :=
  if literal < 2 ^ 63 then literal else Double.nearest literal

/-- The hash or id that a literal is, `none` when no `uint64_t` is written so. -/
def literal? (word : Bytes) : Option UInt64 :=
  if word.all Sql.isDigit ∧ Sql.number word < 2 ^ 64 then some (.ofNat (Sql.number word)) else none

/-- The rows of the `User` table. -/
abbrev Users := KeyTable UserRow Prod.fst

/-- The queries as SQLite executes them. -/
def sqlite (other : Database Users) : Database Users where
  usernameExist users username :=
    match Sql.args? usernameExistStatement (Sql.tokens (usernameExistQuery username)) with
    | some [.quoted name] =>
      if Sql.columnOf userColumns name = none then
        (.ok (users.rows.any fun row => row.2.1 = name), users)
      else other.usernameExist users username
    | _ => other.usernameExist users username
  addUser users userId username pwHash :=
    match Sql.args? addUserStatement (Sql.tokens (addUserQuery userId username pwHash)) with
    -- no column is in scope
    | some [.word id, .quoted name, .word hash] =>
      match literal? id, literal? hash with
      -- the key of the row is the id, which no counter brings to 2^63
      | some id, some hash => users.insert (id, name, hash)
      | _, _ => other.addUser users userId username pwHash
    | _ => other.addUser users userId username pwHash
  getUserId users username pwHash :=
    match Sql.args? getUserIdStatement (Sql.tokens (getUserIdQuery username pwHash)) with
    | some [.quoted name, .word hash] =>
      match Sql.columnOf userColumns name, literal? hash with
      | none, some hash =>
        match users.rows.find? fun row =>
          row.2.1 = name ∧ numberOf row.2.2.toNat = numberOf hash.toNat with
        | none => (.ok none, users)
        | some row => ((userIdOf row.1).map some, users)
      | _, _ => other.getUserId users username pwHash
    | _ => other.getUserId users username pwHash

end DBManager

end ForexMarket
