import ForexMarket.Proofs.Queries
import ForexMarket.Theorems.Restart

/- When a user name is data. The name stands between double quotes in the texts of three
   queries, as it is. It leaves them by a quote or a NUL; and in the two selections a name
   in double quotes that is a column's is that column. All other names are the strings they
   are, and the table keeps and finds the users under them. -/
namespace ForexMarket

open Sql (Plain)

namespace DBManager

/-- The texts of the queries are the statements with the name as a string, `GetUserId` finds only
rows of the name, and `RegisterUser` refuses it exactly when there is one. -/
structure IsData (other : Database Users) (username : Bytes) : Prop where
  addUser : ∀ userId pwHash, Sql.tokens (addUserQuery userId username pwHash) =
    Sql.bind addUserStatement
      [.word (formatted userId), .quoted username, .word (formatted pwHash)]
  usernameExist : Sql.tokens (usernameExistQuery username) =
    Sql.bind usernameExistStatement [.quoted username]
  getUserId : ∀ pwHash, Sql.tokens (getUserIdQuery username pwHash) =
    Sql.bind getUserIdStatement [.quoted username, .word (formatted pwHash)]
  string : Sql.columnOf userColumns username = none
  found : ∀ (users : Users) pwHash id,
    ((sqlite other).getUserId users username pwHash).1 = .ok (some id) →
      ∃ row ∈ users.rows, row.1 = id ∧ row.2.1 = username
  refused : ∀ (s : Server Users), ∃ exist,
    ((sqlite other).usernameExist s.db username).1 = .ok exist ∧
      ((s.market.registerUser (nameOf username) exist).1 = none ↔
        ∃ row ∈ s.db.rows, row.2.1 = username)

/-- The name is a column's, or one of the row id. -/
def NamesColumn (username : Bytes) : Prop :=
  ∃ column ∈ userColumns, column.map Sql.lower = username.map Sql.lower

instance (username : Bytes) : Decidable (NamesColumn username) :=
  inferInstanceAs (Decidable (∃ column ∈ userColumns, _))

/-- A database that fails on any other text, with `exist` being 0 by chance. -/
def failing : Database Users where
  usernameExist users _ := (.ok false, users)
  addUser users _ _ _ := users
  getUserId users _ _ := (.ok none, users)

theorem columnOf_eq_none_iff {username : Bytes} :
    Sql.columnOf userColumns username = none ↔ ¬ NamesColumn username := by
  simp [Sql.columnOf, NamesColumn]

variable (other : Database Users) {username : Bytes}

/-- A row that is found for a name. -/
theorem getUserId_eq_some (h : Plain username)
    (hstring : Sql.columnOf userColumns username = none) {users : Users} {pwHash id : UInt64}
    (hfound : ((sqlite other).getUserId users username pwHash).1 = .ok (some id)) :
    id.toNat < 2 ^ 31 ∧ ∃ row ∈ users.rows, row.1 = id ∧ row.2.1 = username ∧
      numberOf row.2.2.toNat = numberOf pwHash.toNat := by
  rw [sqlite_getUserId other users h hstring] at hfound
  cases hfind : users.rows.find? fun row =>
      row.2.1 = username ∧ numberOf row.2.2.toNat = numberOf pwHash.toNat with
  | none =>
    rw [hfind] at hfound
    cases hfound
  | some row =>
    rw [hfind, Option.elim, userIdOf] at hfound
    have hmatch : row.2.1 = username ∧ numberOf row.2.2.toNat = numberOf pwHash.toNat := by
      simpa using List.find?_some hfind
    split at hfound
    · next hsmall =>
      obtain rfl := Option.some.inj (Except.ok.inj hfound)
      exact ⟨hsmall, row, List.mem_of_find?_eq_some hfind, rfl, hmatch⟩
    · cases hfound

/-- A name is data exactly when it has no quote and no NUL and is no column's. -/
theorem isData_iff (other : Database Users) (username : Bytes) :
    IsData other username ↔ Plain username ∧ ¬ NamesColumn username := by
  constructor
  · intro h
    exact ⟨(usernameExistQuery_iff username).mp h.usernameExist, columnOf_eq_none_iff.mp h.string⟩
  · rintro ⟨h, hcolumn⟩
    have hstring := columnOf_eq_none_iff.mpr hcolumn
    constructor
    case addUser => exact fun userId pwHash => (addUserQuery_iff userId pwHash username).mpr h
    case usernameExist => exact (usernameExistQuery_iff username).mpr h
    case getUserId => exact fun pwHash => (getUserIdQuery_iff pwHash username).mpr h
    case string => exact hstring
    case found =>
      intro users pwHash id hfound
      obtain ⟨-, row, hrow, hid, hname, -⟩ := getUserId_eq_some other h hstring hfound
      exact ⟨row, hrow, hid, hname⟩
    case refused =>
      intro s
      rw [sqlite_usernameExist other s.db h hstring]
      refine ⟨_, rfl, ?_⟩
      rw [Market.registerUser]
      split
      · next hexist => simpa using hexist
      · next hexist => simpa using hexist

/-- The name of a column, and a name with a quote. -/
theorem columnName_not_data :
    ¬ IsData failing (text "username") ∧ ¬ IsData failing (text "x\" OR 1=1 --") := by
  refine ⟨fun h => ?_, fun h => ?_⟩
  · exact absurd h.string (by decide)
  · exact absurd ((usernameExistQuery_iff _).mp h.usernameExist) (by decide)

/-- The table keeps the rows of such names, and compares the hashes as numbers. -/
theorem sqlite_keeps : (sqlite other).Keeps KeyTable.rows
    (fun username => Plain username ∧ ¬ NamesColumn username)
    (fun pwHash pwHash' => numberOf pwHash.toNat = numberOf pwHash'.toNat) where
  added users id username pwHash h hnew := by
    rw [sqlite_addUser other users h.1]
    exact KeyTable.rows_insert_of_free (KeyTable.free_iff.mpr hnew)
  exist users username h := by
    rw [sqlite_usernameExist other users h.1 (columnOf_eq_none_iff.mpr h.2)]
    exact ⟨rfl, rfl⟩
  read users username pwHash h := by
    rw [sqlite_getUserId other users h.1 (columnOf_eq_none_iff.mpr h.2)]
  selected users username pwHash id h hfound :=
    (getUserId_eq_some other h.1 (columnOf_eq_none_iff.mpr h.2) hfound).2
  selects users username pwHash h hrow hsmall := by
    obtain ⟨row, hrow, hname, hhash⟩ := hrow
    rw [sqlite_getUserId other users h.1 (columnOf_eq_none_iff.mpr h.2)]
    have hsome : (users.rows.find? fun row =>
        row.2.1 = username ∧ numberOf row.2.2.toNat = numberOf pwHash.toNat).isSome :=
      List.find?_isSome.mpr ⟨row, hrow, decide_eq_true ⟨hname, hhash⟩⟩
    obtain ⟨row', hfind⟩ := Option.isSome_iff_exists.mp hsome
    have hmatch : row'.2.1 = username ∧ numberOf row'.2.2.toNat = numberOf pwHash.toNat := by
      simpa using List.find?_some hfind
    have hlt := hsmall row' (List.mem_of_find?_eq_some hfind) hmatch.1
    rw [hfind]
    exact ⟨row'.1, by rw [Option.elim, userIdOf, if_pos hlt]; rfl⟩

end DBManager

end ForexMarket
