import ForexMarket.Lib.Lines
import ForexMarket.Model.Exchange

/- What a user means to do at a terminal, entry by entry, and how that may be typed: each
   number on a line of its own, with blanks around it and after any number of lines that are
   asked for again, and a name and a password as two words. -/
namespace ForexMarket

/-- A choice of the menu, with what it asks for. -/
inductive Choice where
  | postOffer (offerSide amount price : Int)
  | cancelOffer (offerId : Int)
  | getQuotes
  | getBalance
  | getActive
  | getClosed
  deriving DecidableEq, Repr

/-- What a user does: registration and login with a password, choices, and the end. -/
inductive Entry where
  | register (username password : Bytes)
  | login (username password : Bytes)
  | choice (c : Choice)
  | endSession
  deriving DecidableEq, Repr

/-! How it is typed. -/

/-- The line holds this `int`. -/
def HoldsInt (l : Bytes) (n : Int) : Prop := Istream.Holds (-2 ^ 31) (2 ^ 31 - 1) l n

/-- The line is asked for again: it begins with no `int` that is acceptable. -/
def Slip (predicate : Int → Bool) (l : Bytes) : Prop :=
  Istream.newline ∉ l ∧
    ∀ n, Istream.leading (-2 ^ 31) (2 ^ 31 - 1) l = some n → predicate n = false

instance (predicate : Int → Bool) (l : Bytes) : Decidable (Slip predicate l) :=
  decidable_of_iff (Istream.newline ∉ l ∧
      (Istream.leading (-2 ^ 31) (2 ^ 31 - 1) l).all fun n => !predicate n) <|
    and_congr_right fun _ => by simp [Option.all_eq_true]

/-- The last of the lines holds the integer, and the others are asked for again. -/
inductive Enters (predicate : Int → Bool) (n : Int) : List Bytes → Prop
  | line {l : Bytes} (hl : HoldsInt l n) (hn : predicate n = true) : Enters predicate n [l]
  | slip {l : Bytes} {ls : List Bytes} (hl : Slip predicate l) (hls : Enters predicate n ls) :
    Enters predicate n (l :: ls)

/-- The lines hold two words. -/
def Words (username password : Bytes) (ls : List Bytes) : Prop :=
  Istream.Word username ∧ Istream.Word password ∧
      ∃ before between after, Istream.Blank before ∧ Istream.Blank between ∧ between ≠ [] ∧
        Istream.Blank after ∧ after ≠ [] ∧
          Istream.typed ls = before ++ username ++ (between ++ password ++ after)

def Choice.type : Choice → RequestType
  | postOffer .. => .postOffer
  | cancelOffer _ => .cancelOffer
  | getQuotes => .getQuotes
  | getBalance => .getBalance
  | getActive => .getActive
  | getClosed => .getClosed

/-- The number of the choice in the menu. -/
def Choice.option : Choice → Int
  | postOffer .. => 1
  | cancelOffer _ => 2
  | getQuotes => 3
  | getBalance => 4
  | getActive => 5
  | getClosed => 6

/-- What is asked for after the number of the choice. -/
def Choice.prompts : Choice → List ((Int → Bool) × Int)
  | postOffer offerSide amount price =>
    [(fun var => var = 1 ∨ var = 2, offerSide), (fun amount => 0 < amount, amount),
      (fun _ => true, price)]
  | cancelOffer offerId => [(fun var => 0 ≤ var, offerId)]
  | _ => []

/-- The lines enter each integer in turn. -/
inductive EntersAll : List ((Int → Bool) × Int) → List Bytes → Prop
  | nil : EntersAll [] []
  | cons {predicate : Int → Bool} {n : Int} {prompts : List ((Int → Bool) × Int)}
      {ls ms : List Bytes} (hls : Enters predicate n ls) (hms : EntersAll prompts ms) :
    EntersAll ((predicate, n) :: prompts) (ls ++ ms)

def authOption (var : Int) : Bool := var = 1 ∨ var = 2

def menuOption (var : Int) : Bool := 1 ≤ var ∧ var ≤ 7

inductive Entry.Typed : Entry → List Bytes → Prop
  | register {username password : Bytes} {ls ms : List Bytes} (hls : Enters authOption 1 ls)
      (hms : Words username password ms) : Typed (.register username password) (ls ++ ms)
  | login {username password : Bytes} {ls ms : List Bytes} (hls : Enters authOption 2 ls)
      (hms : Words username password ms) : Typed (.login username password) (ls ++ ms)
  | choice {c : Choice} {ls : List Bytes}
      (hls : EntersAll ((menuOption, c.option) :: c.prompts) ls) : Typed (.choice c) ls
  | endSession {ls : List Bytes} (hls : Enters menuOption 7 ls) : Typed .endSession ls

/-- Entries typed one after the other. -/
inductive Script : List Entry → List Bytes → Prop
  | nil : Script [] []
  | cons {e : Entry} {es : List Entry} {ls ms : List Bytes} (hls : e.Typed ls)
      (hms : Script es ms) : Script (e :: es) (ls ++ ms)

/-! What it asks for. -/

/-- The request of a choice, for the user at the menu. -/
def Choice.request (userId : UInt64) : Choice → ClientRequest
  | postOffer offerSide amount price => .postOffer userId offerSide amount price
  | cancelOffer offerId => .cancelOffer userId offerId
  | getQuotes => .idOnly requests.quotes userId
  | getBalance => .idOnly requests.balance userId
  | getActive => .idOnly requests.activeOffers userId
  | getClosed => .idOnly requests.closedDeals userId

/-- Names and passwords are entered before there is a user, the others at the menu. -/
def Entry.Fits : Entry → Option UInt64 → Prop
  | register .., user | login .., user => user = none
  | choice _, user | endSession, user => user.isSome = true

instance : (e : Entry) → (user : Option UInt64) → Decidable (e.Fits user)
  | .register .., user | .login .., user => inferInstanceAs (Decidable (user = none))
  | .choice _, user | .endSession, user => inferInstanceAs (Decidable (user.isSome = true))

/-- The request an entry makes, where it makes one. -/
def Entry.request (hash : Bytes → UInt64) : Entry → Option UInt64 → Option ClientRequest
  | register username password, _ => some (.register username (hash password))
  | login username password, _ => some (.login username (hash password))
  | choice c, some userId => some (c.request userId)
  | choice _, none | endSession, _ => none

/-! A run, as the user at a terminal sees it. -/

/-- The one the program asks for an entry, if it does: a user at the menu, or nobody yet. -/
def Phase.asks : Phase → Option (Option UInt64)
  | authentication => some none
  | poll userId => some (some userId)
  | authResponse _ | response _ _ | ended | asking | threw => none

namespace Exchange

variable {δ : Type}

/-- Whether the turn lets the client ask for an entry, and whom. -/
def asked (k : Nat) (x : Exchange δ) (t : Turn) : List (Option UInt64) :=
  if t = .send k then (x.terminal k).phase.asks.toList else []

/-- The request the client makes in a turn. -/
def made (hash : Bytes → UInt64) (k : Nat) (x : Exchange δ) (t : Turn) : List ClientRequest :=
  if t = .send k then ((x.terminal k).prepare hash).1.toList else []

end Exchange

end ForexMarket
