import ForexMarket.Lib.Machine
import ForexMarket.Model.Market

/- The market as a machine: the calls of its public interface, what each returns, and
   the run of a list of calls. An offer and a deal are reported through their getters.
   `registerUser` carries the answer `UsernameExist` gives it, which comes from the
   database. A call that throws reports the fault and leaves the state as it was when
   it threw. -/
namespace ForexMarket

/-- An offer as its getters report it. -/
structure OfferView where
  id : Nat
  ownerId : Nat
  type : OfferType
  price : Int
  amount : Nat
  deriving DecidableEq, Repr

/-- A deal as its getters report it. -/
structure DealView where
  id : Nat
  sellerId : Nat
  buyerId : Nat
  price : Int
  amount : Nat
  deriving DecidableEq, Repr

def Offer.view (o : Offer) : OfferView :=
  { id := o.id, ownerId := o.ownerId, type := o.type, price := o.price,
    amount := o.amount.toNat }

def Deal.view (d : Deal) : DealView :=
  { id := d.id, sellerId := d.sellerId, buyerId := d.buyerId, price := d.price,
    amount := d.amount.toNat }

inductive Op where
  | registerUser (username : String) (exist : Bool)
  | depositUSD (userId : Nat) (amount : UInt64)
  | depositRUB (userId : Nat) (amount : UInt64)
  | getUserBalance (userId : Nat)
  | getActiveOffers (userId : Nat)
  | getClosedDeals (userId : Nat)
  | postOffer (userId : Nat) (type : OfferType) (price : Int) (amount : UInt64)
  | removeOffer (userId offerId : Nat)
  | getQuote
  | getAskBidQuotes
  deriving DecidableEq, Repr

/-- The calls the server makes for its clients. -/
def Op.served : Op → Bool
  | .depositUSD .. | .depositRUB .. => false
  | _ => true

inductive Reply where
  | registered (userId : Option Nat)
  | done
  | balance (b : Balance)
  | offers (l : List OfferView)
  | deals (l : List DealView)
  | posted (offerId : Nat)
  | removed (b : Bool)
  | quote (q : Option Int)
  | quotes (q : AskBidQuotesInfo)
  | fault (f : Fault)
  deriving DecidableEq, Repr

namespace Market

/-- The offers of a user's `active_offers_`, in the order of the set. -/
def activeViews (s : Market) (d : UserData) : List OfferView :=
  (d.activeOffers.elems.filterMap s.heap.find?).map Offer.view

/-- The user's data read by `f` through `at`. -/
def readUser (s : Market) (userId : Nat) (f : UserData → Reply) : Reply × Market :=
  match s.users.find? userId with
  | none => (.fault .outOfRange, s)
  | some d => (f d, s)

@[simp] theorem readUser_snd (s : Market) (userId : Nat) (f : UserData → Reply) :
    (s.readUser userId f).2 = s := by
  unfold readUser
  cases s.users.find? userId <;> rfl

/-- The user's data changed by `f` through `at`. -/
def writeUser (s : Market) (userId : Nat) (f : UserData → UserData)
    (hf : ∀ d, (f d).id = d.id) : Reply × Market :=
  match s.atUser userId f hf with
  | none => (.fault .outOfRange, s)
  | some s' => (.done, s')

/-- One call of the public interface. -/
def step (s : Market) : Op → Reply × Market
  | .registerUser username exist =>
    let r := s.registerUser username exist
    (.registered r.1, r.2)
  | .depositUSD u amount => s.writeUser u (·.depositUSD amount) (·.depositUSD_id _)
  | .depositRUB u amount => s.writeUser u (·.depositRUB amount) (·.depositRUB_id _)
  | .getUserBalance u => s.readUser u (fun d => .balance d.balance)
  | .getActiveOffers u => s.readUser u (fun d => .offers (s.activeViews d))
  | .getClosedDeals u => s.readUser u (fun d => .deals (d.closedDeals.elems.map Deal.view))
  | .postOffer u type price amount =>
    match s.postOffer u type price amount with
    | (.ok id, s') => (.posted id, s')
    | (.error f, s') => (.fault f, s')
  | .removeOffer u id =>
    match s.removeActiveOffer u id with
    | none => (.fault .outOfRange, s)
    | some (b, s') => (.removed b, s')
  | .getQuote => (.quote s.quote, s)
  | .getAskBidQuotes =>
    match s.getAskBidQuotes with
    | (.ok q, s') => (.quotes q, s')
    | (.error f, s') => (.fault f, s')

/-- The state after a list of calls. -/
abbrev run (s : Market) (ops : List Op) : Market := Machine.exec step s ops

/-- The state of a market reached by some calls from an empty one, whatever the seeds. -/
def Reachable (s : Market) : Prop :=
  ∃ offerId dealId userId ops, s = (Market.empty offerId dealId userId).run ops

theorem Reachable.step {s : Market} (h : s.Reachable) (op : Op) : (s.step op).2.Reachable := by
  obtain ⟨i, j, k, ops, rfl⟩ := h
  exact ⟨i, j, k, ops ++ [op], (Machine.exec_concat _ ops op).symm⟩

theorem Reachable.run {s : Market} (h : s.Reachable) (ops : List Op) : (s.run ops).Reachable := by
  obtain ⟨i, j, k, ops', rfl⟩ := h
  exact ⟨i, j, k, ops' ++ ops, (Machine.exec_append _ ops' ops).symm⟩

/-- The offers `GetActiveOffers` lists, over all users. -/
def liveOffers (s : Market) : List OfferView := s.users.elems.flatMap s.activeViews

end Market

/-! What the answers to a list of calls record. -/

abbrev History := List (Op × Reply)

namespace History

/-- The offer a call posted, as it was posted. -/
def postedOf : Op × Reply → Option OfferView
  | (op, r) =>
    match r, op with
    | .posted id, .postOffer u type price amount =>
      some { id := id, ownerId := u, type := type, price := price, amount := amount.toNat }
    | _, _ => none

/-- The id of the offer `RemoveOffer` answered `true` for. -/
def cancelledOf : Op × Reply → Option Nat
  | (op, r) =>
    match r, op with
    | .removed true, .removeOffer _ id => some id
    | _, _ => none

/-- The USD a call deposited, with the user. -/
def depositUSDOf : Op × Reply → Option (Nat × Int)
  | (op, r) =>
    match r, op with
    | .done, .depositUSD u amount => some (u, (amount.toNat : Int))
    | _, _ => none

/-- The RUB a call deposited, with the user. -/
def depositRUBOf : Op × Reply → Option (Nat × Int)
  | (op, r) =>
    match r, op with
    | .done, .depositRUB u amount => some (u, (amount.toNat : Int))
    | _, _ => none

def posted (h : History) : List OfferView := h.filterMap postedOf

def cancelled (h : History) : List Nat := h.filterMap cancelledOf

def depositsUSD (h : History) : List (Nat × Int) := h.filterMap depositUSDOf

def depositsRUB (h : History) : List (Nat × Int) := h.filterMap depositRUBOf

end History

end ForexMarket
