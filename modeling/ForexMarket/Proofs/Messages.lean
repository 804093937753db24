import ForexMarket.Lib.Framing
import ForexMarket.Lib.Json.Writable
import ForexMarket.Model.Client

/- The messages between the client and the server are documents: the requests, and every
   reply, whatever the state and the request. Documents are the messages of a codec. -/
namespace ForexMarket

open Json (Document Writable)

/-- Documents on a stream. -/
def documents : Codec UInt8 Document Json where
  encode := Document.bytes
  decode := Json.parse
  value := Document.value
  encode_ne_nil := Document.bytes_ne_nil
  decode_encode := Document.parse_bytes
  decode_truncated d _ := d.parse_truncated
  decode_joined d e b s r h := by
    obtain ⟨c, t, hc, hopening⟩ := e.opening
    rw [hc] at h
    rw [← (List.cons.inj h).1]
    exact d.parse_joined hopening r

/-! What the replies are made of. -/

theorem writable_ofInt (n : Int) : (Json.ofInt n).Writable := by
  have hmin : -2 ^ 31 ≤ Wrap.wrap32 n := Int32.le_toInt _
  have hmax : Wrap.wrap32 n < 2 ^ 31 := Int32.toInt_lt _
  apply Writable.int <;> omega

theorem writable_ofUInt64 (n : UInt64) : (Json.ofUInt64 n).Writable := by
  have hlt := n.toNat_lt
  apply Writable.int <;> omega

theorem writable_nullable (n : Option Int) : (nullable n).Writable := by
  cases n with
  | none => exact Writable.null
  | some n => exact writable_ofInt n

theorem writable_nullableId (n : Option UInt64) : (nullableId n).Writable := by
  cases n with
  | none => exact Writable.null
  | some n => exact writable_ofUInt64 n

namespace Serializer

theorem writable_authReply {type : Bytes} (htype : (Json.dumpString type).isSome)
    (userId : Option UInt64) : (authReply type userId).Writable := by
  apply Writable.ofMembers
  exact .cons rfl (.string htype) (.cons rfl (.bool _) (.cons rfl (writable_nullableId _) .nil))

theorem writable_offerObject (o : OfferView) : (offerObject o).Writable := by
  apply Writable.ofMembers
  exact .cons rfl (writable_ofUInt64 _)
    (.cons rfl (writable_ofInt _) (.cons rfl (writable_ofUInt64 _) .nil))

theorem writable_dealObject (d : DealView) : (dealObject d).Writable := by
  apply Writable.ofMembers
  exact .cons rfl (writable_ofInt _) (.cons rfl (writable_ofUInt64 _) .nil)

theorem writable_list {α : Type} {f : α → Json} (hf : ∀ a, (f a).Writable) (l : List α) :
    (Json.array (l.map f)).Writable := by
  apply Writable.array
  intro v hv
  obtain ⟨a, -, rfl⟩ := List.mem_map.mp hv
  exact hf a

theorem writable_activeOffersReply (l : List OfferView) : (activeOffersReply l).Writable := by
  apply Writable.ofMembers
  exact .cons rfl (.string rfl) (.cons rfl (writable_list writable_offerObject _)
    (.cons rfl (writable_list writable_offerObject _) .nil))

theorem writable_closedDealsReply (u : Nat) (l : List DealView) :
    (closedDealsReply u l).Writable := by
  apply Writable.ofMembers
  exact .cons rfl (.string rfl) (.cons rfl (writable_list writable_dealObject _)
    (.cons rfl (writable_list writable_dealObject _)
      (.cons rfl (writable_list writable_dealObject _) .nil)))

theorem writable_balanceReply (b : Balance) : (balanceReply b).Writable := by
  apply Writable.ofMembers
  exact .cons rfl (.string rfl) (.cons rfl (writable_ofInt _) (.cons rfl (writable_ofInt _) .nil))

theorem writable_quotesReply (quote : Option Int) (q : AskBidQuotesInfo) :
    (quotesReply quote q).Writable := by
  apply Writable.ofMembers
  exact .cons rfl (.string rfl) (.cons rfl (writable_nullable _) (.cons rfl (writable_nullable _)
    (.cons rfl (writable_nullable _) (.cons rfl (writable_nullable _) .nil))))

theorem writable_cancelReply (deleted : Bool) : (cancelReply deleted).Writable := by
  apply Writable.ofMembers
  exact .cons rfl (.string rfl) (.cons rfl (.bool _) .nil)

end Serializer

/-! The requests. -/

namespace ClientRequest

/-- The texts of a request are UTF-8. -/
def Utf8 : ClientRequest → Prop
  | register username _ | login username _ => (Json.dumpString username).isSome
  | idOnly type _ => (Json.dumpString type).isSome
  | _ => True

theorem writable_authObject {type username : Bytes} (htype : (Json.dumpString type).isSome)
    (husername : (Json.dumpString username).isSome) (pwHash : UInt64) :
    (authObject type username pwHash).Writable := by
  apply Writable.ofMembers
  exact .cons rfl (.string htype) (.cons rfl (.string husername)
    (.cons rfl (writable_ofUInt64 _) .nil))

theorem writable_toJson {r : ClientRequest} (h : r.Utf8) : r.toJson.Writable := by
  cases r with
  | register username pwHash => exact writable_authObject rfl h pwHash
  | login username pwHash => exact writable_authObject rfl h pwHash
  | idOnly type userId =>
    apply Writable.ofMembers
    exact .cons rfl (.string h) (.cons rfl (writable_ofUInt64 _) .nil)
  | postOffer userId offerSide amount price =>
    have hside :
        (Json.dumpString (if offerSide = 1 then jsonField.buy else jsonField.sell)).isSome := by
      split <;> rfl
    apply Writable.ofMembers
    exact .cons rfl (.string rfl) (.cons rfl (writable_ofUInt64 _) (.cons rfl (.string hside)
      (.cons rfl (writable_ofInt _) (.cons rfl (writable_ofInt _) .nil))))
  | cancelOffer userId offerId =>
    apply Writable.ofMembers
    exact .cons rfl (.string rfl) (.cons rfl (writable_ofUInt64 _)
      (.cons rfl (writable_ofInt _) .nil))

theorem valid_toJson (r : ClientRequest) : r.toJson.Valid := by
  have hid : ∀ n : UInt64, (Json.ofUInt64 n).Valid := fun n => (writable_ofUInt64 n).1
  have hint : ∀ n : Int, (Json.ofInt n).Valid := fun n => (writable_ofInt n).1
  cases r <;> refine Json.valid_ofMembers ?_ <;>
    simp only [List.forall_mem_cons, List.not_mem_nil, false_implies, implies_true, hid, hint,
      and_true, Json.valid_string]

/-- What the client writes is parsed as the request. -/
theorem parse_toJson {r : ClientRequest} {b : Bytes} (h : r.toJson.dump = some b) :
    Json.parse b = some r.toJson := by
  let d : Document :=
    { value := r.toJson, valid := valid_toJson r, delimited := by cases r <;> trivial, bytes := b,
      dump_eq := h }
  exact d.parse_bytes

/-- What the client writes. -/
def document (r : ClientRequest) (h : r.Utf8) : Document :=
  (writable_toJson h).document (by cases r <;> trivial)

end ClientRequest

/-! The replies. -/

/-- A value the server replies with has a text, and it is a document. -/
theorem replyOf_document {v : Json} (h : v.Writable) (hd : v.Delimited) :
    ∃ d : Document, d.value = v ∧ replyOf v = .ok d.bytes := by
  have hdump : v.dump = some (h.document hd).bytes := (h.document hd).dump_eq
  refine ⟨h.document hd, rfl, ?_⟩
  rw [replyOf, Json.dumped, hdump]
  rfl

theorem replyOf_isOk {v : Json} (h : v.Writable) : (replyOf v).isOk = true := by
  obtain ⟨-, b, hdump⟩ := h
  rw [replyOf, Json.dumped, hdump]
  rfl

/-- The client reads the id the server replied with. -/
theorem Client.authResult_authReply (type : Bytes) (userId : Option UInt64) :
    Client.authResult (Serializer.authReply type userId) = .ok userId := by
  cases userId with
  | none => rfl
  | some n =>
    calc Client.authResult (Serializer.authReply type (some n))
        = ((Json.ofUInt64 n).getUInt64).map some := rfl
      _ = .ok (some n) := by rw [Json.getUInt64_ofUInt64]; rfl

/-- A reply, where there is one, is the text of a document. -/
def IsDocument (r : Except Exception Bytes) : Prop := ∀ b, r = .ok b → ∃ d : Document, d.bytes = b

theorem isDocument_error (e : Exception) : IsDocument (.error e) := nofun

theorem isDocument_replyOf {v : Json} (h : v.Writable) (hd : v.Delimited) :
    IsDocument (replyOf v) := by
  intro b hb
  obtain ⟨d, -, hd⟩ := replyOf_document h hd
  rw [hd] at hb
  exact ⟨d, Except.ok.inj hb⟩

/-- A login is replied to with what the table answers. -/
theorem Serializer.login_eq_ok {δ : Type} {db : Database δ} {s : Server δ} {username : Bytes}
    {pwHash : UInt64} {reply : Bytes} :
    (Serializer.login db s username pwHash).1 = .ok reply ↔
      ∃ userId, (db.getUserId s.db username pwHash).1 = .ok userId ∧
        replyOf (Serializer.authReply requests.login userId) = .ok reply := by
  unfold Serializer.login
  obtain ⟨answer, table⟩ := db.getUserId s.db username pwHash
  cases answer with
  | error e => exact ⟨nofun, nofun⟩
  | ok userId => exact ⟨fun h => ⟨userId, rfl, h⟩, fun ⟨_, hfound, h⟩ => Except.ok.inj hfound ▸ h⟩

/-- A registration is replied to with what the market answers to it. -/
theorem Serializer.registerUser_eq_ok {δ : Type} {db : Database δ} {s : Server δ}
    {username : Bytes} {pwHash : UInt64} {reply : Bytes} :
    (Serializer.registerUser db s username pwHash).1 = .ok reply ↔
      ∃ exist, (db.usernameExist s.db username).1 = .ok exist ∧
        replyOf (Serializer.authReply requests.regConfirmation
          ((s.market.registerUser (nameOf username) exist).1.map UInt64.ofNat)) = .ok reply := by
  unfold Serializer.registerUser
  obtain ⟨answer, table⟩ := db.usernameExist s.db username
  cases answer with
  | error e => exact ⟨nofun, nofun⟩
  | ok exist => exact ⟨fun h => ⟨exist, rfl, h⟩, fun ⟨_, hexist, h⟩ => Except.ok.inj hexist ▸ h⟩

/-- The replies that are no objects. -/
theorem isDocument_text {s : Bytes} (t : Bytes) (h : Json.dumpString t = some s) :
    IsDocument (.ok s) := by
  intro b hb
  exact ⟨⟨.string t, trivial, trivial, s, h⟩, Except.ok.inj hb⟩

theorem isDocument_readUser {s : Market} {u : Nat} {reply : UserData → Json}
    (h : ∀ d, (reply d).Writable) (hd : ∀ d, (reply d).Delimited) :
    IsDocument (Serializer.readUser s u reply) := by
  unfold Serializer.readUser
  split
  · exact isDocument_error _
  · exact isDocument_replyOf (h _) (hd _)

namespace Session

variable {δ : Type} (db : Database δ) (s : Server δ)

theorem isDocument_reading {α : Type} {x : Except Json.Exception α}
    {f : α → Except Exception Bytes × Server δ} (h : ∀ a, IsDocument (f a).1) :
    IsDocument (reading s x f).1 := by
  unfold reading
  cases x with
  | error e => exact isDocument_error _
  | ok a => exact h a

theorem isDocument_servePost (request : Json) : IsDocument (servePost s request).1 := by
  refine isDocument_reading s fun side => isDocument_reading s fun userId =>
    isDocument_reading s fun price => isDocument_reading s fun amount => ?_
  split
  · exact isDocument_text (text "Offer was posted.") rfl
  · exact isDocument_error _

theorem isDocument_serveCancel (request : Json) : IsDocument (serveCancel s request).1 := by
  refine isDocument_reading s fun userId => isDocument_reading s fun offerId => ?_
  simp only [onMarket, Serializer.cancelOffer]
  split
  · exact isDocument_error _
  · exact isDocument_replyOf (Serializer.writable_cancelReply _) trivial

theorem isDocument_login (username : Bytes) (pwHash : UInt64) :
    IsDocument (Serializer.login db s username pwHash).1 := by
  intro reply h
  obtain ⟨userId, -, hreply⟩ := Serializer.login_eq_ok.mp h
  exact isDocument_replyOf (Serializer.writable_authReply rfl userId) trivial reply hreply

theorem isDocument_registerUser (username : Bytes) (pwHash : UInt64) :
    IsDocument (Serializer.registerUser db s username pwHash).1 := by
  intro reply h
  obtain ⟨exist, -, hreply⟩ := Serializer.registerUser_eq_ok.mp h
  exact isDocument_replyOf (Serializer.writable_authReply rfl _) trivial reply hreply

/-- Every reply of the server is a document. -/
theorem isDocument_serve (request : Json) : IsDocument (serve db s request).1 := by
  apply isDocument_reading
  intro type
  repeat' split
  · refine isDocument_reading s fun username => isDocument_reading s fun pwHash => ?_
    exact isDocument_registerUser db s username pwHash
  · refine isDocument_reading s fun username => isDocument_reading s fun pwHash => ?_
    exact isDocument_login db s username pwHash
  · apply isDocument_reading s
    intro userId
    exact isDocument_readUser (fun _ => Serializer.writable_balanceReply _) fun _ => trivial
  · apply isDocument_reading s
    intro userId
    exact isDocument_readUser (fun _ => Serializer.writable_activeOffersReply _) fun _ => trivial
  · apply isDocument_reading s
    intro userId
    exact isDocument_readUser (fun _ => Serializer.writable_closedDealsReply _ _) fun _ => trivial
  · exact isDocument_servePost s request
  · simp only [onMarket, Serializer.getQuotes]
    split
    · exact isDocument_replyOf (Serializer.writable_quotesReply _ _) trivial
    · exact isDocument_error _
  · exact isDocument_serveCancel s request
  · exact isDocument_text (text "ERROR: Unknown request type") rfl

end Session

end ForexMarket
