import ForexMarket.Proofs.Answers

/- Requests and replies on the connection. A session takes each completed read for one
   request, and the client takes its first read for the whole reply. Both are right
   exactly when the transport cuts the stream at the ends of the messages and a
   message fits the buffer; documents being what they are, any other cut ends
   the server or the client with an exception. -/
namespace ForexMarket

open Json (Document)

/-! Requests. -/

namespace Session

variable {δ : Type} (db : Database δ)

/-- The completed reads TCP makes of a list of requests: none is empty or larger than the buffer,
and together they are the bytes that were written. -/
structure Delivery (requests : List Document) where
  reads : List Bytes
  nonempty : ∀ r ∈ reads, r ≠ []
  fits : ∀ r ∈ reads, r.length ≤ maxLength
  joined : reads.flatten = documents.stream requests

/-- Each request in a read of its own. -/
def Delivery.apart (requests : List Document) (h : ∀ r ∈ requests, r.bytes.length ≤ maxLength) :
    Delivery requests where
  reads := requests.map Document.bytes
  nonempty := List.forall_mem_map.mpr fun r _ => r.bytes_ne_nil
  fits := List.forall_mem_map.mpr h
  joined := List.flatMap_def.symm

/-- The requests are executed, in order and each once, and every terminator is stored inside the
buffer. -/
def Framed (trace : List (Bytes × Outcome δ)) (requests : List Document) : Prop :=
  executed trace = requests.map Document.value ∧ ∀ i ∈ terminators trace, i < maxLength

/-- Each request but the last is answerable when it is served. -/
def Served (s : Server δ) : List Json → Prop
  | [] => True
  | [_] => True
  | v :: w :: vs => answerable db s v = true ∧ Served (serve db s v).2 (w :: vs)

/-- The read that is parsed is the bytes that were read. -/
theorem parse_data (bytes data : Bytes) :
    Json.parse (bytes ++ 0x00 :: data.drop (bytes.length + 1)) = Json.parse bytes :=
  Json.parse_nul bytes _

variable {db}

/-! How a run goes on after a read. -/

theorem run_rejected {data bytes : Bytes} {s : Server δ} (hlt : bytes.length < maxLength)
    (hparse : Json.parse bytes = none) (reads : List Bytes) :
    run db data s (bytes :: reads) = [(bytes, .rejected)] := by
  simp only [run, handleRead, if_pos hlt, parse_data, hparse]

theorem run_threw {data bytes : Bytes} {s s' : Server δ} {v : Json} {e : Exception}
    (hlt : bytes.length < maxLength) (hparse : Json.parse bytes = some v)
    (hserve : serve db s v = (.error e, s')) (reads : List Bytes) :
    run db data s (bytes :: reads) = [(bytes, .threw v e s')] := by
  simp only [run, handleRead, if_pos hlt, parse_data, hparse, hserve]

theorem run_undefined {data bytes : Bytes} {s : Server δ} (hge : ¬ bytes.length < maxLength)
    (reads : List Bytes) : run db data s (bytes :: reads) = [(bytes, .undefined)] := by
  simp only [run, handleRead, if_neg hge]

theorem run_replied (data : Bytes) {bytes reply : Bytes} {s s' : Server δ} {v : Json}
    (hlt : bytes.length < maxLength) (hparse : Json.parse bytes = some v)
    (hserve : serve db s v = (.ok reply, s')) (reads : List Bytes) :
    ∃ data', executed (run db data s (bytes :: reads)) = v :: executed (run db data' s' reads) ∧
      terminators (run db data s (bytes :: reads)) =
        bytes.length :: terminators (run db data' s' reads) := by
  refine ⟨bytes ++ 0x00 :: data.drop (bytes.length + 1), ?_⟩
  simp only [run, handleRead, if_pos hlt, parse_data, hparse, hserve]
  exact ⟨rfl, rfl⟩

theorem serve_of_replied {data bytes reply data' : Bytes} {s s' : Server δ} {v request : Json}
    (hparse : Json.parse bytes = some v)
    (h : handleRead db data s bytes = .replied request reply data' s') :
    serve db s v = (.ok reply, s') := by
  simp only [handleRead, parse_data, hparse] at h
  split at h
  · cases hserve : serve db s v with
    | mk result s'' =>
      rw [hserve] at h
      cases result with
      | error e => cases h
      | ok reply' =>
        cases h
        rfl
  · cases h

/-- A read that parses is the first request. -/
theorem parse_read {requests : List Document} {r rest : Bytes} {v : Json} (hne : r ≠ [])
    (hstream : r ++ rest = documents.stream requests) (h : Json.parse r = some v) :
    ∃ m ms, requests = m :: ms ∧ r = m.bytes ∧ v = m.value ∧ rest = documents.stream ms :=
  documents.decode_read hne hstream h

/-- Nothing is left of a stream of no requests. -/
theorem reads_eq_nil {reads : List Bytes} (hne : ∀ r ∈ reads, r ≠ []) (h : reads.flatten = []) :
    reads = [] := by
  cases reads with
  | nil => rfl
  | cons r reads =>
    exact absurd (List.append_eq_nil_iff.mp h).1 (hne r (List.mem_cons_self ..))

theorem served_of_reply {s s' : Server δ} {v : Json} {reply : Bytes} (hs : s.market.Reachable)
    (h : serve db s v = (.ok reply, s')) (vs : List Json) :
    Served db s (v :: vs) ↔ Served db s' vs := by
  have hanswer : answerable db s v = true := by
    rw [← serve_isOk db hs v, h]
    rfl
  cases vs with
  | nil => exact Iff.rfl
  | cons w ws =>
    rw [Served, h]
    exact and_iff_right hanswer

theorem served_of_throw {s s' : Server δ} {v : Json} {e : Exception} (hs : s.market.Reachable)
    (h : serve db s v = (.error e, s')) (vs : List Json) : Served db s (v :: vs) ↔ vs = [] := by
  have hanswer : answerable db s v = false := by
    rw [← serve_isOk db hs v, h]
    rfl
  cases vs with
  | nil => simp [Served]
  | cons w ws => simp [Served, hanswer]

/-- A session that gets the requests in some reads executes them, in order and each once, and
stores no terminator outside the buffer, exactly when each read is one request and fits with its
terminator, and each request before the last is answerable. -/
theorem run_iff {reads : List Bytes} {requests : List Document} (data : Bytes) {s : Server δ}
    (hs : s.market.Reachable) (hne : ∀ r ∈ reads, r ≠ [])
    (hjoined : reads.flatten = documents.stream requests) :
    Framed (run db data s reads) requests ↔
      reads = requests.map Document.bytes ∧ (∀ r ∈ requests, r.bytes.length < maxLength) ∧
        Served db s (requests.map Document.value) := by
  induction reads generalizing data s requests with
  | nil =>
    cases requests with
    | nil => simp [run, Framed, executed, terminators, Served]
    | cons m ms =>
      have hnil := (List.append_eq_nil_iff.mp hjoined.symm).1
      exact absurd hnil m.bytes_ne_nil
  | cons r reads ih =>
    have hr : r ≠ [] := hne r (List.mem_cons_self ..)
    have hrest := fun q hq => hne q (List.mem_cons_of_mem _ hq)
    rw [List.flatten_cons] at hjoined
    obtain ⟨m, ms, rfl⟩ : ∃ m ms, requests = m :: ms := by
      cases requests with
      | nil => exact absurd (List.append_eq_nil_iff.mp hjoined).1 hr
      | cons m ms => exact ⟨m, ms, rfl⟩
    rw [Framed, List.map_cons, List.map_cons, List.cons_eq_cons, List.forall_mem_cons]
    by_cases hlt : r.length < maxLength
    · cases hparse : Json.parse r with
      | none =>
        -- no request, so nothing is executed, and the read is not the first request
        have hcut : r ≠ m.bytes := by
          rintro rfl
          rw [m.parse_bytes] at hparse
          cases hparse
        rw [run_rejected hlt hparse]
        exact ⟨fun h => absurd h.1 (List.cons_ne_nil _ _).symm, fun h => absurd h.1.1 hcut⟩
      | some v =>
        -- a read that parses is the first request, and the rest of the stream is to come
        obtain ⟨m', ms', heq, rfl, rfl, hstream⟩ := parse_read hr hjoined hparse
        obtain ⟨rfl, rfl⟩ := List.cons.inj heq
        cases hserve : serve db s m.value with
        | mk result s' =>
          have hs' := reachable_serve db hs m.value
          rw [hserve] at hs'
          cases result with
          | ok reply =>
            obtain ⟨data', hexecuted, hterminators⟩ :=
              run_replied data hlt hparse hserve reads
            rw [hexecuted, hterminators, served_of_reply hs hserve, List.cons_eq_cons,
              List.forall_mem_cons]
            simp only [hlt, true_and]
            exact ih data' hs' hrest hstream
          | error e =>
            rw [run_threw hlt hparse hserve, served_of_throw hs hserve]
            constructor
            · rintro ⟨hexecuted, -⟩
              have hlast : ms.map Document.value = [] := (List.cons.inj hexecuted).2.symm
              obtain rfl := List.map_eq_nil_iff.mp hlast
              obtain rfl := reads_eq_nil hrest hstream
              exact ⟨⟨rfl, rfl⟩, ⟨hlt, fun _ h => nomatch h⟩, rfl⟩
            · rintro ⟨-, -, hlast⟩
              rw [hlast]
              refine ⟨rfl, fun i hi => ?_⟩
              rw [List.mem_singleton.mp hi]
              exact hlt
    · -- the terminator of a full buffer is stored behind it
      rw [run_undefined hlt]
      refine ⟨fun h => absurd (h.2 r.length (List.mem_singleton_self _)) hlt, fun h => ?_⟩
      rw [h.1.1] at hlt
      exact absurd h.2.1.1 hlt

/-- However TCP cuts the requests of a client into reads, a session executes exactly these requests,
in order and each once, with every terminator inside the buffer, if and only if each read is one
request that leaves room for the terminator, and each request before the last has the fields it is
read for, names a registered user if any, and makes no query that throws. -/
theorem requests_framed_iff {δ : Type} (db : Database δ) (data : Bytes) (s : Server δ)
    (hs : s.market.Reachable) (requests : List Document) (d : Delivery requests) :
    Framed (run db data s d.reads) requests ↔
      d.reads = requests.map Document.bytes ∧ (∀ r ∈ requests, r.bytes.length < maxLength) ∧
        Served db s (requests.map Document.value) :=
  run_iff data hs d.nonempty d.joined

/-! A server with a small market, and a request for the quotes. -/

def sampleServer : Server (List (UInt64 × Bytes × UInt64)) := { market := Market.sample, db := [] }

def quotesRequest : Document := (ClientRequest.idOnly requests.quotes 0).document rfl

theorem apart_framed :
    Framed (run userTable [] sampleServer [quotesRequest.bytes, quotesRequest.bytes])
      [quotesRequest, quotesRequest] :=
  (requests_framed_iff userTable [] sampleServer Market.sample_reachable _
    (.apart [quotesRequest, quotesRequest] (by decide))).mpr ⟨rfl, by decide, rfl, trivial⟩

/-- A request cut in two. -/
def cut : Delivery [quotesRequest] where
  reads := [quotesRequest.bytes.take 1, quotesRequest.bytes.drop 1]
  nonempty := by decide
  fits := by decide
  joined := rfl

/-- Two requests in one read. -/
def joint : Delivery [quotesRequest, quotesRequest] where
  reads := [quotesRequest.bytes ++ quotesRequest.bytes]
  nonempty := by decide
  fits := by decide
  joined := rfl

/-- A login with a name that makes the request as long as the buffer. -/
def longRequest : Document :=
  (ClientRequest.login (List.replicate 4056 0x61) 1).document
    (by decide +kernel : (Json.dumpString (List.replicate 4056 0x61)).isSome)

/-- A request that fills the buffer. -/
def full : Delivery [longRequest] := .apart [longRequest] (by decide +kernel)

theorem requests_not_framed :
    ¬ Framed (run userTable [] sampleServer cut.reads) [quotesRequest] ∧
      ¬ Framed (run userTable [] sampleServer joint.reads) [quotesRequest, quotesRequest] ∧
      ¬ Framed (run userTable [] sampleServer full.reads) [longRequest] := by
  refine ⟨fun h => ?_, fun h => ?_, fun h => ?_⟩
  · exact absurd (congrArg List.length h.1) (by decide +kernel)
  · exact absurd (congrArg List.length h.1) (by decide +kernel)
  · exact absurd (h.2 4096 (by decide +kernel)) (by decide)

end Session

/-! Replies. -/

namespace Client

variable {δ : Type} (db : Database δ)

/-- Every reply that was sent has been parsed as a response, in order, each response being the
value the whole reply is the text of, and nothing is left of them. -/
def Talk.Framed (t : Talk) : Prop :=
  List.Forall₂ (fun reply response => Json.dump response = some reply) t.sent t.responses ∧
    t.pending = []

/-- The first read of every exchange takes in the whole reply. -/
def ReadWhole (data : Bytes) (s : Server δ) : List (ClientRequest × Nat) → Prop
  | [] => True
  | (request, more) :: exchanges =>
    ∀ reply data' s', exchange db data s request = some (reply, data', s') →
      reply.length ≤ min (more + 1) readLimit ∧ ReadWhole data' s' exchanges

/-- A request that is replied to was served. -/
theorem serve_of_exchange {data data' reply : Bytes} {s s' : Server δ} {request : ClientRequest}
    (h : exchange db data s request = some (reply, data', s')) :
    Session.serve db s request.toJson = (.ok reply, s') := by
  cases hdump : request.toJson.dump with
  | none =>
    rw [exchange, hdump] at h
    cases h
  | some text =>
    simp only [exchange, hdump] at h
    cases hread : Session.handleRead db data s text with
    | replied v reply' data'' s'' =>
      rw [hread] at h
      cases h
      exact Session.serve_of_replied (ClientRequest.parse_toJson hdump) hread
    | _ =>
      rw [hread] at h
      cases h

theorem readResponse_document (d : Document) (more : Nat) :
    readResponse d.bytes more =
      if d.bytes.length ≤ min (more + 1) readLimit then (.ok d.value, [])
      else (.error .parseError, d.bytes.drop (min (more + 1) readLimit)) := by
  have htake : Json.parse (d.bytes.take (min (more + 1) readLimit)) =
      if d.bytes.length ≤ min (more + 1) readLimit then some d.value else none :=
    documents.decode_take d _
  by_cases hle : d.bytes.length ≤ min (more + 1) readLimit
  · rw [if_pos hle] at htake
    simp only [readResponse, readUntil, htake, if_pos hle, List.drop_of_length_le hle]
  · rw [if_neg hle] at htake
    simp only [readResponse, readUntil, htake, if_neg hle]

/-! The reply to a registration or a login is understood. -/

/-- `ReadAuthResponse` returns the id the server replied with, when it reads the whole reply. -/
theorem readAuthResponse_document {d : Document} {type : Bytes} {userId : Option UInt64}
    (hd : d.value = Serializer.authReply type userId) (more : Nat) :
    readAuthResponse d.bytes more =
      if d.bytes.length ≤ min (more + 1) readLimit then (.ok userId, [])
      else (.error .parseError, d.bytes.drop (min (more + 1) readLimit)) := by
  simp only [readAuthResponse, readResponse_document]
  by_cases hle : d.bytes.length ≤ min (more + 1) readLimit
  · simp only [if_pos hle, hd, authResult_authReply]
  · simp only [if_neg hle]

/-- The request of `Client::Register` and `Client::Login`, as the server reads it. -/
theorem serveAuth_authObject (s : Server δ) (type username : Bytes) (pwHash : UInt64)
    (f : Bytes → UInt64 → Except Exception Bytes × Server δ) :
    Session.serveAuth s (ClientRequest.authObject type username pwHash) f = f username pwHash := by
  calc Session.serveAuth s (ClientRequest.authObject type username pwHash) f
      = Session.reading s (Json.ofUInt64 pwHash).getUInt64 fun pwHash => f username pwHash := rfl
    _ = f username pwHash := by rw [Json.getUInt64_ofUInt64]; rfl

theorem serve_register (s : Server δ) (username : Bytes) (pwHash : UInt64) :
    Session.serve db s (ClientRequest.register username pwHash).toJson =
      Serializer.registerUser db s username pwHash := by
  calc Session.serve db s (ClientRequest.register username pwHash).toJson
      = Session.serveAuth s (ClientRequest.authObject requests.registration username pwHash)
          (Serializer.registerUser db s) := rfl
    _ = Serializer.registerUser db s username pwHash := serveAuth_authObject s _ _ _ _

theorem serve_login (s : Server δ) (username : Bytes) (pwHash : UInt64) :
    Session.serve db s (ClientRequest.login username pwHash).toJson =
      Serializer.login db s username pwHash := by
  calc Session.serve db s (ClientRequest.login username pwHash).toJson
      = Session.serveAuth s (ClientRequest.authObject requests.login username pwHash)
          (Serializer.login db s) := rfl
    _ = Serializer.login db s username pwHash := serveAuth_authObject s _ _ _ _

/-- The value of a reply is the value it was made of. -/
theorem value_of_replyOf {v : Json} {d : Document} (hv : v.Writable) (hd : v.Delimited)
    (h : replyOf v = .ok d.bytes) : d.value = v := by
  obtain ⟨e, hvalue, hreply⟩ := replyOf_document hv hd
  have hbytes : e.bytes = d.bytes := Except.ok.inj (hreply.symm.trans h)
  have hparse := e.parse_bytes
  rw [hbytes, d.parse_bytes] at hparse
  exact (Option.some.inj hparse).trans hvalue

/-- No response stops the client. -/
theorem goesOn_of_serve {s s' : Server δ} {request : ClientRequest} {d : Document}
    (h : Session.serve db s request.toJson = (.ok d.bytes, s')) :
    goesOn request d.value = true := by
  have hauth : ∀ {type userId}, (Json.dumpString type).isSome →
      replyOf (Serializer.authReply type userId) = .ok d.bytes →
      (authResult d.value).isOk = true := by
    intro type userId htype hreply
    have hvalue := value_of_replyOf (Serializer.writable_authReply htype userId) trivial hreply
    rw [hvalue, authResult_authReply]
    rfl
  cases request with
  | register username pwHash =>
    rw [serve_register] at h
    obtain ⟨exist, -, hreply⟩ := Serializer.registerUser_eq_ok.mp (congrArg Prod.fst h)
    exact hauth rfl hreply
  | login username pwHash =>
    rw [serve_login] at h
    obtain ⟨userId, -, hreply⟩ := Serializer.login_eq_ok.mp (congrArg Prod.fst h)
    exact hauth rfl hreply
  | _ => rfl

/-- One exchange on a connection with nothing left on it. -/
theorem talk_reply {data data' : Bytes} {s s' : Server δ} {request : ClientRequest} {d : Document}
    (h : exchange db data s request = some (d.bytes, data', s')) (more : Nat)
    (exchanges : List (ClientRequest × Nat)) :
    talk db [] data s ((request, more) :: exchanges) =
      if d.bytes.length ≤ min (more + 1) readLimit then
        { sent := d.bytes :: (talk db [] data' s' exchanges).sent,
          responses := d.value :: (talk db [] data' s' exchanges).responses,
          pending := (talk db [] data' s' exchanges).pending }
      else { sent := [d.bytes], responses := [],
             pending := d.bytes.drop (min (more + 1) readLimit) } := by
  simp only [talk, h, List.nil_append, readResponse_document]
  by_cases hle : d.bytes.length ≤ min (more + 1) readLimit
  · simp only [if_pos hle, goesOn_of_serve db (serve_of_exchange db h), if_true]
  · simp only [if_neg hle]

/-- Whatever a client asks for and however the transport splits the replies, each response it
parses is the reply to its request and no byte is left over, if and only if the first read of
every exchange takes in the whole reply, which has at most 512 bytes then. -/
theorem replies_framed_iff {δ : Type} (db : Database δ) (data : Bytes) (s : Server δ)
    (exchanges : List (ClientRequest × Nat)) :
    (talk db [] data s exchanges).Framed ↔ ReadWhole db data s exchanges := by
  induction exchanges generalizing data s with
  | nil => exact ⟨fun _ => trivial, fun _ => ⟨.nil, rfl⟩⟩
  | cons exchange exchanges ih =>
    obtain ⟨request, more⟩ := exchange
    cases hreply : Client.exchange db data s request with
    | none =>
      -- one side is gone, and nothing was sent back
      have htalk : talk db [] data s ((request, more) :: exchanges) =
          { sent := [], responses := [], pending := [] } := by simp only [talk, hreply]
      rw [htalk, ReadWhole]
      refine ⟨fun _ _ _ _ h => ?_, fun _ => ⟨.nil, rfl⟩⟩
      rw [hreply] at h
      cases h
    | some answer =>
      obtain ⟨reply, data', s'⟩ := answer
      -- every reply is a document, so a part of it does not parse
      obtain ⟨d, rfl⟩ := Session.isDocument_serve db s request.toJson reply
        (congrArg Prod.fst (serve_of_exchange db hreply))
      rw [talk_reply db hreply, ReadWhole]
      have hcond : (∀ reply data'' s'',
            Client.exchange db data s request = some (reply, data'', s'') →
              reply.length ≤ min (more + 1) readLimit ∧ ReadWhole db data'' s'' exchanges) ↔
          d.bytes.length ≤ min (more + 1) readLimit ∧ ReadWhole db data' s' exchanges := by
        simp only [hreply, Option.some.injEq, Prod.mk.injEq, and_imp]
        exact ⟨fun h => h _ _ _ rfl rfl rfl, by rintro h _ _ _ rfl rfl rfl; exact h⟩
      rw [hcond]
      by_cases hle : d.bytes.length ≤ min (more + 1) readLimit
      · rw [if_pos hle, ← ih data' s']
        constructor
        · rintro ⟨hall, hpending⟩
          exact ⟨hle, (List.forall₂_cons.mp hall).2, hpending⟩
        · rintro ⟨-, hall, hpending⟩
          exact ⟨.cons d.dump_eq hall, hpending⟩
      · rw [if_neg hle]
        exact ⟨fun h => (nomatch h.1), fun h => absurd h.1 hle⟩

/-! A client that registers with a new server. -/

def newServer : Server (List (UInt64 × Bytes × UInt64)) :=
  { market := .empty 0 0 0, db := [] }

/-- Its reads take in all that has arrived, as far as there is room for it. -/
def wholeReads (requests : List ClientRequest) : List (ClientRequest × Nat) :=
  requests.map fun request => (request, readLimit - 1)

/-- Nine offers are listed in 521 bytes. -/
def manyOffers : List ClientRequest :=
  .register (text "u") 1 ::
    (List.replicate 9 (.postOffer 0 2 2147483647 2147483647) ++ [.idOnly requests.activeOffers 0])

/-- A reply that is split, and a reply that is longer than the first read. -/
theorem replies_not_framed :
    ¬ (talk userTable [] [] newServer [(.idOnly requests.quotes 0, 0)]).Framed ∧
      ¬ (talk userTable [] [] newServer (wholeReads manyOffers)).Framed := by
  refine ⟨fun h => absurd h.2 ?_, fun h => absurd h.2 ?_⟩ <;> decide +kernel

end Client

end ForexMarket
