/-
Connections (`bin/uldb.rs`).

Each client has a thread of its own.  The thread sends a CHALLENGE, reads the HELLO that answers
it, sends a WELCOME, and then reads one request after the other; what is in the frames is the
business of `ulmp`.  The threads share the handler and the flag that ends the loops, and their
steps come in any order.

* `tokenHolds_iff` — the comparison without a branch accepts the one right answer;
* `dialogue` — what a connection has sent, and what it has given to the handler, in any run.
-/
import Uldb.Frames

namespace Uldb.Ump

open BigEndian

/-! ### What the server takes from `ulmp` -/

/-- `Header`, as far as the server reads it. -/
structure Header where
  opcode : UInt8
  streamId : UInt16
  payloadLength : UInt32
  deriving DecidableEq, Repr

/-- A request as it was read. -/
abbrev Received := Header × Bytes

/-- The arguments of `build_frame`, whose flags are always zero. -/
structure Frame where
  opcode : UInt8
  streamId : UInt16
  seq : UInt32
  payload : Bytes
  deriving DecidableEq, Repr

/-- `Response` of `ulmp`. -/
inductive Response where
  | single (opcode : UInt8) (payload : Bytes)
  | stream (frames : List (UInt8 × Bytes))
  | disconnect (opcode : UInt8) (payload : Bytes)
  | none
  deriving DecidableEq, Repr

/-- The functions and constants of `ulmp`.  A HELLO is decoded to its token hash, a PING to its
timestamp. -/
structure Ulmp where
  headerSize : ℕ
  decodeHeader : Bytes → Option Header
  decodeHello : Bytes → Option Bytes
  decodePing : Bytes → Option UInt64
  encodePong : UInt64 → Bytes
  hmacSha256 : Bytes → Bytes → Vector UInt8 32
  opChallenge : UInt8
  opHello : UInt8
  opWelcome : UInt8
  opPing : UInt8
  opPong : UInt8
  opGoodbye : UInt8
  opError : UInt8

/-! ### Frames -/

/-- `read_exact`, on what the client is going to send before it stops. -/
def readExact (n : ℕ) (input : Bytes) : Option (Bytes × Bytes) :=
  if n ≤ input.length then some (input.take n, input.drop n) else none

section

variable (u : Ulmp)

/-- A frame, and what follows it. -/
def recvFrame (input : Bytes) : Option (Received × Bytes) :=
  (readExact u.headerSize input).bind fun (hdr, input) =>
    (u.decodeHeader hdr).bind fun header =>
      (readExact header.payloadLength.toNat input).map fun (payload, rest) =>
        ((header, payload), rest)

def challenge (nonce : Bytes) : Frame := ⟨u.opChallenge, 0, 0, binEnc [(tagBytes, nonce)]⟩

/-- The session id, the name of the server and its limits. -/
def welcome (serverName : Bytes) (sessionId : UInt64) : Frame :=
  ⟨u.opWelcome, 0, 0, binEnc [(tagU64, be 8 sessionId.toNat), (tagString, serverName),
    (tagU32, be 4 (64 * 1024 * 1024)), (tagU32, be 4 128)]⟩

/-- The timestamp of a PING, or else its bytes. -/
def pongPayload (payload : Bytes) : Bytes :=
  match u.decodePing payload with
  | some timestampUs => u.encodePong timestampUs
  | none => payload

/-- `dispatch` failed to decode the payload. -/
def decodeError (err : Bytes) : Response :=
  .single u.opError (binEnc [(tagU8, [0x21]), (tagU32, be 4 0),
    (tagString, "decode error: ".toUTF8.toList ++ err)])

end

/-! ### The token -/

/-- All bytes are compared, whatever the first ones are. -/
def tokenHolds (expected : Vector UInt8 32) (tokenHash : Bytes) : Bool :=
  let diff := (expected.toList.zip tokenHash).foldl (fun diff ab => diff ||| (ab.1 ^^^ ab.2)) 0
  !(diff != 0 || tokenHash.length != 32)

theorem UInt8.or_eq_zero_iff {a b : UInt8} : a ||| b = 0 ↔ a = 0 ∧ b = 0 := by
  rw [← UInt8.toBitVec_inj, ← UInt8.toBitVec_inj, ← UInt8.toBitVec_inj]
  exact BitVec.or_eq_zero_iff

theorem foldl_diff_eq_zero (pairs : List (UInt8 × UInt8)) (diff : UInt8) :
    pairs.foldl (fun diff ab => diff ||| (ab.1 ^^^ ab.2)) diff = 0
      ↔ diff = 0 ∧ ∀ ab ∈ pairs, ab.1 = ab.2 := by
  induction pairs generalizing diff with
  | nil => simp
  | cons ab pairs ih =>
    rw [List.foldl_cons, ih, UInt8.or_eq_zero_iff, UInt8.xor_eq_zero_iff, List.forall_mem_cons,
      and_assoc]

theorem eq_of_zip {as bs : Bytes} (hlen : as.length = bs.length)
    (h : ∀ ab ∈ as.zip bs, ab.1 = ab.2) : bs = as := by
  induction as generalizing bs with
  | nil => exact List.length_eq_zero_iff.mp hlen.symm
  | cons a as ih =>
    cases bs with
    | nil => exact absurd hlen (by simp)
    | cons b bs =>
      rw [List.zip_cons_cons, List.forall_mem_cons] at h
      have hab : a = b := h.1
      rw [hab, ih (Nat.succ.inj hlen) h.2]

/-- **The comparison** accepts the expected hash only. -/
theorem tokenHolds_iff {expected : Vector UInt8 32} {tokenHash : Bytes} :
    tokenHolds expected tokenHash = true ↔ tokenHash = expected.toList := by
  have hlen : expected.toList.length = 32 := Vector.length_toList
  rw [tokenHolds, Bool.not_eq_true', Bool.or_eq_false_iff, bne_eq_false_iff_eq,
    bne_eq_false_iff_eq, foldl_diff_eq_zero]
  constructor
  · intro h
    exact eq_of_zip (by omega) h.1.2
  · intro h
    subst h
    refine ⟨⟨rfl, fun ab hab => ?_⟩, hlen⟩
    rw [List.zip_eq_zipWith, List.zipWith_self, List.mem_map] at hab
    obtain ⟨a, -, rfl⟩ := hab
    rfl

/-! ### The thread of a connection -/

/-- What `dispatch` comes back with: a response, the text of a decode error, or a panic. -/
abbrev Outcome := Option (Except Bytes Response)

/-- The thread waits for the answer to its challenge, for the next request or for the handler. -/
inductive Phase where
  | hello (nonce : Bytes)
  | ready (seq : UInt32)
  | serving (seq : UInt32) (request : Received)
  | closed

/-- A connection, with all that its client is still going to send. -/
structure Connection where
  phase : Phase
  input : Bytes
  sent : List Frame

/-- What a thread does next: it reads the HELLO, for which the nonce store tells whether it still
has the nonce, it reads a request, or the handler returns. -/
inductive Action where
  | greet (fresh : Bool) (sessionId : UInt64)
  | turn
  | answer (outcome : Outcome)

namespace Connection

def opened (u : Ulmp) (nonce input : Bytes) : Connection :=
  ⟨.hello nonce, input, [challenge u nonce]⟩

def close (c : Connection) : Connection := { c with phase := .closed }

/-- `send_frame`, whose errors are dropped. -/
def send (c : Connection) (frame : Frame) : Connection := { c with sent := c.sent ++ [frame] }

def greet (u : Ulmp) (token serverName nonce : Bytes) (fresh : Bool) (sessionId : UInt64)
    (c : Connection) : Connection :=
  match recvFrame u c.input with
  | none => c.close
  | some ((header, payload), input) =>
    if header.opcode ≠ u.opHello then c.close
    else match u.decodeHello payload with
      | none => c.close
      | some tokenHash =>
        if !tokenHolds (u.hmacSha256 token nonce) tokenHash then c.close
        else if !fresh then c.close
        else { c.send (welcome u serverName sessionId) with phase := .ready 1, input := input }

/-- A turn of the loop, up to the call of the handler. -/
def turn (u : Ulmp) (shutdown : Bool) (seq : UInt32) (c : Connection) : Connection :=
  if shutdown then c.close
  else match recvFrame u c.input with
    | none => c.close
    | some ((header, payload), input) =>
      if header.opcode = u.opPing then
        { c.send ⟨u.opPong, header.streamId, seq, pongPayload u payload⟩ with
          phase := .ready (seq + 1), input := input }
      else if header.opcode = u.opGoodbye then c.close
      else { c with phase := .serving seq (header, payload), input := input }

/-- The frames of a response, each with the next number. -/
def sendAll (streamId : UInt16) (c : Connection) (seq : UInt32) :
    List (UInt8 × Bytes) → Connection × UInt32
  | [] => (c, seq)
  | (opcode, payload) :: frames =>
    sendAll streamId (c.send ⟨opcode, streamId, seq, payload⟩) (seq + 1) frames

def respond (streamId : UInt16) (seq : UInt32) (c : Connection) : Response → Connection
  | .single opcode payload =>
    { c.send ⟨opcode, streamId, seq, payload⟩ with phase := .ready (seq + 1) }
  | .stream frames =>
    let (c, seq) := sendAll streamId c seq frames
    { c with phase := .ready seq }
  | .disconnect opcode payload => (c.send ⟨opcode, streamId, seq, payload⟩).close
  | .none => { c with phase := .ready seq }

/-- The rest of a turn.  A panic ends the thread. -/
def answer (u : Ulmp) (streamId : UInt16) (seq : UInt32) (c : Connection) :
    Outcome → Connection
  | none => c.close
  | some (.ok response) => respond streamId seq c response
  | some (.error err) => respond streamId seq c (decodeError u err)

/-- An action, if the thread is where it comes next. -/
def act (u : Ulmp) (token serverName : Bytes) (shutdown : Bool) (c : Connection) (a : Action) :
    Option Connection :=
  match c.phase, a with
  | .hello nonce, .greet fresh sessionId =>
    some (c.greet u token serverName nonce fresh sessionId)
  | .ready seq, .turn => some (c.turn u shutdown seq)
  | .serving seq (header, _), .answer outcome => some (c.answer u header.streamId seq outcome)
  | _, _ => none

/-- The request that is with the handler. -/
def request (c : Connection) : Option Received :=
  match c.phase with
  | .serving _ request => some request
  | _ => none

end Connection

namespace Action

/-- What the thread has given to the handler when it has done the action. -/
def calls (c' : Connection) : Action → List Received
  | turn => c'.request.toList
  | _ => []

/-- What the handler has returned. -/
def outcomes : Action → List Outcome
  | answer outcome => [outcome]
  | _ => []

end Action

/-! ### The server -/

/-- The flag that ends the loops, the connections in the order in which they were accepted, and
the requests that were given to the handler, each with the number of its connection. -/
structure Host where
  shutdown : Bool
  connections : List Connection
  calls : List (ℕ × Received)

inductive Event where
  | accept (nonce input : Bytes)
  | act (i : ℕ) (a : Action)
  | shutdown

namespace Host

variable (u : Ulmp) (token serverName : Bytes)

def new : Host := ⟨false, [], []⟩

def step (h : Host) : Event → Option Host
  | .accept nonce input =>
    some { h with connections := h.connections ++ [Connection.opened u nonce input] }
  | .act i a =>
    h.connections[i]?.bind fun c =>
      (c.act u token serverName h.shutdown a).map fun c' =>
        { h with
          connections := h.connections.set i c'
          calls := h.calls ++ (a.calls c').map fun request => (i, request) }
  | .shutdown => some { h with shutdown := true }

/-- Events in any order in which each one is possible. -/
def run (h : Host) (events : List Event) : Option Host :=
  events.foldlM (step u token serverName) h

/-- The requests of a connection that were given to the handler. -/
def callsOf (h : Host) (i : ℕ) : List Received :=
  h.calls.filterMap fun call => if call.1 = i then some call.2 else none

end Host

/-! ### What a client sees -/

/-- A request with what became of it. -/
inductive Exchange where
  | ping (request : Received)
  | call (request : Received) (outcome : Outcome)

/-- The frames of a response. -/
def Response.frames : Response → List (UInt8 × Bytes)
  | single opcode payload => [(opcode, payload)]
  | stream frames => frames
  | disconnect opcode payload => [(opcode, payload)]
  | none => []

namespace Exchange

variable (u : Ulmp)

def request : Exchange → Received
  | ping request => request
  | call request _ => request

/-- The request, if it was given to the handler. -/
def called : Exchange → Option Received
  | ping _ => none
  | call request _ => some request

def outcome : Exchange → Option Outcome
  | ping _ => none
  | call _ outcome => some outcome

/-- What is sent for a request. -/
def frames : Exchange → List (UInt8 × Bytes)
  | ping request => [(u.opPong, pongPayload u request.2)]
  | call _ none => []
  | call _ (some (.ok response)) => response.frames
  | call _ (some (.error err)) => (decodeError u err).frames

/-- The connection goes on. -/
def goesOn : Exchange → Bool
  | ping _ => true
  | call _ none => false
  | call _ (some (.ok (.disconnect _ _))) => false
  | call _ _ => true

/-- Only a PING is not given to the handler, and a GOODBYE never gets an answer. -/
def Proper : Exchange → Prop
  | ping request => request.1.opcode = u.opPing
  | call request _ => request.1.opcode ≠ u.opPing ∧ request.1.opcode ≠ u.opGoodbye

/-- The frames with the stream of the request. -/
def streamed (x : Exchange) : List (UInt16 × UInt8 × Bytes) :=
  (x.frames u).map fun frame => (x.request.1.streamId, frame)

end Exchange

/-- Frames with their numbers, modulo `2 ^ 32`. -/
def numberedFrom (n : ℕ) (frames : List (UInt16 × UInt8 × Bytes)) : List Frame :=
  (frames.zipIdx n).map fun ((streamId, opcode, payload), k) =>
    ⟨opcode, streamId, UInt32.ofNat k, payload⟩

/-- What is sent in exchanges. -/
def numbered (u : Ulmp) (exchanges : List Exchange) : List Frame :=
  numberedFrom 1 (exchanges.flatMap (Exchange.streamed u))

/-- The input begins with these frames. -/
def Reads (u : Ulmp) : Bytes → List Received → Bytes → Prop
  | input, [], rest => rest = input
  | input, request :: requests, rest =>
    ∃ input', recvFrame u input = some (request, input') ∧ Reads u input' requests rest

/-- **A conversation** after the right answer to the challenge: the requests are served in the
order in which they are read, one after the other, and the frames that are sent carry the stream
of their request and the next number. -/
structure Conversation (u : Ulmp) (token serverName nonce input : Bytes) (calls : List Received)
    (outcomes : List Outcome) (sent : List Frame) (hello : Received) (exchanges : List Exchange)
    (pending : List Received) (rest : Bytes) : Prop where
  reads : Reads u input (hello :: (exchanges.map Exchange.request ++ pending)) rest
  opcode : hello.1.opcode = u.opHello
  token : u.decodeHello hello.2 = some (u.hmacSha256 token nonce).toList
  proper : ∀ x ∈ exchanges, x.Proper u
  goesOn : ∀ x ∈ exchanges.dropLast, x.goesOn = true
  calls : calls = exchanges.filterMap Exchange.called ++ pending
  outcomes : outcomes = exchanges.filterMap Exchange.outcome
  sent : ∃ sessionId, sent = challenge u nonce :: welcome u serverName sessionId
    :: numbered u exchanges

/-- What a client can see, and what it can make the server do: after the challenge it is silence,
unless the client knows the token. -/
inductive Dialogue (u : Ulmp) (token serverName nonce input : Bytes) (calls : List Received)
    (outcomes : List Outcome) (sent : List Frame) : Prop
  | challenged (hcalls : calls = []) (houtcomes : outcomes = [])
    (hsent : sent = [challenge u nonce])
  | welcomed {hello : Received} {exchanges : List Exchange} {pending : List Received}
    {rest : Bytes} (hpending : pending.length ≤ 1)
    (h : Conversation u token serverName nonce input calls outcomes sent hello exchanges
      pending rest)

/-! ### Each action -/

section

variable {u : Ulmp} {token serverName nonce input : Bytes} {c : Connection}

theorem Reads.concat {input input' rest : Bytes} {requests : List Received} {request : Received}
    (h : Reads u input requests input') (hrecv : recvFrame u input' = some (request, rest)) :
    Reads u input (requests ++ [request]) rest := by
  induction requests generalizing input with
  | nil =>
    obtain rfl := h
    exact ⟨rest, hrecv, rfl⟩
  | cons first requests ih =>
    obtain ⟨next, hfirst, hrest⟩ := h
    exact ⟨next, hfirst, ih hrest⟩

theorem numberedFrom_append (n : ℕ) (xs ys : List (UInt16 × UInt8 × Bytes)) :
    numberedFrom n (xs ++ ys) = numberedFrom n xs ++ numberedFrom (n + xs.length) ys := by
  rw [numberedFrom, List.zipIdx_append, List.map_append]
  rfl

theorem numberedFrom_cons (n : ℕ) (streamId : UInt16) (frame : UInt8 × Bytes)
    (frames : List (UInt16 × UInt8 × Bytes)) :
    numberedFrom n ((streamId, frame) :: frames)
      = ⟨frame.1, streamId, UInt32.ofNat n, frame.2⟩ :: numberedFrom (n + 1) frames := rfl

/-- The number after those of the exchanges. -/
def nextSeq (u : Ulmp) (exchanges : List Exchange) : ℕ :=
  1 + (exchanges.flatMap (Exchange.streamed u)).length

theorem nextSeq_concat (exchanges : List Exchange) (x : Exchange) :
    nextSeq u (exchanges ++ [x]) = nextSeq u exchanges + (x.frames u).length := by
  rw [nextSeq, nextSeq, List.flatMap_append, List.length_append, List.flatMap_singleton,
    Exchange.streamed, List.length_map]
  omega

theorem numbered_concat (exchanges : List Exchange) (x : Exchange) :
    numbered u (exchanges ++ [x])
      = numbered u exchanges ++ numberedFrom (nextSeq u exchanges) (x.streamed u) := by
  rw [numbered, numbered, List.flatMap_append, List.flatMap_singleton, numberedFrom_append]
  rfl

theorem ofNat_succ (n : ℕ) : UInt32.ofNat n + 1 = UInt32.ofNat (n + 1) :=
  (UInt32.ofNat_add n 1).symm

namespace Connection

theorem sendAll_eq (streamId : UInt16) (c : Connection) (n : ℕ) (frames : List (UInt8 × Bytes)) :
    sendAll streamId c (UInt32.ofNat n) frames
      = ({ c with sent := c.sent ++ numberedFrom n (frames.map fun frame => (streamId, frame)) },
        UInt32.ofNat (n + frames.length)) := by
  induction frames generalizing c n with
  | nil =>
    show (c, UInt32.ofNat n) = _
    rw [List.map_nil, numberedFrom, List.zipIdx_nil, List.map_nil, List.append_nil]
    rfl
  | cons frame frames ih =>
    obtain ⟨opcode, payload⟩ := frame
    have hlength : n + 1 + frames.length = n + (frames.length + 1) := by omega
    rw [sendAll, ofNat_succ, ih, List.map_cons, numberedFrom_cons, List.length_cons, hlength]
    simp only [send, List.append_assoc, List.singleton_append]

/-- After a response the thread waits for the next request, or the connection is closed. -/
theorem respond_eq (streamId : UInt16) (n : ℕ) (c : Connection) (response : Response) :
    respond streamId (UInt32.ofNat n) c response =
      { c with
        sent := c.sent ++ numberedFrom n (response.frames.map fun frame => (streamId, frame))
        phase := match response with
          | .disconnect _ _ => .closed
          | _ => .ready (UInt32.ofNat (n + response.frames.length)) } := by
  cases response with
  | single opcode payload =>
    rw [respond, ofNat_succ]
    rfl
  | stream frames =>
    rw [respond, sendAll_eq]
    rfl
  | disconnect opcode payload => rfl
  | none =>
    rw [respond, Response.frames, List.map_nil, numberedFrom, List.zipIdx_nil, List.map_nil,
      List.append_nil]
    rfl

/-- What the handler returns is sent for the request. -/
theorem answer_eq (n : ℕ) (c : Connection) (request : Received) (outcome : Outcome) :
    answer u request.1.streamId (UInt32.ofNat n) c outcome =
      { c with
        sent := c.sent ++ numberedFrom n ((Exchange.call request outcome).streamed u)
        phase := if (Exchange.call request outcome).goesOn then
          .ready (UInt32.ofNat (n + ((Exchange.call request outcome).frames u).length))
          else .closed } := by
  cases outcome with
  | none =>
    show c.close = _
    rw [Exchange.streamed, Exchange.frames, List.map_nil, numberedFrom, List.zipIdx_nil,
      List.map_nil, List.append_nil]
    rfl
  | some result =>
    cases result with
    | ok response =>
      rw [answer, respond_eq]
      cases response <;> rfl
    | error err =>
      rw [answer, respond_eq]
      rfl

end Connection

/-! ### The invariant of a connection -/

/-- Where the thread is in the conversation. -/
def Conforms (u : Ulmp) (token serverName nonce input : Bytes) (calls : List Received)
    (outcomes : List Outcome) (c : Connection) : Prop :=
  match c.phase with
  | .hello nonce' =>
    nonce' = nonce ∧ c.input = input ∧ calls = [] ∧ outcomes = [] ∧ c.sent = [challenge u nonce]
  | .ready seq => ∃ hello exchanges, seq = UInt32.ofNat (nextSeq u exchanges) ∧
    (∀ x ∈ exchanges, x.goesOn = true) ∧
    Conversation u token serverName nonce input calls outcomes c.sent hello exchanges [] c.input
  | .serving seq request => ∃ hello exchanges, seq = UInt32.ofNat (nextSeq u exchanges) ∧
    (∀ x ∈ exchanges, x.goesOn = true) ∧ (Exchange.call request none).Proper u ∧
    Conversation u token serverName nonce input calls outcomes c.sent hello exchanges [request]
      c.input
  | .closed => Dialogue u token serverName nonce input calls outcomes c.sent

variable {calls : List Received} {outcomes : List Outcome}

theorem Conforms.talked (h : Conforms u token serverName nonce input calls outcomes c) :
    Dialogue u token serverName nonce input calls outcomes c.sent := by
  rw [Conforms] at h
  cases hphase : c.phase with
  | hello nonce' =>
    rw [hphase] at h
    obtain ⟨-, -, hcalls, houtcomes, hsent⟩ := h
    exact .challenged hcalls houtcomes hsent
  | ready seq =>
    rw [hphase] at h
    obtain ⟨hello, exchanges, -, -, hconversation⟩ := h
    exact .welcomed (List.length_nil.le.trans (Nat.zero_le 1)) hconversation
  | serving seq request =>
    rw [hphase] at h
    obtain ⟨hello, exchanges, -, -, -, hconversation⟩ := h
    exact .welcomed le_rfl hconversation
  | closed =>
    rw [hphase] at h
    exact h

/-- The HELLO. -/
theorem Conforms.greet (hinput : c.input = input) (hsent : c.sent = [challenge u nonce])
    (fresh : Bool) (sessionId : UInt64) :
    Conforms u token serverName nonce input [] []
      (c.greet u token serverName nonce fresh sessionId) := by
  have hclose : Conforms u token serverName nonce input [] [] c.close :=
    Dialogue.challenged rfl rfl hsent
  rw [Connection.greet]
  split
  · exact hclose
  · rename_i header payload rest hrecv
    rw [hinput] at hrecv
    by_cases hopcode : header.opcode ≠ u.opHello
    · rw [if_pos hopcode]
      exact hclose
    rw [if_neg hopcode]
    split
    · exact hclose
    rename_i tokenHash hdecode
    by_cases htoken : (!tokenHolds (u.hmacSha256 token nonce) tokenHash) = true
    · rw [if_pos htoken]
      exact hclose
    rw [if_neg htoken]
    by_cases hfresh : (!fresh) = true
    · rw [if_pos hfresh]
      exact hclose
    rw [if_neg hfresh]
    rw [Bool.not_eq_true', Bool.not_eq_false, tokenHolds_iff] at htoken
    rw [htoken] at hdecode
    have hnone : ∀ x ∈ ([] : List Exchange), x.goesOn = true := fun x hx =>
      absurd hx List.not_mem_nil
    refine ⟨(header, payload), [], rfl, hnone, ⟨rest, hrecv, rfl⟩, not_not.mp hopcode, hdecode,
      fun x hx => absurd hx List.not_mem_nil, hnone, rfl, rfl, sessionId, ?_⟩
    show c.sent ++ [welcome u serverName sessionId] = _
    rw [hsent]
    rfl

/-- One more exchange. -/
theorem Conversation.concat {sent : List Frame} {hello : Received}
    {exchanges : List Exchange} {pending : List Received} {rest rest' : Bytes}
    (h : Conversation u token serverName nonce input calls outcomes sent hello exchanges pending
      rest) (hgoesOn : ∀ x ∈ exchanges, x.goesOn = true) {x : Exchange} (hx : x.Proper u)
    (hreads : Reads u input (hello :: (exchanges.map Exchange.request ++ [x.request])) rest')
    (hcalls : pending = x.called.toList) :
    Conversation u token serverName nonce input calls (outcomes ++ x.outcome.toList)
      (sent ++ numberedFrom (nextSeq u exchanges) (x.streamed u)) hello (exchanges ++ [x]) []
      rest' where
  reads := by
    rw [List.append_nil, List.map_append]
    exact hreads
  opcode := h.opcode
  token := h.token
  proper := by
    intro y hy
    rcases List.mem_append.mp hy with hy | hy
    · exact h.proper y hy
    · rw [List.mem_singleton.mp hy]
      exact hx
  goesOn := by
    rw [List.dropLast_concat]
    exact hgoesOn
  calls := by
    rw [h.calls, hcalls, List.filterMap_append, List.append_nil]
    cases x <;> rfl
  outcomes := by
    rw [h.outcomes, List.filterMap_append]
    cases x <;> rfl
  sent := by
    obtain ⟨sessionId, hsent⟩ := h.sent
    refine ⟨sessionId, ?_⟩
    rw [hsent, numbered_concat]
    rfl

theorem goesOn_concat {exchanges : List Exchange} {x : Exchange}
    (h : ∀ x ∈ exchanges, x.goesOn = true) (hx : x.goesOn = true) :
    ∀ y ∈ exchanges ++ [x], y.goesOn = true := by
  intro y hy
  rcases List.mem_append.mp hy with hy | hy
  · exact h y hy
  · rw [List.mem_singleton.mp hy]
    exact hx

/-- A turn of the loop. -/
theorem Conforms.turn {hello : Received} {exchanges : List Exchange}
    (hgoesOn : ∀ x ∈ exchanges, x.goesOn = true)
    (h : Conversation u token serverName nonce input calls outcomes c.sent hello exchanges []
      c.input) (shutdown : Bool) :
    Conforms u token serverName nonce input
      (calls ++ (c.turn u shutdown (UInt32.ofNat (nextSeq u exchanges))).request.toList) outcomes
      (c.turn u shutdown (UInt32.ofNat (nextSeq u exchanges))) := by
  have hclose : Conforms u token serverName nonce input (calls ++ c.close.request.toList) outcomes
      c.close := by
    show Dialogue u token serverName nonce input (calls ++ []) outcomes c.sent
    rw [List.append_nil]
    exact .welcomed (List.length_nil.le.trans (Nat.zero_le 1)) h
  rw [Connection.turn]
  split_ifs with hshutdown
  · exact hclose
  · split
    · exact hclose
    · rename_i header payload rest hrecv
      have hreads : Reads u input
          (hello :: (exchanges.map Exchange.request ++ [(header, payload)])) rest := by
        have hreads := h.reads
        rw [List.append_nil] at hreads
        exact hreads.concat hrecv
      split_ifs with hping hgoodbye
      · -- a PING is answered at once
        have hnext := h.concat hgoesOn (x := .ping (header, payload)) hping hreads rfl
        rw [show (Exchange.ping (header, payload)).outcome.toList = [] from rfl,
          List.append_nil] at hnext
        refine ⟨hello, exchanges ++ [.ping (header, payload)], ?_, goesOn_concat hgoesOn rfl, ?_⟩
        · rw [nextSeq_concat]
          exact ofNat_succ _
        · show Conversation u token serverName nonce input (calls ++ []) outcomes _ _ _ _ _
          rw [List.append_nil]
          exact hnext
      · exact hclose
      · refine ⟨hello, exchanges, rfl, hgoesOn, ⟨hping, hgoodbye⟩, ?_⟩
        refine ⟨hreads, h.opcode, h.token, h.proper, h.goesOn, ?_, h.outcomes, h.sent⟩
        rw [h.calls, List.append_nil]
        rfl

/-- The handler returns. -/
theorem Conforms.answer {hello : Received} {exchanges : List Exchange} {request : Received}
    (hgoesOn : ∀ x ∈ exchanges, x.goesOn = true)
    (hproper : (Exchange.call request none).Proper u)
    (h : Conversation u token serverName nonce input calls outcomes c.sent hello exchanges
      [request] c.input) (outcome : Outcome) :
    Conforms u token serverName nonce input calls (outcomes ++ [outcome])
      (c.answer u request.1.streamId (UInt32.ofNat (nextSeq u exchanges)) outcome) := by
  have hnext := h.concat hgoesOn (x := .call request outcome) hproper h.reads rfl
  rw [show (Exchange.call request outcome).outcome.toList = [outcome] from rfl] at hnext
  rw [Connection.answer_eq]
  by_cases hon : (Exchange.call request outcome).goesOn = true
  · simp only [if_pos hon, Conforms]
    refine ⟨hello, exchanges ++ [.call request outcome], ?_, goesOn_concat hgoesOn hon,
      hnext⟩
    rw [nextSeq_concat]
  · simp only [if_neg hon, Conforms]
    exact .welcomed (List.length_nil.le.trans (Nat.zero_le 1)) hnext

/-- **One action** of the thread. -/
theorem Conforms.act {shutdown : Bool} {a : Action} {c' : Connection}
    (h : Conforms u token serverName nonce input calls outcomes c)
    (hact : c.act u token serverName shutdown a = some c') :
    Conforms u token serverName nonce input (calls ++ a.calls c') (outcomes ++ a.outcomes) c' := by
  rw [Conforms] at h
  cases hphase : c.phase with
  | hello nonce' =>
    rw [hphase] at h
    obtain ⟨rfl, hinput, rfl, rfl, hsent⟩ := h
    cases a with
    | greet fresh sessionId =>
      simp only [Connection.act, hphase, Option.some_inj] at hact
      subst hact
      exact .greet hinput hsent fresh sessionId
    | turn => simp [Connection.act, hphase] at hact
    | answer outcome => simp [Connection.act, hphase] at hact
  | ready seq =>
    rw [hphase] at h
    obtain ⟨hello, exchanges, rfl, hgoesOn, hconversation⟩ := h
    cases a with
    | greet fresh sessionId => simp [Connection.act, hphase] at hact
    | turn =>
      simp only [Connection.act, hphase, Option.some_inj] at hact
      subst hact
      show Conforms u token serverName nonce input _ (outcomes ++ []) _
      rw [List.append_nil]
      exact .turn hgoesOn hconversation shutdown
    | answer outcome => simp [Connection.act, hphase] at hact
  | serving seq request =>
    rw [hphase] at h
    obtain ⟨hello, exchanges, rfl, hgoesOn, hproper, hconversation⟩ := h
    cases a with
    | greet fresh sessionId => simp [Connection.act, hphase] at hact
    | turn => simp [Connection.act, hphase] at hact
    | answer outcome =>
      simp only [Connection.act, hphase, Option.some_inj] at hact
      subst hact
      show Conforms u token serverName nonce input (calls ++ []) _ _
      rw [List.append_nil]
      exact .answer hgoesOn hproper hconversation outcome
  | closed =>
    simp [Connection.act, hphase] at hact

end

/-! ### All connections -/

/-- The nonces that were sent to the clients, and what the clients send. -/
def accepted (events : List Event) : List (Bytes × Bytes) :=
  events.filterMap fun
    | .accept nonce input => some (nonce, input)
    | _ => none

/-- What the handler has returned for a connection. -/
def outcomesOf (events : List Event) (i : ℕ) : List Outcome :=
  events.flatMap fun
    | .act j a => if j = i then a.outcomes else []
    | _ => []

section

variable {u : Ulmp} {token serverName : Bytes} {h h' : Host} {past : List Event}

namespace Host

theorem callsOf_append (h : Host) (i j : ℕ) (requests : List Received) :
    ({ h with calls := h.calls ++ requests.map fun request => (i, request) } : Host).callsOf j
      = h.callsOf j ++ if i = j then requests else [] := by
  rw [callsOf, List.filterMap_append, List.filterMap_map]
  by_cases hi : i = j
  · rw [if_pos hi]
    congr 1
    simp [hi]
  · rw [if_neg hi]
    congr 1
    simp [hi]

/-- What holds after the events of the past. -/
structure Invariant (u : Ulmp) (token serverName : Bytes) (past : List Event) (h : Host) :
    Prop where
  length : (accepted past).length = h.connections.length
  conforms : ∀ (i : ℕ) (c : Connection), h.connections[i]? = some c →
    ∃ nonce input, (accepted past)[i]? = some (nonce, input) ∧
      Conforms u token serverName nonce input (h.callsOf i) (outcomesOf past i) c
  fresh : ∀ i, h.connections.length ≤ i → h.callsOf i = [] ∧ outcomesOf past i = []

theorem Invariant.new : Invariant u token serverName [] .new where
  length := rfl
  conforms i c hc := absurd hc (by simp [Host.new])
  fresh i _ := ⟨rfl, rfl⟩

/-- A client connects. -/
theorem Invariant.accept (hI : Invariant u token serverName past h) (nonce input : Bytes) :
    Invariant u token serverName (past ++ [.accept nonce input])
      { h with connections := h.connections ++ [Connection.opened u nonce input] } := by
  have haccepted : accepted (past ++ [.accept nonce input]) = accepted past ++ [(nonce, input)] :=
    List.filterMap_append
  have houtcomes : ∀ i, outcomesOf (past ++ [.accept nonce input]) i = outcomesOf past i := by
    intro i
    rw [outcomesOf, List.flatMap_append]
    exact List.append_nil _
  refine ⟨?_, fun i c hc => ?_, fun i hi => ?_⟩
  · rw [haccepted, List.length_append, List.length_append, hI.length]
    rfl
  · rw [haccepted, houtcomes]
    rcases Nat.lt_trichotomy i h.connections.length with hi | hi | hi
    · rw [List.getElem?_append_left hi] at hc
      obtain ⟨nonce', input', hat, hconforms⟩ := hI.conforms i c hc
      refine ⟨nonce', input', ?_, hconforms⟩
      rw [List.getElem?_append_left (by rw [hI.length]; exact hi), hat]
    · subst hi
      rw [List.getElem?_concat_length] at hc
      obtain rfl := Option.some_inj.mp hc
      obtain ⟨hcalls, hnone⟩ := hI.fresh _ le_rfl
      refine ⟨nonce, input, ?_, rfl, rfl, hcalls, hnone, rfl⟩
      rw [← hI.length, List.getElem?_concat_length]
    · rw [List.getElem?_eq_none (by simp; omega)] at hc
      exact absurd hc (by simp)
  · rw [houtcomes]
    refine hI.fresh i ?_
    rw [List.length_append] at hi
    omega

/-- A thread does something. -/
theorem Invariant.act (hI : Invariant u token serverName past h) {i : ℕ} {a : Action}
    {c c' : Connection} (hc : h.connections[i]? = some c)
    (hact : c.act u token serverName h.shutdown a = some c') :
    Invariant u token serverName (past ++ [.act i a])
      { h with
        connections := h.connections.set i c'
        calls := h.calls ++ (a.calls c').map fun request => (i, request) } := by
  have haccepted : accepted (past ++ [.act i a]) = accepted past := by
    rw [accepted, List.filterMap_append]
    exact List.append_nil _
  have houtcomes : ∀ j, outcomesOf (past ++ [.act i a]) j
      = outcomesOf past j ++ if i = j then a.outcomes else [] := by
    intro j
    rw [outcomesOf, List.flatMap_append, List.flatMap_singleton]
    rfl
  have hi : i < h.connections.length := (List.getElem?_eq_some_iff.mp hc).1
  refine ⟨?_, fun j d hd => ?_, fun j hj => ?_⟩
  · rw [haccepted, List.length_set, hI.length]
  · have hcalls := callsOf_append { h with connections := h.connections.set i c' } i j (a.calls c')
    rw [haccepted, houtcomes, hcalls]
    by_cases hij : i = j
    · subst hij
      rw [List.getElem?_set_self hi] at hd
      obtain rfl := Option.some_inj.mp hd
      obtain ⟨nonce, input, hat, hconforms⟩ := hI.conforms i c hc
      rw [if_pos rfl, if_pos rfl]
      exact ⟨nonce, input, hat, hconforms.act hact⟩
    · rw [List.getElem?_set_ne hij] at hd
      rw [if_neg hij, if_neg hij, List.append_nil, List.append_nil]
      exact hI.conforms j d hd
  · have hcalls := callsOf_append { h with connections := h.connections.set i c' } i j (a.calls c')
    rw [List.length_set] at hj
    have hij : i ≠ j := by omega
    rw [houtcomes, hcalls, if_neg hij, if_neg hij, List.append_nil, List.append_nil]
    exact hI.fresh j hj

/-- **One event.** -/
theorem Invariant.step (hI : Invariant u token serverName past h) {event : Event}
    (hstep : h.step u token serverName event = some h') :
    Invariant u token serverName (past ++ [event]) h' := by
  cases event with
  | accept nonce input =>
    obtain rfl := Option.some_inj.mp hstep
    exact hI.accept nonce input
  | act i a =>
    obtain ⟨c, hc, hmap⟩ := Option.bind_eq_some_iff.mp hstep
    obtain ⟨c', hact, rfl⟩ := Option.map_eq_some_iff.mp hmap
    exact hI.act hc hact
  | shutdown =>
    obtain rfl := Option.some_inj.mp hstep
    have haccepted : accepted (past ++ [.shutdown]) = accepted past := by
      rw [accepted, List.filterMap_append]
      exact List.append_nil _
    have houtcomes : ∀ i, outcomesOf (past ++ [.shutdown]) i = outcomesOf past i := by
      intro i
      rw [outcomesOf, List.flatMap_append]
      exact List.append_nil _
    refine ⟨?_, fun i c hc => ?_, fun i hi => ?_⟩
    · rw [haccepted]
      exact hI.length
    · rw [haccepted, houtcomes]
      exact hI.conforms i c hc
    · rw [houtcomes]
      exact hI.fresh i hi

/-- Events in a row. -/
theorem Invariant.run (hI : Invariant u token serverName past h) {events : List Event}
    (hrun : h.run u token serverName events = some h') :
    Invariant u token serverName (past ++ events) h' := by
  induction events generalizing past h with
  | nil =>
    obtain rfl := Option.some_inj.mp hrun
    rw [List.append_nil]
    exact hI
  | cons event events ih =>
    obtain ⟨h₁, hstep, hrest⟩ := Fallible.foldlM_cons_eq_some.mp hrun
    rw [← List.singleton_append, ← List.append_assoc]
    exact ih (hI.step hstep) hrest

end Host

end

/-- **Connections** in any run.  Whatever the clients send and in whatever order the threads make
their steps, a client that does not answer the challenge with the hash of the token and of its own
nonce gets no other frame, and nothing that it sends reaches the handler.  The requests of any
other client are given to the handler one at a time in the order in which they came, and what the
handler returns is sent, with the stream of its request and numbered from one on, until the
connection is closed. -/
theorem dialogue {u : Ulmp} {token serverName : Bytes} {events : List Event} {h : Host}
    (hrun : Host.new.run u token serverName events = some h) {i : ℕ} {nonce input : Bytes}
    (hi : (accepted events)[i]? = some (nonce, input)) :
    ∃ c, h.connections[i]? = some c ∧
      Dialogue u token serverName nonce input (h.callsOf i) (outcomesOf events i) c.sent := by
  have hI : Host.Invariant u token serverName events h := Host.Invariant.new.run hrun
  have hlt : i < h.connections.length := by
    rw [← hI.length]
    exact (List.getElem?_eq_some_iff.mp hi).1
  have hc := List.getElem?_eq_getElem hlt
  obtain ⟨nonce', input', hat, hconforms⟩ := hI.conforms i _ hc
  rw [hi, Option.some_inj, Prod.mk.injEq] at hat
  obtain ⟨rfl, rfl⟩ := hat
  exact ⟨_, hc, hconforms.talked⟩

/-- Headers of four bytes, and a hash that begins with the token and the nonce. -/
def plainUlmp : Ulmp where
  headerSize := 4
  decodeHeader
    | [opcode, hi, lo, length] =>
      some ⟨opcode, UInt16.ofNat (256 * hi.toNat + lo.toNat), UInt32.ofNat length.toNat⟩
    | _ => none
  decodeHello := some
  decodePing _ := none
  encodePong timestampUs := be 8 timestampUs.toNat
  hmacSha256 token nonce := Vector.ofFn fun i => (token ++ nonce).getD i 0
  opChallenge := 1
  opHello := 2
  opWelcome := 3
  opPing := 4
  opPong := 5
  opGoodbye := 6
  opError := 7

/-- What a client sends that answers the challenge `9` with the token `t`, and then sends a PING
and a request. -/
def pingAndRequest : Bytes :=
  [2, 0, 0, 32, 116, 9] ++ List.replicate 30 0 ++ [4, 0, 7, 1, 42] ++ [16, 0, 8, 2, 1, 2]

/-- It is served while another client answers its own challenge with the same hash. -/
def twoClients : List Event :=
  [.accept [9] pingAndRequest, .accept [8] pingAndRequest, .act 1 (.greet true 2),
    .act 0 (.greet true 1), .act 0 .turn, .act 0 .turn,
    .act 0 (.answer (some (.ok (.stream [(17, []), (18, [])]))))]

theorem dialogue_twoClients : ∃ h c c',
    Host.new.run plainUlmp [116] [117] twoClients = some h ∧
      h.connections[0]? = some c ∧ h.connections[1]? = some c' ∧
      Dialogue plainUlmp [116] [117] [9] pingAndRequest (h.callsOf 0) (outcomesOf twoClients 0)
        c.sent ∧
      Dialogue plainUlmp [116] [117] [8] pingAndRequest (h.callsOf 1) (outcomesOf twoClients 1)
        c'.sent := by
  have hsome : (Host.new.run plainUlmp [116] [117] twoClients).isSome = true := by
    decide +kernel
  obtain ⟨h, hrun⟩ := Option.isSome_iff_exists.mp hsome
  obtain ⟨c, hc, hdialogue⟩ := dialogue hrun (show (accepted twoClients)[0]? = _ from rfl)
  obtain ⟨c', hc', hdialogue'⟩ := dialogue hrun (show (accepted twoClients)[1]? = _ from rfl)
  exact ⟨h, c, c', hrun, hc, hc', hdialogue, hdialogue'⟩

end Uldb.Ump
