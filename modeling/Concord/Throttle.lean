import Concord.Endpoint
import Concord.Go.Channel
import Concord.Go.Steps

/-!
# The throttle

`core/throttle/udp_throttle.go`: a goroutine that reads from the connection into `recv`, one that
writes to it what comes over `send`, and any number of goroutines that call `ReadFrom`, `WriteTo`
and `Shutdown`, or `Cleanup` of the client.

A step is one channel operation, one read or write of the connection, or one of the steps between
them; which routine or caller makes the next step is open. The read buffer and the slices made
from it are buffers of one memory, so that a slice that shares the read buffer would be seen to
change. The logs hold what the connection and the channels have seen.
-/

namespace Concord

open Go

namespace UDPThrottle

/-! ## 1. Reading -/

/-- What a read gives: the data, the sender and an error. -/
structure ReadResult where
  data : Bytes
  sender : Option Addr
  err : Option GoString

/-- A read into a buffer of this size. -/
def ReadResult.cut (size : Nat) (d : ReadResult) : ReadResult := { d with data := d.data.take size }

/-- `readPkt`; the data is a buffer of the memory. -/
structure ReadPkt where
  data : Nat
  sender : Option Addr
  err : Option GoString

/-- `ReadFromUDP(rbuff)`: the number of bytes read, and the buffer after it. -/
def readFromUDP (rbuff datagram : Bytes) : Nat × Bytes :=
  let n := min datagram.length rbuff.length
  (n, datagram.take n ++ rbuff.drop n)

/-- `copy(dst, src)`. -/
def copy (dst src : Bytes) : Bytes := src.take dst.length ++ dst.drop src.length

/-- Where `read` is. -/
inductive ReadAt where
  | loop
  | reading
  | copying (n : Nat) (sender : Option Addr) (err : Option GoString)
  | sending (pkt : ReadPkt)
  | throttling
  | returned

def ReadAt.isReturned : ReadAt → Bool
  | .returned => true
  | _ => false

/-- The reading half: the memory with `rbuff` as its first buffer, the calls of `ReadFrom` with
what they have returned, what the connection has given, and what the calls have received. -/
structure Reading where
  recv : Chan ReadPkt 100
  bufs : List Bytes
  loc : ReadAt
  calls : List (Option ReadPkt)
  results : List ReadResult
  received : List (Nat × ReadPkt)

/-- Steps of `read` and of the calls of `ReadFrom`. -/
inductive ReadEvent where
  | call
  | receive (i : Nat)
  | poll
  | conn (d : ReadResult)
  | copy
  | send
  | wake

namespace Reading

def new (rbuffSize : Nat) : Reading where
  recv := Chan.make ReadPkt 100
  bufs := [List.replicate rbuffSize 0]
  loc := .loop
  calls := []
  results := []
  received := []

/-- The contents of a buffer. -/
def buf (s : Reading) (b : Nat) : Bytes := s.bufs.getD b []

/-- A call of `ReadFrom` has received a packet. -/
def delivered (s : Reading) (i : Nat) (pkt : ReadPkt) (recv : Chan ReadPkt 100) : Reading :=
  { s with recv, calls := s.calls.set i (some pkt), received := s.received ++ [(i, pkt)] }

/-- `ReadFromUDP(rbuff)` has returned. -/
def filled (s : Reading) (d : ReadResult) : Reading :=
  let (n, rbuff) := readFromUDP (s.buf 0) d.data
  { s with
    bufs := s.bufs.set 0 rbuff, loc := .copying n d.sender d.err, results := s.results ++ [d] }

/-- A slice is made and copied into. -/
def copied (s : Reading) (n : Nat) (sender : Option Addr) (err : Option GoString) : Reading :=
  { s with
    bufs := s.bufs ++ [copy (List.replicate n 0) (s.buf 0)]
    loc := .sending ⟨s.bufs.length, sender, err⟩ }

/-- A step; `done` says that `read` can receive from the channel of that name. -/
def step (s : Reading) (done : Bool) : ReadEvent → Option Reading
  | .call => some { s with calls := s.calls ++ [none] }
  | .receive i =>
    match s.calls[i]?, s.recv.recv with
    | some none, some (pkt, recv) => some (s.delivered i pkt recv)
    | _, _ => none
  | .poll =>
    match s.loc with
    | .loop => if done then none else some { s with loc := .reading }
    | _ => none
  | .conn d =>
    match s.loc with
    | .reading => some (s.filled d)
    | _ => none
  | .copy =>
    match s.loc with
    | .copying n sender err => some (s.copied n sender err)
    | _ => none
  | .send =>
    match s.loc with
    | .sending pkt => (s.recv.send pkt).map fun recv => { s with recv, loc := .throttling }
    | _ => none
  | .wake =>
    match s.loc with
    | .throttling => some { s with loc := .loop }
    | _ => none

end Reading

/-! ## 2. Writing -/

/-- `writePkt`; the channel for the reply is the one that this call of `WriteTo` has made. -/
structure WritePkt where
  data : Bytes
  addr : Addr
  respCh : Nat
  deriving DecidableEq

structure WriteStatus where
  written : Nat
  err : Option GoString
  deriving DecidableEq

/-- Where `write` is. -/
inductive WriteAt where
  | loop
  | writing (pkt : WritePkt)
  | replying (pkt : WritePkt) (status : WriteStatus)
  | throttling
  | returned

def WriteAt.isReturned : WriteAt → Bool
  | .returned => true
  | _ => false

/-- Where a call of `WriteTo` is. -/
inductive CallAt where
  | sending
  | waiting
  | returned (status : WriteStatus)
  deriving DecidableEq

structure WriteCall where
  data : Bytes
  addr : Addr
  loc : CallAt
  deriving DecidableEq

/-- The writing half: the calls of `WriteTo`, what `send` has accepted, what was written to the
connection with what came of it, and what was replied. -/
structure Writing where
  send : Chan WritePkt 100
  loc : WriteAt
  calls : List WriteCall
  accepted : List WritePkt
  written : List (WritePkt × WriteStatus)
  replied : List (WritePkt × WriteStatus)

/-- Steps of `write` and of the calls of `WriteTo`. -/
inductive WriteEvent where
  | call (data : Bytes) (addr : Addr)
  | send (i : Nat)
  | take
  | conn (status : WriteStatus)
  | reply
  | wake

namespace Writing

def new : Writing where
  send := Chan.make WritePkt 100
  loc := .loop
  calls := []
  accepted := []
  written := []
  replied := []

/-- A call has sent its write on `send`. -/
def sent (s : Writing) (i : Nat) (c : WriteCall) (send : Chan WritePkt 100) : Writing :=
  { s with
    send, calls := s.calls.set i { c with loc := .waiting }
    accepted := s.accepted ++ [⟨c.data, c.addr, i⟩] }

/-- A call has received the status of its write. -/
def answered (s : Writing) (pkt : WritePkt) (status : WriteStatus) (c : WriteCall) : Writing :=
  { s with
    loc := .throttling, calls := s.calls.set pkt.respCh { c with loc := .returned status }
    replied := s.replied ++ [(pkt, status)] }

def step (s : Writing) : WriteEvent → Option Writing
  | .call data addr => some { s with calls := s.calls ++ [⟨data, addr, .sending⟩] }
  | .send i =>
    match s.calls[i]? with
    | some c =>
      if c.loc = .sending then (s.send.send ⟨c.data, c.addr, i⟩).map (s.sent i c) else none
    | none => none
  | .take =>
    match s.loc with
    | .loop => s.send.recv.map fun (pkt, send) => { s with send, loc := .writing pkt }
    | _ => none
  | .conn status =>
    match s.loc with
    | .writing pkt => some { s with
        loc := .replying pkt status, written := s.written ++ [(pkt, status)] }
    | _ => none
  | .reply =>
    match s.loc with
    | .replying pkt status =>
      match s.calls[pkt.respCh]? with
      | some c => if c.loc = .waiting then some (s.answered pkt status c) else none
      | none => none
    | _ => none
  | .wake =>
    match s.loc with
    | .throttling => some { s with loc := .loop }
    | _ => none

end Writing

/-! ## 3. The throttle -/

/-- A call of `Shutdown`, by itself or from `Cleanup` of the client, which closes the connection
behind it: the sends on `done` it has still to make, and whether the connection is closed. -/
structure Stop where
  cleanup : Bool
  left : Nat
  closed : Bool

end UDPThrottle

/-- A throttle with its routines and the calls on it; `done` says whether there is such a
channel. -/
structure UDPThrottle where
  reading : UDPThrottle.Reading
  writing : UDPThrottle.Writing
  done : Bool
  activeRoutines : Nat
  stops : List UDPThrottle.Stop

namespace UDPThrottle

inductive Event where
  | read (ev : ReadEvent)
  | write (ev : WriteEvent)
  | shutdown
  | cleanup
  | stopRead (j : Nat)
  | stopWrite (j : Nat)
  | close (j : Nat)

/-- A throttle that has just started its routines, with or without the channel `done`. -/
def start (rbuffSize : Nat) (done : Bool) : UDPThrottle :=
  ⟨Reading.new rbuffSize, Writing.new, done, 2, []⟩

/-- `NewUDPThrottle`: it makes `recv` and `send`, but not `done`. -/
def new (rbuffSize : Nat) : UDPThrottle := start rbuffSize false

/-- The call sends on `done`, and someone can receive it; on a nil channel both wait forever. -/
def canStop (th : UDPThrottle) (st : Stop) : Bool := th.done && decide (0 < st.left)

/-- The call makes one of its sends. -/
def stopped (th : UDPThrottle) (j : Nat) (st : Stop) : List Stop :=
  th.stops.set j { st with left := st.left - 1 }

def step (th : UDPThrottle) : Event → Outcome UDPThrottle
  | .read ev =>
    match th.reading.step (th.stops.any th.canStop) ev with
    | some r => .ok { th with reading := r }
    | none => .block
  | .write ev =>
    match th.writing.step ev with
    | some w => .ok { th with writing := w }
    | none => .block
  | .shutdown => .ok { th with stops := th.stops ++ [⟨false, th.activeRoutines, false⟩] }
  | .cleanup =>
    -- `Cleanup` closes `doneStream` first, which panics the second time
    if th.stops.any (·.cleanup) then .crash
    else .ok { th with stops := th.stops ++ [⟨true, th.activeRoutines, false⟩] }
  | .stopRead j =>
    match th.stops[j]?, th.reading.loc with
    | some st, .loop =>
      if th.canStop st then
        .ok { th with reading := { th.reading with loc := .returned }, stops := th.stopped j st }
      else .block
    | _, _ => .block
  | .stopWrite j =>
    match th.stops[j]?, th.writing.loc with
    | some st, .loop =>
      if th.canStop st then
        .ok { th with writing := { th.writing with loc := .returned }, stops := th.stopped j st }
      else .block
    | _, _ => .block
  | .close j =>
    match th.stops[j]? with
    | some st =>
      if st.cleanup && decide (st.left = 0) && !st.closed then
        .ok { th with stops := th.stops.set j { st with closed := true } }
      else .block
    | none => .block

def run : UDPThrottle → List Event → Outcome UDPThrottle := runSteps step

/-! ## 4. Steps -/

/-- What a step can do: one half makes a step of its own, a call of `Shutdown` begins, it stops
one of the routines, or the connection is closed behind it. -/
theorem step_cases {th th' : UDPThrottle} {ev : Event} (h : th.step ev = .ok th') :
    (∃ e r, ev = .read e ∧ th.reading.step (th.stops.any th.canStop) e = some r ∧
      th' = { th with reading := r }) ∨
    (∃ e w, ev = .write e ∧ th.writing.step e = some w ∧ th' = { th with writing := w }) ∨
    (∃ cleanup, th' = { th with stops := th.stops ++ [⟨cleanup, th.activeRoutines, false⟩] }) ∨
    (∃ j st, th.stops[j]? = some st ∧ th.canStop st = true ∧ th.reading.loc = .loop ∧
      th' = { th with reading := { th.reading with loc := .returned }, stops := th.stopped j st }) ∨
    (∃ j st, th.stops[j]? = some st ∧ th.canStop st = true ∧ th.writing.loc = .loop ∧
      th' = { th with writing := { th.writing with loc := .returned }, stops := th.stopped j st }) ∨
    ∃ j st, th.stops[j]? = some st ∧
      th' = { th with stops := th.stops.set j { st with closed := true } } := by
  cases ev with
  | read e =>
    simp only [step] at h
    split at h
    · next r hr =>
      cases h
      exact .inl ⟨e, r, rfl, hr, rfl⟩
    · cases h
  | write e =>
    simp only [step] at h
    split at h
    · next w hw =>
      cases h
      exact .inr (.inl ⟨e, w, rfl, hw, rfl⟩)
    · cases h
  | shutdown =>
    cases h
    exact .inr (.inr (.inl ⟨false, rfl⟩))
  | cleanup =>
    simp only [step] at h
    split at h
    · cases h
    · cases h
      exact .inr (.inr (.inl ⟨true, rfl⟩))
  | stopRead j =>
    simp only [step] at h
    split at h
    · next st hst hloc =>
      split at h
      · next hcan =>
        cases h
        exact .inr (.inr (.inr (.inl ⟨j, st, hst, hcan, hloc, rfl⟩)))
      · cases h
    · cases h
  | stopWrite j =>
    simp only [step] at h
    split at h
    · next st hst hloc =>
      split at h
      · next hcan =>
        cases h
        exact .inr (.inr (.inr (.inr (.inl ⟨j, st, hst, hcan, hloc, rfl⟩))))
      · cases h
    · cases h
  | close j =>
    simp only [step] at h
    split at h
    · next st hst =>
      split at h
      · cases h
        exact .inr (.inr (.inr (.inr (.inr ⟨j, st, hst, rfl⟩))))
      · cases h
    · cases h

/-- What a step of the reading half does, and where `read` is before it. -/
inductive Reading.Does (s : Reading) (done : Bool) : ReadEvent → Reading → Prop
  | call : Does s done .call { s with calls := s.calls ++ [none] }
  | receive {i : Nat} {pkt : ReadPkt} {recv : Chan ReadPkt 100} :
      s.calls[i]? = some none → s.recv.recv = some (pkt, recv) →
      Does s done (.receive i) (s.delivered i pkt recv)
  | poll : s.loc = .loop → done = false → Does s done .poll { s with loc := .reading }
  | conn (d : ReadResult) : s.loc = .reading → Does s done (.conn d) (s.filled d)
  | copy {n : Nat} {sender : Option Addr} {err : Option GoString} :
      s.loc = .copying n sender err → Does s done .copy (s.copied n sender err)
  | send {pkt : ReadPkt} {recv : Chan ReadPkt 100} :
      s.loc = .sending pkt → s.recv.send pkt = some recv →
      Does s done .send { s with recv, loc := .throttling }
  | wake : s.loc = .throttling → Does s done .wake { s with loc := .loop }

theorem Reading.step_does {s s' : Reading} {done : Bool} {ev : ReadEvent}
    (h : s.step done ev = some s') : s.Does done ev s' := by
  cases ev with
  | call =>
    cases h
    exact .call
  | receive i =>
    simp only [step] at h
    split at h
    · next pkt recv hcall hrecv =>
      cases h
      exact .receive hcall hrecv
    · cases h
  | poll =>
    simp only [step] at h
    split at h
    · next hloc =>
      obtain ⟨hdone, heq⟩ := Option.ite_none_left_eq_some.mp h
      cases heq
      exact .poll hloc (Bool.eq_false_of_not_eq_true hdone)
    · cases h
  | conn d =>
    simp only [step] at h
    split at h
    · next hloc =>
      cases h
      exact .conn d hloc
    · cases h
  | copy =>
    simp only [step] at h
    split at h
    · next hloc =>
      cases h
      exact .copy hloc
    · cases h
  | send =>
    simp only [step] at h
    split at h
    · next hloc =>
      obtain ⟨recv, hsend, heq⟩ := Option.map_eq_some_iff.mp h
      cases heq
      exact .send hloc hsend
    · cases h
  | wake =>
    simp only [step] at h
    split at h
    · next hloc =>
      cases h
      exact .wake hloc
    · cases h

/-- What a step of the writing half does, and where `write` is before it. -/
inductive Writing.Does (s : Writing) : WriteEvent → Writing → Prop
  | call (data : Bytes) (addr : Addr) :
      Does s (.call data addr) { s with calls := s.calls ++ [⟨data, addr, .sending⟩] }
  | send {i : Nat} {c : WriteCall} {send : Chan WritePkt 100} :
      s.calls[i]? = some c → c.loc = .sending →
      s.send.send ⟨c.data, c.addr, i⟩ = some send → Does s (.send i) (s.sent i c send)
  | take {pkt : WritePkt} {send : Chan WritePkt 100} :
      s.loc = .loop → s.send.recv = some (pkt, send) →
      Does s .take { s with send, loc := .writing pkt }
  | conn {pkt : WritePkt} (status : WriteStatus) : s.loc = .writing pkt →
      Does s (.conn status) { s with
        loc := .replying pkt status, written := s.written ++ [(pkt, status)] }
  | reply {pkt : WritePkt} {status : WriteStatus} {c : WriteCall} :
      s.loc = .replying pkt status → s.calls[pkt.respCh]? = some c → c.loc = .waiting →
      Does s .reply (s.answered pkt status c)
  | wake : s.loc = .throttling → Does s .wake { s with loc := .loop }

theorem Writing.step_does {s s' : Writing} {ev : WriteEvent} (h : s.step ev = some s') :
    s.Does ev s' := by
  cases ev with
  | call data addr =>
    cases h
    exact .call data addr
  | send i =>
    simp only [step] at h
    split at h
    · next c hi =>
      obtain ⟨hc, h⟩ := Option.ite_none_right_eq_some.mp h
      obtain ⟨send, hsend, heq⟩ := Option.map_eq_some_iff.mp h
      cases heq
      exact .send hi hc hsend
    · cases h
  | take =>
    simp only [step] at h
    split at h
    · next hloc =>
      obtain ⟨⟨pkt, send⟩, hrecv, heq⟩ := Option.map_eq_some_iff.mp h
      cases heq
      exact .take hloc hrecv
    · cases h
  | conn status =>
    simp only [step] at h
    split at h
    · next hloc =>
      cases h
      exact .conn status hloc
    · cases h
  | reply =>
    simp only [step] at h
    split at h
    · next hloc =>
      split at h
      · next c hi =>
        obtain ⟨hc, heq⟩ := Option.ite_none_right_eq_some.mp h
        cases heq
        exact .reply hloc hi hc
      · cases h
    · cases h
  | wake =>
    simp only [step] at h
    split at h
    · next hloc =>
      cases h
      exact .wake hloc
    · cases h

/-- A routine does not return by a step of its own. -/
theorem Reading.step_isReturned {s s' : Reading} {done : Bool} {ev : ReadEvent}
    (h : s.step done ev = some s') : s'.loc.isReturned = s.loc.isReturned := by
  cases step_does h with
  | call | receive _ _ => rfl
  | poll hloc _ | conn _ hloc | copy hloc | send hloc _ | wake hloc =>
    rw [hloc]
    rfl

theorem Writing.step_isReturned {s s' : Writing} {ev : WriteEvent} (h : s.step ev = some s') :
    s'.loc.isReturned = s.loc.isReturned := by
  cases step_does h with
  | call _ _ | send _ _ _ => rfl
  | take hloc _ | conn _ hloc | reply hloc _ _ | wake hloc =>
    rw [hloc]
    rfl

/-- There is no channel `done`, and both routines go on. -/
structure Running (th : UDPThrottle) : Prop where
  done : th.done = false
  read : th.reading.loc.isReturned = false
  write : th.writing.loc.isReturned = false

theorem running_new (rbuffSize : Nat) : (new rbuffSize).Running := ⟨rfl, rfl, rfl⟩

/-- Nobody receives from a nil channel. -/
theorem Running.canStop {th : UDPThrottle} (hs : th.Running) (st : Stop) :
    th.canStop st = false := by
  rw [UDPThrottle.canStop, hs.done, Bool.false_and]

theorem step_running {th th' : UDPThrottle} {ev : Event} (hs : th.Running)
    (h : th.step ev = .ok th') : th'.Running := by
  rcases step_cases h with ⟨e, r, -, hr, rfl⟩ | ⟨e, w, -, hw, rfl⟩ | ⟨cleanup, rfl⟩ |
    ⟨j, st, -, hcan, -⟩ | ⟨j, st, -, hcan, -⟩ | ⟨j, st, -, rfl⟩
  · exact ⟨hs.done, (Reading.step_isReturned hr).trans hs.read, hs.write⟩
  · exact ⟨hs.done, hs.read, (Writing.step_isReturned hw).trans hs.write⟩
  · exact ⟨hs.done, hs.read, hs.write⟩
  · rw [hs.canStop] at hcan
    cases hcan
  · rw [hs.canStop] at hcan
    cases hcan
  · exact ⟨hs.done, hs.read, hs.write⟩

theorem Running.run {th th' : UDPThrottle} {evs : List Event} (hs : th.Running)
    (h : th.run evs = .ok th') : th'.Running :=
  runSteps_invariant (fun _ _ _ hs h => step_running hs h) hs h

theorem step_write {th : UDPThrottle} {ev : WriteEvent} {w : Writing}
    (h : th.writing.step ev = some w) : th.step (.write ev) = .ok { th with writing := w } := by
  simp only [step, h]

theorem step_read {th : UDPThrottle} {ev : ReadEvent} {r : Reading}
    (h : th.reading.step (th.stops.any th.canStop) ev = some r) :
    th.step (.read ev) = .ok { th with reading := r } := by
  simp only [step, h]

end UDPThrottle

end Concord
