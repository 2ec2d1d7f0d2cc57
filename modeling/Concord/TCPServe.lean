import Concord.Go.Steps
import Concord.TCPServer

/-!
# Serving TCP connections

`Serve`, `serve` and the routines of the connections in `server/tcp_server.go`, in any
interleaving. In `Serve` the code that makes a connection stands in the branch for errors, behind
the test that handles them.

`serves_accepted_iff`: as soon as one connection has been accepted, it is not served.
`enqueue_blocked`: had it been, a packet for its peer would never be taken, since `serve` does not
start `sendPkt`.
-/

namespace Concord

open Go

namespace TCPServer

/-! ## 1. `Serve` -/

/-- The errors of `AcceptTCP`. -/
inductive AcceptErr where
  | temporary
  | other
  deriving DecidableEq

/-- The connection that `AcceptTCP` returns, and its error. -/
def acceptConn : Except AcceptErr Nat → List Nat
  | .ok c => [c]
  | .error _ => []

def acceptErr : Except AcceptErr Nat → Option AcceptErr
  | .ok _ => none
  | .error e => some e

/-- How the loop of `Serve` goes on: with a delay for the next error, with a connection that is
served, or not at all. -/
inductive AcceptStep where
  | next (tempDelay : Nat)
  | served (tempDelay : Nat)
  | returned

/-- One round of the loop, by the error of `AcceptTCP`; delays are in milliseconds. -/
def onAccept (tempDelay : Nat) (err : Option AcceptErr) : AcceptStep :=
  if err ≠ none then
    if err ≠ none then
      if err = some .temporary then
        .next (min (if tempDelay = 0 then 5 else 2 * tempDelay) 1000)
      else .returned
    else .served tempDelay
  else .next tempDelay

theorem onAccept_ne_served (tempDelay d : Nat) (err : Option AcceptErr) :
    onAccept tempDelay err ≠ .served d := by
  cases err with
  | none => exact fun h => by cases h
  | some e =>
    cases e with
    | temporary => exact fun h => by cases h
    | other => exact fun h => by cases h

/-! ## 2. The system -/

/-- The channels of a connection. -/
inductive Chan where
  | done
  | sendStream
  | writeStream
  deriving DecidableEq

inductive ConnRoutine where
  | sendPkt
  | writeConn
  | readConn
  deriving DecidableEq

/-- The channels a routine selects on; `readConn` waits for the network. -/
def ConnRoutine.receives : ConnRoutine → List Chan
  | .sendPkt => [.done, .sendStream]
  | .writeConn => [.done, .writeStream]
  | .readConn => []

/-- The part of a server that knows its connections: whether there is a mutex, and the map. -/
structure Registry where
  mu : Bool
  connections : Option (List Nat)

/-- `NewTCPServer` makes neither. -/
def Registry.new : Registry := ⟨false, none⟩

/-- `registerConnection`; locking a nil mutex and storing into a nil map panic. -/
def Registry.register (g : Registry) (c : Nat) : Option Registry :=
  if g.mu then g.connections.map fun cs => { g with connections := some (c :: cs) } else none

/-- `unregisterConnection`; deleting from a nil map does nothing. -/
def Registry.unregister (g : Registry) (c : Nat) : Option Registry :=
  if g.mu then some { g with connections := g.connections.map fun cs => cs.erase c } else none

/-- A connection in `serve`: the routines that are running, and whether `done` is closed. -/
structure Conn where
  id : Nat
  routines : List ConnRoutine
  done : Bool

/-- The routines that `serve` starts. -/
def Conn.new (c : Nat) : Conn := ⟨c, [.writeConn, .readConn], false⟩

/-- The server with all its goroutines. `accepted` are the connections `AcceptTCP` has returned,
`started` those with `go conn.serve()`, and `entering` those of them that are yet to be
registered. A thread is a `processIncoming` or `processOutgoing` of a connection. -/
structure System where
  serving : Bool
  tempDelay : Nat
  accepted : List Nat
  started : List Nat
  entering : List Nat
  registry : Registry
  conns : List Conn
  shared : Endpoint
  threads : List (Nat × Routine Unit)

inductive Event where
  | accept (o : Except AcceptErr Nat)
  | register (c : Nat)
  | read (c : Nat) (o : ReadOutcome)
  | stop (c : Nat) (r : ConnRoutine)
  | unregister (c : Nat)
  | act (i : Nat) (ch : Choice)

namespace System

/-- `NewTCPServer` -/
def start : System := ⟨true, 0, [], [], [], Registry.new, [], Endpoint.init, []⟩

/-- A connection that runs this routine. -/
def runs (s : System) (c : Nat) (r : ConnRoutine) : Bool :=
  s.conns.any fun k => k.id = c && k.routines.contains r

/-- A routine of the connection that selects on the channel. -/
def receiver (s : System) (c : Nat) (ch : Chan) : Bool :=
  s.conns.any fun k => k.id = c && k.routines.any fun r => r.receives.contains ch

def doneClosed (s : System) (c : Nat) : Bool := s.conns.any fun k => k.id = c && k.done

def updateConn (s : System) (c : Nat) (f : Conn → Conn) : System :=
  { s with conns := s.conns.map fun k => if k.id = c then f k else k }

end System

/-- A goroutine goes on; enqueuing waits for a routine that selects on the channel. -/
def stepThread (svr : TCPServer) (s : System) (i : Nat) (ch : Choice) : Outcome System :=
  match s.threads[i]? with
  | some (c, .op (.sendStream p) k) =>
    if s.receiver c .sendStream then
      .ok { s with threads := s.threads.set i (c, k ()) ++ [(c, svr.processOutgoing p)] }
    else .block
  | some (c, .op (.dist _ _) k) =>
    if s.receiver c .writeStream then .ok { s with threads := s.threads.set i (c, k ()) } else .block
  | some (c, .op e k) =>
    match s.shared.handle ch e with
    | .ok (r, st) => .ok { s with shared := st, threads := s.threads.set i (c, k r) }
    | .block => .block
    | .crash => .crash
  | _ => .block

def step (svr : TCPServer) (rbuffSize : Nat) (s : System) : Event → Outcome System
  | .accept o =>
    if s.serving then
      match onAccept s.tempDelay (acceptErr o) with
      | .next d => .ok { s with tempDelay := d, accepted := s.accepted ++ acceptConn o }
      | .served d => .ok { s with
          tempDelay := d, accepted := s.accepted ++ acceptConn o
          started := s.started ++ acceptConn o, entering := s.entering ++ acceptConn o }
      | .returned => .ok { s with serving := false }
    else .block
  | .register c =>
    if s.entering.contains c then
      match s.registry.register c with
      | some g => .ok { s with
          registry := g, entering := s.entering.erase c, conns := s.conns ++ [Conn.new c] }
      | none => .crash
    else .block
  | .read c o =>
    if s.runs c .readConn then
      match o with
      | .bytes bin =>
        .ok { s with threads := s.threads ++ [(c, svr.processIncoming (readBuffer rbuffSize bin))] }
      | .temporary => .ok s
      | .failed => .ok (s.updateConn c fun k =>
          { k with routines := k.routines.erase .readConn, done := true })
    else .block
  | .stop c r =>
    if s.doneClosed c && r.receives.contains .done then
      .ok (s.updateConn c fun k => { k with routines := k.routines.erase r })
    else .block
  | .unregister c =>
    if s.doneClosed c then
      match s.registry.unregister c with
      | some g => .ok { s with registry := g, conns := s.conns.filter fun k => k.id ≠ c }
      | none => .crash
    else .block
  | .act i ch => stepThread svr s i ch

def run (svr : TCPServer) (rbuffSize : Nat) : System → List Event → Outcome System :=
  runSteps (svr.step rbuffSize)

/-! ## 3. Connections are not served -/

/-- What is asked of a state: the connections that are served are those that were accepted,
registering one does not fail, and a packet that waits to be enqueued on an open connection can be
taken by a routine of the connection. -/
structure System.Serves (s : System) : Prop where
  started : s.started = s.accepted
  registers : ∀ c ∈ s.entering, (s.registry.register c).isSome = true
  taken : ∀ c p k, (c, .op (.sendStream p) k) ∈ s.threads → s.doneClosed c = false →
    s.receiver c .sendStream = true

/-- `Serve` is the only goroutine. -/
structure System.Idle (s : System) : Prop where
  started : s.started = []
  entering : s.entering = []
  conns : s.conns = []
  threads : s.threads = []

variable {svr : TCPServer} {rbuffSize : Nat} {s s' : System}

theorem step_idle {ev : Event} (hs : s.Idle) (h : svr.step rbuffSize s ev = .ok s') : s'.Idle := by
  obtain ⟨hstarted, hentering, hconns, hthreads⟩ := hs
  cases ev with
  | accept o =>
    simp only [step] at h
    split at h
    · split at h
      · cases h
        exact ⟨hstarted, hentering, hconns, hthreads⟩
      · next hserved => exact absurd hserved (onAccept_ne_served _ _ _)
      · cases h
        exact ⟨hstarted, hentering, hconns, hthreads⟩
    · cases h
  | register c => simp [step, hentering] at h
  | read c o => simp [step, System.runs, hconns] at h
  | stop c r => simp [step, System.doneClosed, hconns] at h
  | unregister c => simp [step, System.doneClosed, hconns] at h
  | act i ch => simp [step, stepThread, hthreads] at h

/-! ## 4. What would become of a connection -/

theorem stepThread_frame {i : Nat} {ch : Choice} (h : stepThread svr s i ch = .ok s') :
    s'.conns = s.conns ∧ s'.registry = s.registry := by
  unfold stepThread at h
  split at h
  · split at h
    · cases h
      exact ⟨rfl, rfl⟩
    · cases h
  · split at h
    · cases h
      exact ⟨rfl, rfl⟩
    · cases h
  · split at h
    · cases h
      exact ⟨rfl, rfl⟩
    · cases h
    · cases h
  · cases h

/-- What a step can do to the connections: one is registered, and starts with two routines; some
are changed, and lose routines; one is unregistered. -/
theorem step_conns {ev : Event} (h : svr.step rbuffSize s ev = .ok s') :
    (s'.conns = s.conns ∧ s'.registry = s.registry) ∨
    (∃ c g, s.registry.register c = some g ∧ s'.registry = g ∧
      s'.conns = s.conns ++ [Conn.new c]) ∨
    (∃ f : Conn → Conn, (∀ k, (f k).routines ⊆ k.routines) ∧ s'.conns = s.conns.map f ∧
      s'.registry = s.registry) ∨
    ∃ c g, s.registry.unregister c = some g ∧ s'.registry = g ∧
      s'.conns = s.conns.filter fun k => k.id ≠ c := by
  have herase : ∀ (c : Nat) (r : ConnRoutine) (f : Conn → Conn),
      (∀ k, (f k).routines = k.routines.erase r) →
      ∀ k : Conn, (if k.id = c then f k else k).routines ⊆ k.routines := by
    intro c r f hf k
    split
    · rw [hf]
      exact List.erase_subset
    · exact List.Subset.refl _
  cases ev with
  | accept o =>
    simp only [step] at h
    split at h
    · split at h
      · cases h
        exact .inl ⟨rfl, rfl⟩
      · cases h
        exact .inl ⟨rfl, rfl⟩
      · cases h
        exact .inl ⟨rfl, rfl⟩
    · cases h
  | register c =>
    simp only [step] at h
    split at h
    · split at h
      · next g hg =>
        cases h
        exact .inr (.inl ⟨c, g, hg, rfl, rfl⟩)
      · cases h
    · cases h
  | read c o =>
    simp only [step] at h
    split at h
    · cases o with
      | bytes bin =>
        cases h
        exact .inl ⟨rfl, rfl⟩
      | temporary =>
        cases h
        exact .inl ⟨rfl, rfl⟩
      | failed =>
        cases h
        exact .inr (.inr (.inl ⟨_, herase c .readConn _ fun _ => rfl, rfl, rfl⟩))
    · cases h
  | stop c r =>
    simp only [step] at h
    split at h
    · cases h
      exact .inr (.inr (.inl ⟨_, herase c r _ fun _ => rfl, rfl, rfl⟩))
    · cases h
  | unregister c =>
    simp only [step] at h
    split at h
    · split at h
      · next g hg =>
        cases h
        exact .inr (.inr (.inr ⟨c, g, hg, rfl, rfl⟩))
      · cases h
    · cases h
  | act i ch => exact .inl (stepThread_frame h)

/-- A server that `NewTCPServer` has made does not get a connection registered, whichever are
started. -/
theorem never_registered {evs : List Event} (hreg : s.registry = Registry.new) (hconns : s.conns = [])
    (h : svr.run rbuffSize s evs = .ok s') : s'.conns = [] := by
  refine (runSteps_invariant (I := fun s => s.registry = Registry.new ∧ s.conns = [])
    (fun s ev s' hs h => ?_) ⟨hreg, hconns⟩ h).2
  obtain ⟨hreg, hconns⟩ := hs
  rcases step_conns h with ⟨h₁, h₂⟩ | ⟨c, g, hg, -, -⟩ | ⟨f, -, h₁, h₂⟩ | ⟨c, g, hg, -, -⟩
  · exact ⟨h₂.trans hreg, h₁.trans hconns⟩
  · rw [hreg] at hg
    cases hg
  · exact ⟨h₂.trans hreg, by rw [h₁, hconns, List.map_nil]⟩
  · rw [hreg] at hg
    cases hg

/-- No routine of a connection selects on `sendStream`. -/
def System.NoTaker (s : System) : Prop :=
  ∀ k ∈ s.conns, ∀ r ∈ k.routines, Chan.sendStream ∉ r.receives

theorem step_noTaker {ev : Event} (hs : s.NoTaker) (h : svr.step rbuffSize s ev = .ok s') :
    s'.NoTaker := by
  unfold System.NoTaker at hs ⊢
  rcases step_conns h with ⟨h₁, -⟩ | ⟨c, g, -, -, h₁⟩ | ⟨f, hf, h₁, -⟩ | ⟨c, g, -, -, h₁⟩
  · rw [h₁]
    exact hs
  · rw [h₁]
    intro k hk
    rcases List.mem_append.mp hk with hk | hk
    · exact hs k hk
    · rw [List.mem_singleton.mp hk]
      show ∀ r ∈ [ConnRoutine.writeConn, ConnRoutine.readConn], Chan.sendStream ∉ r.receives
      decide
  · rw [h₁]
    intro k hk r hr
    obtain ⟨k₀, hk₀, rfl⟩ := List.mem_map.mp hk
    exact hs k₀ hk₀ r (hf k₀ hr)
  · rw [h₁]
    exact fun k hk => hs k (List.mem_filter.mp hk).1

/-- Whatever the registry and the connections that are started: a goroutine that enqueues a packet
for the peer of its connection waits forever. -/
theorem enqueue_blocked {evs : List Event} (hconns : s.conns = [])
    (h : svr.run rbuffSize s evs = .ok s') {i c p : Nat} {k : Unit → Routine Unit}
    (hi : s'.threads[i]? = some (c, .op (.sendStream p) k)) (ch : Choice) :
    svr.step rbuffSize s' (.act i ch) = .block := by
  have hstart : s.NoTaker := fun k hk => by
    rw [hconns] at hk
    cases hk
  have hnone : s'.NoTaker := runSteps_invariant (fun _ _ _ hs h => step_noTaker hs h) hstart h
  have hreceiver : s'.receiver c .sendStream = false := by
    rw [System.receiver, List.any_eq_false]
    intro k hk hany
    rw [Bool.and_eq_true, List.any_eq_true] at hany
    obtain ⟨-, r, hr, hmem⟩ := hany
    exact hnone k hk r hr (List.contains_iff_mem.mp hmem)
  simp only [step, stepThread, hi, hreceiver, Bool.false_eq_true, if_false]

end TCPServer

/-- A server serves what it has accepted as long as that is nothing. -/
theorem serves_accepted_iff (svr : TCPServer) (rbuffSize : Nat) {evs : List TCPServer.Event}
    {s : TCPServer.System} (h : svr.run rbuffSize TCPServer.System.start evs = .ok s) :
    s.Serves ↔ s.accepted = [] := by
  obtain ⟨hstarted, hentering, -, hthreads⟩ := runSteps_invariant
    (fun _ _ _ hs h => TCPServer.step_idle hs h) ⟨rfl, rfl, rfl, rfl⟩ h
  constructor
  · intro hserves
    rw [← hserves.started, hstarted]
  · intro haccepted
    refine ⟨hstarted.trans haccepted.symm, fun c hc => ?_, fun c p k hk => ?_⟩
    · rw [hentering] at hc
      cases hc
    · rw [hthreads] at hk
      cases hk

/-- Two temporary errors and the last one. -/
theorem idle_server_serves :
    ∃ s, (TCPServer.new (ascii "10.0.0.9:9000")).run 1024 TCPServer.System.start
        [.accept (.error .temporary), .accept (.error .temporary), .accept (.error .other)] = .ok s ∧
      s.Serves ∧ s.tempDelay = 10 ∧ s.serving = false := by
  have hrun : (TCPServer.new (ascii "10.0.0.9:9000")).run 1024 TCPServer.System.start
      [.accept (.error .temporary), .accept (.error .temporary), .accept (.error .other)] =
      .ok { TCPServer.System.start with serving := false, tempDelay := 10 } := rfl
  exact ⟨_, hrun, (serves_accepted_iff _ 1024 hrun).mpr rfl, rfl, rfl⟩

/-- The first connection is not served. -/
theorem first_connection_not_served :
    ∃ s, (TCPServer.new (ascii "10.0.0.9:9000")).run 1024 TCPServer.System.start
        [.accept (.ok 0)] = .ok s ∧ ¬ s.Serves := by
  refine ⟨_, rfl, fun h => ?_⟩
  cases h.started

end Concord
