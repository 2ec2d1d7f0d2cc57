import Concord.Go.Prog
import Concord.Pool

/-!
# The shared state of an endpoint

A server or a client is a set of goroutines over shared state: the packet pool
with its packet objects, the key table of the Crypto extension, the streams
between the goroutines, and on a client the table of requests. `Op` lists the
atomic operations on that state (each is one mutex-protected call, one channel
operation or one access to a packet object), and `Endpoint.handle` says what
each does. What the code leaves open (the packet the pool hands out, random
bytes) is in the `Choice`.

Response channels are made by the application and may be buffered, so a goroutine
that has offered a packet on one goes on; that it waits for the receiver, as on the
unbuffered `Misc`, is the case where `receive` or `receiveMisc` comes next. The unbuffered
streams to the server's `sendPkts` and to the client's write routine hold one value each,
while the receiver is busy with it.
-/

namespace Concord

open Go

/-- A network address, named by its canonical `String()` form. -/
abbrev Addr := GoString

/-! ## The key table -/

/-- `PublicKey`; a nil coordinate is `none`. -/
structure PublicKey where
  x : Option Int
  y : Option Int
  deriving DecidableEq

/-- `keyStore` -/
structure KeyStore where
  keySent : Bool
  shared : Nat
  pub : PublicKey

/-- `keys map[string]*keyStore`: the entries are pointers, so an entry that has
been looked up can still be changed after the table has another one. -/
structure KeyTable where
  heap : List KeyStore
  table : GoMap GoString Nat
  table_lt : ∀ a i, table.get? a = some i → i < heap.length

/-- A key store that has been looked up: the object, and the fields that never
change. -/
structure KeyRef where
  id : Nat
  shared : Nat
  pub : PublicKey
  deriving DecidableEq

namespace KeyTable

def empty : KeyTable := ⟨[], GoMap.empty, by simp⟩

/-- `getKeyStore`. -/
def getKeyStore (t : KeyTable) (addr : GoString) : Option KeyRef :=
  (t.table.get? addr).bind fun i => t.heap[i]?.map fun k => ⟨i, k.shared, k.pub⟩

/-- `setKeyStore` of a newly made key store. -/
def setKeyStore (t : KeyTable) (addr : GoString) (k : KeyStore) : KeyTable where
  heap := t.heap ++ [k]
  table := t.table.set addr t.heap.length
  table_lt := by
    intro a i h
    rw [GoMap.get?_set] at h
    rw [List.length_append]
    split at h
    · cases h
      exact Nat.lt_succ_self _
    · exact Nat.lt_add_right _ (t.table_lt a i h)

/-- `getKeySent` of a key store object. -/
def getKeySent (t : KeyTable) (i : Nat) : Bool := (t.heap[i]?.map KeyStore.keySent).getD false

/-- `setKeySent` of a key store object. -/
def setKeySent (t : KeyTable) (i : Nat) (b : Bool) : KeyTable :=
  { t with
    heap := t.heap.modify i fun k => { k with keySent := b }
    table_lt := by simpa using t.table_lt }

theorem getKeyStore_setKeyStore (t : KeyTable) (a b : GoString) (k : KeyStore) :
    (t.setKeyStore a k).getKeyStore b =
      if b = a then some ⟨t.heap.length, k.shared, k.pub⟩ else t.getKeyStore b := by
  simp only [getKeyStore, setKeyStore, GoMap.get?_set]
  split
  · simp
  · cases ht : t.table.get? b with
    | none => rfl
    | some i =>
      rw [Option.bind_some, Option.bind_some, List.getElem?_append_left (t.table_lt b i ht)]

theorem getKeyStore_setKeySent (t : KeyTable) (i : Nat) (b : Bool) (a : GoString) :
    (t.setKeySent i b).getKeyStore a = t.getKeyStore a := by
  simp only [getKeyStore, setKeySent]
  congr 1
  funext j
  rw [List.getElem?_modify]
  cases t.heap[j]? with
  | none => rfl
  | some k =>
    by_cases h : i = j
    · simp [h]
    · simp [h]

theorem getKeySent_setKeyStore (t : KeyTable) (a : GoString) (k : KeyStore) {i : Nat}
    (hi : i < t.heap.length) : (t.setKeyStore a k).getKeySent i = t.getKeySent i := by
  simp only [getKeySent, setKeyStore]
  rw [List.getElem?_append_left hi]

theorem getKeySent_setKeySent (t : KeyTable) (i j : Nat) (b : Bool) (hi : i < t.heap.length) :
    (t.setKeySent j b).getKeySent i = if i = j then b else t.getKeySent i := by
  simp only [getKeySent, setKeySent, List.getElem?_modify]
  rw [List.getElem?_eq_getElem hi]
  by_cases h : j = i
  · simp [h]
  · simp [h, Ne.symm h]

/-- A key store in the table is an object of the heap. -/
theorem getKeyStore_lt {t : KeyTable} {a : GoString} {k : KeyRef} (h : t.getKeyStore a = some k) :
    k.id < t.heap.length := by
  obtain ⟨i, hi, h⟩ := Option.bind_eq_some_iff.mp h
  obtain ⟨ks, -, rfl⟩ := Option.map_eq_some_iff.mp h
  exact t.table_lt a i hi

end KeyTable

/-! ## Operations -/

/-- A call that reads a packet. Each returns a string. -/
inductive PktRead where
  | dest
  | metaGet (key : GoString)
  | data
  | marshal

def PktRead.eval (p : JSONPkt) : PktRead → Bytes
  | .dest => p.dest
  | .metaGet key => p.metaGet key
  | .data => p.data
  | .marshal => p.marshal

/-- The error a call on a packet returns; only `Unmarshal` has one. -/
def PktOp.error (p : JSONPkt) : PktOp → Option JSONPkt.UnmarshalErr
  | .unmarshal bin => (p.unmarshal bin).2
  | _ => none

inductive Op where
  /-- `pool.Get` and `pool.Put` -/
  | poolGet
  | poolPut (p : Nat)
  /-- a call on packet object `p` -/
  | call (p : Nat) (op : PktOp)
  | read (p : Nat) (r : PktRead)
  /-- the key table and its key stores -/
  | getKeyStore (addr : GoString)
  | setKeyStore (addr : GoString) (k : KeyStore)
  | getKeySent (ks : Nat)
  | setKeySent (ks : Nat) (b : Bool)
  /-- twelve bytes from `rand.Reader` -/
  | readNonce
  /-- the server's `sendStream` and `writeStream` -/
  | sendStream (p : Nat)
  | dist (data : Bytes) (addr : Addr)
  /-- the client's `writeStream`, request table and channels -/
  | writeStream (data : Bytes) (respCh : Option Nat)
  | writeDone
  | register (ref : GoString) (respCh : Option Nat)
  | lookup (ref : GoString)
  | unregister (ref : GoString)
  | deliver (ch : Nat) (p : Nat)
  | misc (p : Nat)
  | receive (ch : Nat)
  | receiveMisc
  | genRef
  /-- anything the application learns from outside -/
  | oracle
  | panic

deriving instance DecidableEq for KeyStore, PktOp, PktRead, Op

/-- The type of an operation's result. -/
@[reducible] def Op.Res : Op → Type
  | .poolGet => Nat
  | .call _ _ => Option JSONPkt.UnmarshalErr
  | .read _ _ => Bytes
  | .getKeyStore _ => Option KeyRef
  | .getKeySent _ => Bool
  | .readNonce => Option Bytes
  | .lookup _ => Option (Option Nat)
  | .receive _ => Nat
  | .receiveMisc => Nat
  | .genRef => GoString
  | .oracle => Nat
  | .panic => Empty
  | _ => Unit

/-- A goroutine or a part of one. -/
abbrev Routine := Prog Op Op.Res

/-- What resolves an operation the code leaves open. -/
structure Choice where
  pick : Nat := 0
  bytes : Option Bytes := none
  deriving Inhabited

/-! ## State -/

structure Endpoint where
  pkts : PktPool
  keys : KeyTable
  /-- the packet `sendPkts` has received and not yet started a goroutine for -/
  sending : Option Nat
  /-- what the client's write routine is writing -/
  writing : Option (Bytes × Option Nat)
  /-- the write routine is busy delivering a write error -/
  failing : Bool
  /-- `requests` of the client: the response channel, which may be nil -/
  requests : GoMap GoString (Option Nat)
  /-- packets sent on a response channel and not yet received -/
  inbox : List (Nat × Nat)
  /-- packets sent on `Misc` and not yet received -/
  misc : List Nat

namespace Endpoint

def init : Endpoint := ⟨PktPool.empty, KeyTable.empty, none, none, false, GoMap.empty, [], []⟩

def nonceSize : Nat := 12

def isRefChar (b : UInt8) : Bool :=
  (0x61 ≤ b && b ≤ 0x7A) || (0x41 ≤ b && b ≤ 0x5A) || (0x30 ≤ b && b ≤ 0x39)

/-- A string `genRef(5)` can return. -/
def isRef (s : GoString) : Bool := s.length = 5 && s.all isRefChar

def handle (s : Endpoint) (c : Choice) : (e : Op) → Outcome (e.Res × Endpoint)
  | .poolGet => .ok ((s.pkts.get c.pick).1, { s with pkts := (s.pkts.get c.pick).2 })
  | .poolPut p => .ok ((), { s with pkts := s.pkts.put p })
  | .call p op =>
    match s.pkts.mem[p]? with
    | none => .block
    | some pkt =>
      match op.apply pkt with
      | none => .crash
      | some q => .ok (op.error pkt, { s with pkts := s.pkts.setPkt p q })
  | .read p r =>
    match s.pkts.mem[p]? with
    | none => .block
    | some pkt => .ok (r.eval pkt, s)
  | .getKeyStore addr => .ok (s.keys.getKeyStore addr, s)
  | .setKeyStore addr k => .ok ((), { s with keys := s.keys.setKeyStore addr k })
  | .getKeySent ks => .ok (s.keys.getKeySent ks, s)
  | .setKeySent ks b => .ok ((), { s with keys := s.keys.setKeySent ks b })
  | .readNonce => .ok (c.bytes.filter fun n => n.length = nonceSize, s)
  | .sendStream p =>
    match s.sending with
    | some _ => .block
    | none => .ok ((), { s with sending := some p })
  | .dist _ _ => .ok ((), s)
  | .writeStream data respCh =>
    if s.writing.isSome || s.failing then .block
    else .ok ((), { s with writing := some (data, respCh) })
  | .writeDone => .ok ((), { s with failing := false })
  | .register ref respCh => .ok ((), { s with requests := s.requests.set ref respCh })
  | .lookup ref => .ok (s.requests.get? ref, s)
  | .unregister ref => .ok ((), { s with requests := s.requests.delete ref })
  | .deliver ch p => .ok ((), { s with inbox := s.inbox ++ [(ch, p)] })
  | .misc p => .ok ((), { s with misc := s.misc ++ [p] })
  | .receive ch =>
    match s.inbox.find? fun e => e.1 = ch with
    | none => .block
    | some e => .ok (e.2, { s with inbox := s.inbox.eraseP fun e => e.1 = ch })
  | .receiveMisc =>
    match s.misc with
    | [] => .block
    | p :: rest => .ok (p, { s with misc := rest })
  | .genRef =>
    match c.bytes with
    | none => .block
    | some ref => if isRef ref then .ok (ref, s) else .block
  | .oracle => .ok (c.pick, s)
  | .panic => .crash

/-! ### What an operation leaves alone -/

end Endpoint

/-- The operation may change the pool or a packet object. -/
def Op.onPkts : Op → Bool
  | .poolGet | .poolPut _ | .call _ _ => true
  | _ => false

/-- The operation may change the key table. -/
def Op.onKeys : Op → Bool
  | .setKeyStore _ _ | .setKeySent _ _ => true
  | _ => false

def Op.onSending : Op → Bool
  | .sendStream _ => true
  | _ => false

/-- The operation may change the client's part of the state. -/
def Op.onClient : Op → Bool
  | .writeStream _ _ | .writeDone | .register _ _ | .unregister _ | .deliver _ _ | .receive _ => true
  | _ => false

namespace Endpoint

theorem handle_frame {s s' : Endpoint} {c : Choice} {e : Op} {r : e.Res}
    (h : s.handle c e = .ok (r, s')) :
    (e.onPkts = false → s'.pkts = s.pkts) ∧ (e.onKeys = false → s'.keys = s.keys) ∧
    (e.onSending = false → s'.sending = s.sending) ∧
    (e.onClient = false → s'.writing = s.writing ∧ s'.requests = s.requests ∧
      s'.inbox = s.inbox) := by
  cases e with
  | call p op =>
    simp only [handle] at h
    split at h
    · cases h
    · split at h
      · cases h
      · cases h
        simp [Op.onPkts]
  | read p r =>
    simp only [handle] at h
    split at h
    · cases h
    · cases h
      simp
  | sendStream p =>
    simp only [handle] at h
    split at h
    · cases h
    · cases h
      simp [Op.onSending]
  | writeStream d ch =>
    simp only [handle] at h
    split at h
    · cases h
    · cases h
      simp [Op.onClient]
  | receive ch =>
    simp only [handle] at h
    split at h
    · cases h
    · cases h
      simp [Op.onClient]
  | receiveMisc =>
    simp only [handle] at h
    split at h
    · cases h
    · cases h
      simp
  | genRef =>
    simp only [handle] at h
    split at h
    · cases h
    · split at h
      · cases h
        simp
      · cases h
  | panic => exact r.elim
  | _ =>
    cases h
    simp [Op.onPkts, Op.onKeys, Op.onSending, Op.onClient]

theorem handle_call_ok {s s' : Endpoint} {c : Choice} {p : Nat} {op : PktOp}
    {r : Op.Res (.call p op)} (h : s.handle c (.call p op) = .ok (r, s')) :
    ∃ pkt q, s.pkts.mem[p]? = some pkt ∧ op.apply pkt = some q ∧ r = op.error pkt ∧
      s' = { s with pkts := s.pkts.setPkt p q } := by
  simp only [handle] at h
  split at h
  · cases h
  · next pkt hp =>
    split at h
    · cases h
    · next q hq =>
      cases h
      exact ⟨pkt, q, hp, hq, rfl, rfl⟩

theorem handle_read_ok {s s' : Endpoint} {c : Choice} {p : Nat} {q : PktRead}
    {r : Op.Res (.read p q)} (h : s.handle c (.read p q) = .ok (r, s')) :
    s' = s ∧ ∃ pkt, s.pkts.mem[p]? = some pkt ∧ r = q.eval pkt := by
  simp only [handle] at h
  split at h
  · cases h
  · next pkt hp =>
    cases h
    exact ⟨rfl, pkt, hp, rfl⟩

theorem handle_send_ok {s s' : Endpoint} {c : Choice} {p : Nat} {r : Op.Res (.sendStream p)}
    (h : s.handle c (.sendStream p) = .ok (r, s')) :
    s.sending = none ∧ s' = { s with sending := some p } := by
  simp only [handle] at h
  split at h
  · cases h
  · next hs =>
    cases h
    exact ⟨hs, rfl⟩

/-- The operations that can panic. -/
theorem handle_crash {s : Endpoint} {c : Choice} {e : Op} (h : s.handle c e = .crash) :
    e = .panic ∨ ∃ p op pkt, e = .call p op ∧ s.pkts.mem[p]? = some pkt ∧ op.apply pkt = none := by
  cases e with
  | call p op =>
    simp only [handle] at h
    split at h
    · cases h
    · next pkt hp =>
      split at h
      · next hq => exact .inr ⟨p, op, pkt, rfl, hp, hq⟩
      · cases h
  | panic => exact .inl rfl
  | read p r => simp only [handle] at h; split at h <;> cases h
  | sendStream p => simp only [handle] at h; split at h <;> cases h
  | writeStream d ch => simp only [handle] at h; split at h <;> cases h
  | receive ch => simp only [handle] at h; split at h <;> cases h
  | receiveMisc => simp only [handle] at h; split at h <;> cases h
  | genRef =>
    simp only [handle] at h
    split at h
    · cases h
    · split at h <;> cases h
  | _ => cases h

end Endpoint

/-! ## Calls on packets and on the creator -/

namespace Routine

def perform (e : Op) : Routine e.Res := Prog.perform e

def metaGet (p : Nat) (key : GoString) : Routine GoString := perform (.read p (.metaGet key))
def dest (p : Nat) : Routine GoString := perform (.read p .dest)
def data (p : Nat) : Routine Bytes := perform (.read p .data)
def marshal (p : Nat) : Routine Bytes := perform (.read p .marshal)

/-- A call whose result is not looked at. -/
def call (p : Nat) (op : PktOp) : Routine Unit := do
  let _ ← perform (.call p op)

def unmarshal (p : Nat) (bin : Bytes) : Routine (Option JSONPkt.UnmarshalErr) :=
  perform (.call p (.unmarshal bin))

def callAll (p : Nat) : List PktOp → Routine Unit
  | [] => pure ()
  | op :: ops => do
    call p op
    callAll p ops

def putBack (p : Nat) : Routine Unit := perform (.poolPut p)

/-- `NewPkt`. -/
def newPkt (ref dest : GoString) : Routine Nat := do
  let p ← perform .poolGet
  callAll p (newPktOps ref dest)
  return p

/-- `NewErrPkt`. -/
def newErrPkt (ref dest msg : GoString) : Routine Nat := do
  let p ← perform .poolGet
  callAll p (newErrPktOps ref dest msg)
  return p

/-- A runtime panic. -/
def panic {α : Type} : Routine α := do
  let e ← perform .panic
  nomatch e

/-! ## Their operations -/

variable {P : Op → Prop}

theorem call_allOps {p : Nat} {op : PktOp} (h : P (.call p op)) : (call p op).AllOps P :=
  Prog.allOps_op h fun _ => trivial

theorem callAll_allOps {p : Nat} {ops : List PktOp} (h : ∀ op ∈ ops, P (.call p op)) :
    (callAll p ops).AllOps P := by
  induction ops with
  | nil => trivial
  | cons op ops ih =>
    exact Prog.allOps_bind (call_allOps (h op List.mem_cons_self)) fun _ =>
      ih fun op hop => h op (List.mem_cons_of_mem _ hop)

theorem newPkt_allOps {ref dest : GoString} (hget : P .poolGet)
    (hcall : ∀ p, ∀ op ∈ newPktOps ref dest, P (.call p op)) : (newPkt ref dest).AllOps P :=
  Prog.allOps_op hget fun p => Prog.allOps_bind (callAll_allOps (hcall p)) fun _ => trivial

theorem newErrPkt_allOps {ref dest msg : GoString} (hget : P .poolGet)
    (hcall : ∀ p, ∀ op ∈ newErrPktOps ref dest msg, P (.call p op)) :
    (newErrPkt ref dest msg).AllOps P :=
  Prog.allOps_op hget fun p => Prog.allOps_bind (callAll_allOps (hcall p)) fun _ => trivial

end Routine

end Concord
