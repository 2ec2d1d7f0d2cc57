import Concord.PacketDecode

/-!
# The packet pool

`JSONPktCreator` of `packet/json_packet_creator.go` over its `sync.Pool`, and
the histories of such a creator: any sequence of calls on it and on the packets
it has made.

The pool is a bag of packet objects. `Get` removes any one of them or calls
`New`; which of the two, and which packet, is the caller's `choice` here, so a
statement over every choice holds for every behaviour of the pool. `Put` may be
followed at any time by the runtime dropping an element.
-/

namespace Concord

open Go

/-- The packet objects made so far, and the bag of those that are in the pool. -/
structure PktPool where
  mem : List JSONPkt
  pool : List Nat
  pool_lt : ∀ i ∈ pool, i < mem.length

namespace PktPool

def empty : PktPool := ⟨[], [], by simp⟩

/-- The pool's `New`: the packet object is not one of those made before. -/
def alloc (s : PktPool) : Nat × PktPool :=
  (s.mem.length,
    { s with
      mem := s.mem ++ [JSONPkt.new]
      pool_lt := fun i hi => by
        rw [List.length_append]
        exact Nat.lt_add_right _ (s.pool_lt i hi) })

/-- `pool.Get`. A choice outside the bag stands for a call of `New`. -/
def get (s : PktPool) (choice : Nat) : Nat × PktPool :=
  match s.pool[choice]? with
  | some i =>
    (i, { s with
          pool := s.pool.eraseIdx choice
          pool_lt := fun j hj => s.pool_lt j (List.mem_of_mem_eraseIdx hj) })
  | none => s.alloc

theorem get_some {s : PktPool} {choice i : Nat} (h : s.pool[choice]? = some i) :
    s.get choice = (i, { s with
      pool := s.pool.eraseIdx choice
      pool_lt := fun j hj => s.pool_lt j (List.mem_of_mem_eraseIdx hj) }) := by
  unfold get
  simp only [h]

theorem get_none {s : PktPool} {choice : Nat} (h : s.pool[choice]? = none) :
    s.get choice = s.alloc := by
  unfold get
  simp only [h]

/-- The packet object `pool.Get` returns, before the creator touches it. -/
def pick (s : PktPool) (choice : Nat) : Option JSONPkt :=
  (s.get choice).2.mem[(s.get choice).1]?

/-- `pool.Put`. -/
def put (s : PktPool) (i : Nat) : PktPool :=
  if h : i < s.mem.length then
    { s with
      pool := i :: s.pool
      pool_lt := fun j hj => (List.mem_cons.mp hj).elim (fun e => e ▸ h) (s.pool_lt j) }
  else s

/-- The runtime drops an element of the pool. -/
def drop (s : PktPool) (n : Nat) : PktPool :=
  { s with
    pool := s.pool.eraseIdx n
    pool_lt := fun j hj => s.pool_lt j (List.mem_of_mem_eraseIdx hj) }

/-- One packet object is replaced by what a call on it has made of it. -/
def setPkt (s : PktPool) (i : Nat) (p : JSONPkt) : PktPool :=
  { s with
    mem := s.mem.set i p
    pool_lt := by simpa using s.pool_lt }

/-- A call on packet object `i`; `none` when the call panics, or when there is
no such object. -/
def onPkt (s : PktPool) (i : Nat) (f : JSONPkt → Option JSONPkt) : Option PktPool := do
  let p ← s.mem[i]?
  let q ← f p
  return s.setPkt i q

/-! ## The creator's calls -/

/-- `Warmup`. -/
def warmup (s : PktPool) : Nat → PktPool
  | 0 => s
  | n + 1 =>
    let (i, s) := s.alloc
    (s.put i).warmup n

/-- `NewPkt`, with the packet object it returns. -/
def newPkt (s : PktPool) (choice : Nat) (ref dest : GoString) : Option (Nat × PktPool) :=
  let (i, s) := s.get choice
  (s.onPkt i fun p => p.newPkt ref dest).map fun s => (i, s)

/-- `NewErrPkt`, with the packet object it returns. -/
def newErrPkt (s : PktPool) (choice : Nat) (ref dest msg : GoString) : Option (Nat × PktPool) :=
  let (i, s) := s.get choice
  (s.onPkt i fun p => p.newErrPkt ref dest msg).map fun s => (i, s)

end PktPool

/-! ## Histories -/

/-- A call on a packet that may change it. -/
inductive PktOp where
  | metaAdd (key val : GoString)
  | metaClear
  | setDest (dest : GoString)
  | write (data : Bytes)
  | clear
  | close
  | unmarshal (bin : Bytes)

/-- What the call makes of the packet; `none` is a panic. -/
def PktOp.apply (p : JSONPkt) : PktOp → Option JSONPkt
  | .metaAdd key val => p.metaAdd key val
  | .metaClear => some p.metaClear
  | .setDest dest => some (p.setDest dest)
  | .write data => some (p.write data)
  | .clear => some p.clear
  | .close => some p.close
  | .unmarshal bin => some (p.unmarshal bin).1

/-- The calls `NewPkt` makes on the packet the pool hands out. -/
def newPktOps (ref dest : GoString) : List PktOp :=
  [.metaClear, .clear, .setDest dest, .metaAdd keyRef ref]

/-- The calls `NewErrPkt` makes on it. -/
def newErrPktOps (ref dest msg : GoString) : List PktOp :=
  newPktOps ref dest ++ [.metaAdd keySvrStatus (ascii "-1"), .metaAdd keySvrMsg msg]

/-- A call on a creator or on one of its packets. -/
inductive PoolOp where
  | warmup (n : Nat)
  | newPkt (choice : Nat) (ref dest : GoString)
  | newErrPkt (choice : Nat) (ref dest msg : GoString)
  | putBack (i : Nat)
  | drop (n : Nat)
  | call (i : Nat) (op : PktOp)

def PoolOp.apply (s : PktPool) : PoolOp → Option PktPool
  | .warmup n => some (s.warmup n)
  | .newPkt choice ref dest => (s.newPkt choice ref dest).map Prod.snd
  | .newErrPkt choice ref dest msg => (s.newErrPkt choice ref dest msg).map Prod.snd
  | .putBack i => some (s.put i)
  | .drop n => some (s.drop n)
  | .call i op => s.onPkt i op.apply

/-- The pool after a history; `none` when a call has panicked. -/
def PktPool.run (s : PktPool) (ops : List PoolOp) : Option PktPool := ops.foldlM PoolOp.apply s

/-! ## Invariants of packets over histories -/

theorem newPkt_eq_ops (p : JSONPkt) (ref dest : GoString) :
    p.newPkt ref dest = (newPktOps ref dest).foldlM PktOp.apply p := by
  simp [JSONPkt.newPkt, newPktOps, PktOp.apply]

theorem newErrPkt_eq_ops (p : JSONPkt) (ref dest msg : GoString) :
    p.newErrPkt ref dest msg = (newErrPktOps ref dest msg).foldlM PktOp.apply p := by
  simp [JSONPkt.newErrPkt, newErrPktOps, List.foldlM_append, newPkt_eq_ops, PktOp.apply]

/-- A call meets `C` when every call it makes on a packet does. -/
def PoolOp.Meets (C : JSONPkt → PktOp → Prop) (s : PktPool) : PoolOp → Prop
  | .newPkt _ ref dest => ∀ p, ∀ op ∈ newPktOps ref dest, C p op
  | .newErrPkt _ ref dest msg => ∀ p, ∀ op ∈ newErrPktOps ref dest msg, C p op
  | .call i op => ∀ p, s.mem[i]? = some p → C p op
  | _ => True

/-- Every call of the history meets `C` in the state it is made in. -/
def PktPool.EachMeets (C : JSONPkt → PktOp → Prop) : PktPool → List PoolOp → Prop
  | _, [] => True
  | s, op :: ops => op.Meets C s ∧ ∀ s', op.apply s = some s' → s'.EachMeets C ops

section Invariant

variable {P : JSONPkt → Prop} {C : JSONPkt → PktOp → Prop}

namespace PktPool

theorem all_alloc {s : PktPool} (hnew : P JSONPkt.new) (h : ∀ p ∈ s.mem, P p) :
    ∀ p ∈ s.alloc.2.mem, P p := by
  intro p hp
  rcases List.mem_append.mp hp with hp | hp
  · exact h p hp
  · rw [List.mem_singleton.mp hp]
    exact hnew

theorem all_get {s : PktPool} (hnew : P JSONPkt.new) (h : ∀ p ∈ s.mem, P p) (choice : Nat) :
    ∀ p ∈ (s.get choice).2.mem, P p := by
  unfold get
  split
  · exact h
  · exact all_alloc hnew h

theorem put_mem (s : PktPool) (i : Nat) : (s.put i).mem = s.mem := by
  unfold put
  split <;> rfl

theorem all_warmup {s : PktPool} (hnew : P JSONPkt.new) (h : ∀ p ∈ s.mem, P p) (n : Nat) :
    ∀ p ∈ (s.warmup n).mem, P p := by
  induction n generalizing s with
  | zero => exact h
  | succ n ih =>
    refine ih ?_
    rw [put_mem]
    exact all_alloc hnew h

theorem onPkt_eq_some {s s' : PktPool} {i : Nat} {f : JSONPkt → Option JSONPkt}
    (h : s.onPkt i f = some s') : ∃ p q, s.mem[i]? = some p ∧ f p = some q ∧ s' = s.setPkt i q := by
  simp only [onPkt, Option.bind_eq_bind, Option.bind_eq_some_iff] at h
  obtain ⟨p, hp, q, hq, hs⟩ := h
  exact ⟨p, q, hp, hq, (Option.some.inj hs).symm⟩

theorem all_onPkt {s s' : PktPool} {i : Nat} {f : JSONPkt → Option JSONPkt}
    (h : ∀ p ∈ s.mem, P p) (hs : s.onPkt i f = some s')
    (hf : ∀ p q, s.mem[i]? = some p → P p → f p = some q → P q) : ∀ p ∈ s'.mem, P p := by
  obtain ⟨p, q, hp, hq, rfl⟩ := onPkt_eq_some hs
  intro x hx
  rcases List.mem_or_eq_of_mem_set hx with hx | rfl
  · exact h x hx
  · exact hf p x hp (h p (List.mem_of_getElem? hp)) hq

end PktPool

theorem all_foldlM {ops : List PktOp} (hC : ∀ p, ∀ op ∈ ops, C p op)
    (hop : ∀ {op p q}, C p op → P p → PktOp.apply p op = some q → P q) {p q : JSONPkt}
    (hp : P p) (h : ops.foldlM PktOp.apply p = some q) : P q := by
  induction ops generalizing p with
  | nil => exact Option.some.inj h ▸ hp
  | cons op ops ih =>
    simp only [List.foldlM_cons, Option.bind_eq_bind, Option.bind_eq_some_iff] at h
    obtain ⟨r, hr, h⟩ := h
    exact ih (fun p op h => hC p op (List.mem_cons_of_mem _ h))
      (hop (hC p op List.mem_cons_self) hp hr) h

/-- One call: a property of new packets that every call meeting `C` keeps. -/
theorem PoolOp.apply_all (hnew : P JSONPkt.new)
    (hop : ∀ {op p q}, C p op → P p → PktOp.apply p op = some q → P q)
    {s s' : PktPool} {op : PoolOp} (hC : op.Meets C s) (h : ∀ p ∈ s.mem, P p)
    (hs : op.apply s = some s') : ∀ p ∈ s'.mem, P p := by
  cases op with
  | warmup n =>
    cases hs
    exact PktPool.all_warmup hnew h n
  | newPkt choice ref dest =>
    simp only [apply, PktPool.newPkt, Option.map_map, Option.map_eq_some_iff] at hs
    obtain ⟨t, ht, rfl⟩ := hs
    refine PktPool.all_onPkt (PktPool.all_get hnew h choice) ht fun p q _ hp hq => ?_
    rw [newPkt_eq_ops] at hq
    exact all_foldlM hC hop hp hq
  | newErrPkt choice ref dest msg =>
    simp only [apply, PktPool.newErrPkt, Option.map_map, Option.map_eq_some_iff] at hs
    obtain ⟨t, ht, rfl⟩ := hs
    refine PktPool.all_onPkt (PktPool.all_get hnew h choice) ht fun p q _ hp hq => ?_
    rw [newErrPkt_eq_ops] at hq
    exact all_foldlM hC hop hp hq
  | putBack i =>
    cases hs
    rw [PktPool.put_mem]
    exact h
  | drop n =>
    cases hs
    exact h
  | call i op => exact PktPool.all_onPkt h hs fun p q hp hP hq => hop (hC p hp) hP hq

/-- A whole history. -/
theorem PktPool.run_all (hnew : P JSONPkt.new)
    (hop : ∀ {op p q}, C p op → P p → PktOp.apply p op = some q → P q)
    {s s' : PktPool} {ops : List PoolOp} (hC : s.EachMeets C ops) (h : ∀ p ∈ s.mem, P p)
    (hs : s.run ops = some s') : ∀ p ∈ s'.mem, P p := by
  induction ops generalizing s with
  | nil => exact Option.some.inj hs ▸ h
  | cons op ops ih =>
    simp only [run, List.foldlM_cons, Option.bind_eq_bind, Option.bind_eq_some_iff] at hs
    obtain ⟨t, ht, hs⟩ := hs
    exact ih (hC.2 t ht) (PoolOp.apply_all hnew hop hC.1 h ht) hs

end Invariant

end Concord
