import Concord.UDPServer

/-!
# Ownership of packet objects

The proof system of this development for goroutines that work on packet objects.
A goroutine's ghost value is its heap: the packet objects it owns, with their
contents. It may touch only what it owns; it gets packets from the pool or from a
channel and gives them away to the pool, to `sendStream` or to a channel. Every
packet object is in one place at a time: in the pool, on its way between
goroutines, or in one heap (`Owns.linear`). So what a goroutine knows about the
contents of its heap stays true whatever the others do.

`Knowledge` is what is claimed of the values that pass between goroutines. The
sender shows it and the receiver may use it.
-/

namespace Concord

open Go

/-! ## 1. Heaps -/

/-- Packet objects with their contents. -/
abbrev Heap := List (Nat × JSONPkt)

namespace Heap

def keys (h : Heap) : List Nat := h.map Prod.fst

def set (h : Heap) (p : Nat) (c : JSONPkt) : Heap := h.map fun e => if e.1 = p then (p, c) else e

def erase (h : Heap) (p : Nat) : Heap := h.filter fun e => e.1 ≠ p

theorem keys_set (h : Heap) (p : Nat) (c : JSONPkt) : (h.set p c).keys = h.keys := by
  simp only [keys, set, List.map_map]
  refine List.map_congr_left fun e _ => ?_
  simp only [Function.comp_apply]
  split
  · next he => exact he.symm
  · rfl

theorem keys_erase (h : Heap) (p : Nat) : (h.erase p).keys = h.keys.filter fun q => q ≠ p := by
  simp [keys, erase, List.filter_map, Function.comp_def]

theorem mem_keys {h : Heap} {e : Nat × JSONPkt} (he : e ∈ h) : e.1 ∈ h.keys :=
  List.mem_map_of_mem he

theorem mem_set {h : Heap} {p q : Nat} {c d : JSONPkt} (hm : (q, d) ∈ h.set p c) :
    q = p ∧ d = c ∧ p ∈ h.keys ∨ q ≠ p ∧ (q, d) ∈ h := by
  obtain ⟨e, he, heq⟩ := List.mem_map.mp hm
  split at heq
  · next hp =>
    cases heq
    exact .inl ⟨rfl, rfl, hp ▸ mem_keys he⟩
  · next hp =>
    subst heq
    exact .inr ⟨hp, he⟩

theorem mem_erase {h : Heap} {p : Nat} {e : Nat × JSONPkt} (hm : e ∈ h.erase p) : e ∈ h :=
  (List.mem_filter.mp hm).1

end Heap

/-! ## 2. Counting places -/

theorem count_flatten_set {gs : List (List Nat)} {i : Nat} {g : List Nat} (hi : gs[i]? = some g)
    (g' : List Nat) (p : Nat) :
    (gs.set i g').flatten.count p + g.count p = gs.flatten.count p + g'.count p := by
  induction gs generalizing i with
  | nil => simp at hi
  | cons a gs ih =>
    cases i with
    | zero =>
      simp only [List.getElem?_cons_zero, Option.some.injEq] at hi
      subst hi
      simp only [List.set_cons_zero, List.flatten_cons, List.count_append]
      omega
    | succ i =>
      simp only [List.getElem?_cons_succ] at hi
      have := ih hi
      simp only [List.set_cons_succ, List.flatten_cons, List.count_append]
      omega

theorem count_cons_ite (l : List Nat) (p q : Nat) :
    (p :: l).count q = l.count q + if q = p then 1 else 0 := by
  rw [List.count_cons]
  by_cases h : q = p
  · simp [h]
  · simp [h, Ne.symm h]

theorem count_filter_ne (l : List Nat) (p q : Nat) :
    (l.filter fun x => x ≠ p).count q = if q = p then 0 else l.count q := by
  by_cases h : q = p
  · rw [if_pos h, List.count_eq_zero]
    simp [h]
  · rw [if_neg h, List.count_filter]
    simpa using h

theorem count_eraseIdx {l : List Nat} {n a : Nat} (h : l[n]? = some a) (p : Nat) :
    (l.eraseIdx n).count p + (if p = a then 1 else 0) = l.count p := by
  induction l generalizing n with
  | nil => simp at h
  | cons b l ih =>
    cases n with
    | zero =>
      simp only [List.getElem?_cons_zero, Option.some.injEq] at h
      subst h
      by_cases hp : p = b
      · simp [hp]
      · simp [hp, Ne.symm hp]
    | succ n =>
      simp only [List.getElem?_cons_succ] at h
      simp only [List.eraseIdx_cons_succ, List.count_cons]
      have := ih h
      omega

/-! ## 3. Rules -/

/-- What is claimed of the values that pass between goroutines. -/
structure Knowledge where
  /-- a packet object that comes from the pool -/
  get : JSONPkt → Prop
  /-- a packet on `sendStream` -/
  send : JSONPkt → Prop
  /-- what is handed to the server's writer -/
  dist : Bytes → Addr → Prop
  /-- an entry of the key table -/
  key : GoString → Nat → PublicKey → Prop
  /-- what is handed to the client's writer -/
  write : Bytes → Option Nat → Prop
  /-- an entry of the request table -/
  request : GoString → Option Nat → Prop
  /-- a packet on a response channel -/
  deliver : Nat → JSONPkt → Prop
  /-- a packet on `Misc` -/
  misc : JSONPkt → Prop

/-- Nothing is claimed. -/
def Knowledge.nothing : Knowledge :=
  ⟨fun _ => True, fun _ => True, fun _ _ => True, fun _ _ _ => True, fun _ _ => True,
    fun _ _ => True, fun _ _ => True, fun _ => True⟩

/-- The rule of each operation. -/
def ownRules (K : Knowledge) : Prog.Rules Op Op.Res Heap
  | .poolGet => fun h Φ => ∀ p c, p ∉ h.keys → K.get c → Φ p ((p, c) :: h)
  | .poolPut p => fun h Φ => p ∈ h.keys ∧ Φ () (h.erase p)
  | .call p op => fun h Φ =>
    ∃ c, (p, c) ∈ h ∧ ∀ c', op.apply c = some c' → Φ (op.error c) (h.set p c')
  | .read p r => fun h Φ => ∃ c, (p, c) ∈ h ∧ Φ (r.eval c) h
  | .getKeyStore a => fun h Φ =>
    ∀ r : Option KeyRef, (∀ k, r = some k → K.key a k.shared k.pub) → Φ r h
  | .setKeyStore a k => fun h Φ => K.key a k.shared k.pub ∧ Φ () h
  | .sendStream p => fun h Φ => ∃ c, (p, c) ∈ h ∧ K.send c ∧ Φ () (h.erase p)
  | .dist data addr => fun h Φ => K.dist data addr ∧ Φ () h
  | .writeStream data ch => fun h Φ => K.write data ch ∧ Φ () h
  | .register ref ch => fun h Φ => K.request ref ch ∧ Φ () h
  | .lookup ref => fun h Φ =>
    ∀ r : Option (Option Nat), (∀ ch, r = some ch → K.request ref ch) → Φ r h
  | .deliver ch p => fun h Φ => ∃ c, (p, c) ∈ h ∧ K.deliver ch c ∧ Φ () (h.erase p)
  | .misc p => fun h Φ => ∃ c, (p, c) ∈ h ∧ K.misc c ∧ Φ () (h.erase p)
  | .receive ch => fun h Φ => ∀ p c, p ∉ h.keys → K.deliver ch c → Φ p ((p, c) :: h)
  | .receiveMisc => fun h Φ => ∀ p c, p ∉ h.keys → K.misc c → Φ p ((p, c) :: h)
  | .readNonce => fun h Φ =>
    ∀ r : Option Bytes, (∀ n, r = some n → n.length = Endpoint.nonceSize) → Φ r h
  | .writeDone => fun h Φ => Φ () h
  | .unregister _ => fun h Φ => Φ () h
  | .getKeySent _ => fun h Φ => ∀ r, Φ r h
  | .setKeySent _ _ => fun h Φ => Φ () h
  | .genRef => fun h Φ => ∀ r, Endpoint.isRef r = true → Φ r h
  | .oracle => fun h Φ => ∀ r, Φ r h
  | .panic => fun _ _ => True

theorem ownRules_mono (K : Knowledge) : (ownRules K).Mono := by
  intro e h Φ Ψ hΦ
  cases e with
  | poolGet => exact fun H p c hp hc => hΦ _ _ (H p c hp hc)
  | poolPut p => exact fun H => ⟨H.1, hΦ _ _ H.2⟩
  | call p op => exact fun ⟨c, hc, H⟩ => ⟨c, hc, fun c' hc' => hΦ _ _ (H c' hc')⟩
  | read p r => exact fun ⟨c, hc, H⟩ => ⟨c, hc, hΦ _ _ H⟩
  | getKeyStore a => exact fun H r hr => hΦ _ _ (H r hr)
  | setKeyStore a k => exact fun H => ⟨H.1, hΦ _ _ H.2⟩
  | sendStream p => exact fun ⟨c, hc, hk, H⟩ => ⟨c, hc, hk, hΦ _ _ H⟩
  | dist data addr => exact fun H => ⟨H.1, hΦ _ _ H.2⟩
  | writeStream data ch => exact fun H => ⟨H.1, hΦ _ _ H.2⟩
  | register ref ch => exact fun H => ⟨H.1, hΦ _ _ H.2⟩
  | lookup ref => exact fun H r hr => hΦ _ _ (H r hr)
  | deliver ch p => exact fun ⟨c, hc, hk, H⟩ => ⟨c, hc, hk, hΦ _ _ H⟩
  | misc p => exact fun ⟨c, hc, hk, H⟩ => ⟨c, hc, hk, hΦ _ _ H⟩
  | receive ch => exact fun H p c hp hc => hΦ _ _ (H p c hp hc)
  | receiveMisc => exact fun H p c hp hc => hΦ _ _ (H p c hp hc)
  | readNonce => exact fun H r hr => hΦ _ _ (H r hr)
  | writeDone => exact fun H => hΦ _ _ H
  | unregister r => exact fun H => hΦ _ _ H
  | getKeySent ks => exact fun H r => hΦ _ _ (H r)
  | setKeySent ks b => exact fun H => hΦ _ _ H
  | genRef => exact fun H r hr => hΦ _ _ (H r hr)
  | oracle => exact fun H r => hΦ _ _ (H r)
  | panic => exact fun _ => trivial

/-! ## 4. The invariant -/

/-- Every place a packet object can be in. -/
def places (s : Endpoint) (hs : List Heap) : List Nat :=
  s.pkts.pool ++ (s.sending.toList ++ (s.inbox.map Prod.snd ++ (s.misc ++
    (hs.map Heap.keys).flatten)))

/-- The goroutines' heaps `hs` own their packet objects, and everything under way
between goroutines is as claimed. -/
structure Owns (K : Knowledge) (s : Endpoint) (hs : List Heap) : Prop where
  linear : ∀ p, (places s hs).count p ≤ 1
  heap : ∀ h ∈ hs, ∀ p c, (p, c) ∈ h → s.pkts.mem[p]? = some c
  sending : ∀ p, s.sending = some p → ∃ c, s.pkts.mem[p]? = some c ∧ K.send c
  inbox : ∀ e ∈ s.inbox, ∃ c, s.pkts.mem[e.2]? = some c ∧ K.deliver e.1 c
  misc : ∀ p ∈ s.misc, ∃ c, s.pkts.mem[p]? = some c ∧ K.misc c
  keys : ∀ a r, s.keys.getKeyStore a = some r → K.key a r.shared r.pub
  requests : ∀ ref ch, s.requests.get? ref = some ch → K.request ref ch
  writing : ∀ w, s.writing = some w → K.write w.1 w.2

section Facts

variable {K : Knowledge} {s : Endpoint} {hs : List Heap} {i p : Nat} {h : Heap}

/-- The count of the heaps after one of them has changed. -/
theorem count_keys_set (hi : hs[i]? = some h) (h' : Heap) (p : Nat) :
    ((hs.set i h').map Heap.keys).flatten.count p + h.keys.count p =
      (hs.map Heap.keys).flatten.count p + h'.keys.count p := by
  rw [List.map_set]
  exact count_flatten_set (by rw [List.getElem?_map, hi]; rfl) _ p

theorem places_count (s : Endpoint) (hs : List Heap) (p : Nat) :
    (places s hs).count p = s.pkts.pool.count p + (s.sending.toList.count p +
      ((s.inbox.map Prod.snd).count p + (s.misc.count p + (hs.map Heap.keys).flatten.count p))) := by
  simp only [places, List.count_append]

namespace Owns

/-- A packet object in the heap of one goroutine is nowhere else. -/
theorem exclusive (o : Owns K s hs) (hi : hs[i]? = some h) (hp : p ∈ h.keys) :
    p ∉ s.pkts.pool ∧ p ∉ s.sending.toList ∧ p ∉ s.inbox.map Prod.snd ∧ p ∉ s.misc ∧
      h.keys.count p = 1 ∧
      ∀ j g, j ≠ i → hs[j]? = some g → p ∉ g.keys := by
  have hlin := o.linear p
  rw [places_count] at hlin
  have hset := count_keys_set hi [] p
  have hone : 0 < h.keys.count p := List.count_pos_iff.mpr hp
  rw [show Heap.keys [] = [] from rfl, List.count_nil] at hset
  refine ⟨List.count_eq_zero.mp (by omega), List.count_eq_zero.mp (by omega),
    List.count_eq_zero.mp (by omega), List.count_eq_zero.mp (by omega), by omega,
    fun j g hj hg hpg => ?_⟩
  have hzero : ((hs.set i []).map Heap.keys).flatten.count p = 0 := by omega
  refine List.count_eq_zero.mp hzero (List.mem_flatten.mpr ⟨g.keys, ?_, hpg⟩)
  refine List.mem_map_of_mem (List.mem_of_getElem? (i := j) ?_)
  rw [List.getElem?_set_ne (Ne.symm hj)]
  exact hg

/-- Every place holds a packet object that exists. -/
theorem lt_length (o : Owns K s hs) (hp : p ∈ places s hs) : p < s.pkts.mem.length := by
  have hsome : ∀ {c}, s.pkts.mem[p]? = some c → p < s.pkts.mem.length := fun hc =>
    (List.getElem?_eq_some_iff.mp hc).1
  simp only [places, List.mem_append, Option.mem_toList, List.mem_map, List.mem_flatten] at hp
  rcases hp with hp | hp | ⟨e, he, rfl⟩ | hp | ⟨_, ⟨h, hh, rfl⟩, hp⟩
  · exact s.pkts.pool_lt p hp
  · obtain ⟨c, hc, -⟩ := o.sending p hp
    exact hsome hc
  · obtain ⟨c, hc, -⟩ := o.inbox e he
    exact hsome hc
  · obtain ⟨c, hc, -⟩ := o.misc p hp
    exact hsome hc
  · obtain ⟨⟨q, c⟩, he, rfl⟩ := List.mem_map.mp hp
    exact hsome (o.heap h hh q c he)

end Owns

end Facts

/-! ## 5. One operation -/

/-- The packet object an operation touches. -/
def Op.touches : Op → Option Nat
  | .poolPut p | .call p _ | .read p _ | .sendStream p | .deliver _ p | .misc p => some p
  | _ => none

/-- The packet objects a goroutine holds after an operation. -/
def heldAfter : (e : Op) → e.Res → List Nat → List Nat
  | .poolGet, p, held => p :: held
  | .receive _, p, held => p :: held
  | .receiveMisc, p, held => p :: held
  | .poolPut p, _, held => held.filter fun q => q ≠ p
  | .sendStream p, _, held => held.filter fun q => q ≠ p
  | .deliver _ p, _, held => held.filter fun q => q ≠ p
  | .misc p, _, held => held.filter fun q => q ≠ p
  | _, _, held => held

section Act

variable {K : Knowledge} {s s' : Endpoint} {hs : List Heap} {i : Nat} {h : Heap} {c : Choice}

/-- What one operation of goroutine `i` comes to: it was entitled to it, and owns
`h'` afterwards. -/
structure Acted (K : Knowledge) (s' : Endpoint) (hs : List Heap) (i : Nat) (h h' : Heap) (e : Op)
    (r : e.Res) : Prop where
  entitled : ∀ p, e.touches = some p → p ∈ h.keys
  held : h'.keys = heldAfter e r h.keys
  owns : Owns K s' (hs.set i h')

/-- An operation that moves no packet object and changes none. -/
theorem Acted.still (o : Owns K s hs) (hi : hs[i]? = some h) {e : Op} {r : e.Res}
    (ht : e.touches = none) (hheld : heldAfter e r h.keys = h.keys)
    (hp : s'.pkts = s.pkts) (hsd : s'.sending = s.sending) (hin : s'.inbox = s.inbox)
    (hm : s'.misc = s.misc)
    (hk : ∀ a r, s'.keys.getKeyStore a = some r → K.key a r.shared r.pub)
    (hr : ∀ ref ch, s'.requests.get? ref = some ch → K.request ref ch)
    (hw : ∀ w, s'.writing = some w → K.write w.1 w.2) : Acted K s' hs i h h e r where
  entitled p h' := by rw [ht] at h'; cases h'
  held := hheld.symm
  owns := by
    rw [set_self hi]
    refine ⟨fun p => ?_, ?_, ?_, ?_, ?_, hk, hr, hw⟩
    · have := o.linear p
      rwa [places_count, hp, hsd, hin, hm, ← places_count]
    · rw [hp]
      exact o.heap
    · rw [hp, hsd]
      exact o.sending
    · rw [hp, hin]
      exact o.inbox
    · rw [hp, hm]
      exact o.misc

/-- An operation that changes nothing at all. -/
theorem Acted.looks (o : Owns K s hs) (hi : hs[i]? = some h) {e : Op} {r : e.Res}
    (ht : e.touches = none) (hheld : heldAfter e r h.keys = h.keys) : Acted K s hs i h h e r :=
  .still o hi ht hheld rfl rfl rfl rfl o.keys o.requests o.writing

/-- A packet object leaves the heap of goroutine `i`, and the state changes only in
where it goes. -/
theorem Owns.give (o : Owns K s hs) (hi : hs[i]? = some h) {p : Nat} (hp : p ∈ h.keys)
    (hmem : s'.pkts.mem = s.pkts.mem)
    (hplaces : ∀ q, s'.pkts.pool.count q + (s'.sending.toList.count q +
        ((s'.inbox.map Prod.snd).count q + s'.misc.count q)) ≤
      s.pkts.pool.count q + (s.sending.toList.count q + ((s.inbox.map Prod.snd).count q +
        s.misc.count q)) + if q = p then 1 else 0)
    (hsd : ∀ q, s'.sending = some q → ∃ c, s.pkts.mem[q]? = some c ∧ K.send c)
    (hin : ∀ e ∈ s'.inbox, ∃ c, s.pkts.mem[e.2]? = some c ∧ K.deliver e.1 c)
    (hm : ∀ q ∈ s'.misc, ∃ c, s.pkts.mem[q]? = some c ∧ K.misc c)
    (hk : s'.keys = s.keys) (hr : s'.requests = s.requests) (hw : s'.writing = s.writing) :
    Owns K s' (hs.set i (h.erase p)) := by
  refine ⟨fun q => ?_, fun g hg q c hc => ?_, ?_, ?_, ?_, ?_, ?_, ?_⟩
  · have hlin := o.linear q
    have hset := count_keys_set hi (h.erase p) q
    have hq := hplaces q
    rw [places_count] at hlin ⊢
    rw [Heap.keys_erase, count_filter_ne] at hset
    by_cases hqp : q = p
    · have hone := (o.exclusive hi hp).2.2.2.2.1
      subst hqp
      simp only [if_true] at hset hq
      omega
    · simp only [if_neg hqp] at hset hq
      omega
  · rw [hmem]
    rcases mem_set_cases hg with rfl | ⟨j, _, hj⟩
    · exact o.heap h (List.mem_of_getElem? hi) q c (Heap.mem_erase hc)
    · exact o.heap g (List.mem_of_getElem? hj) q c hc
  · rw [hmem]
    exact hsd
  · rw [hmem]
    exact hin
  · rw [hmem]
    exact hm
  · rw [hk]
    exact o.keys
  · rw [hr]
    exact o.requests
  · rw [hw]
    exact o.writing

theorem Owns.act_poolPut (o : Owns K s hs) (hi : hs[i]? = some h) {p : Nat} (hp : p ∈ h.keys) :
    Acted K { s with pkts := s.pkts.put p } hs i h (h.erase p) (.poolPut p) () where
  entitled q hq := Option.some.inj hq ▸ hp
  held := Heap.keys_erase h p
  owns := by
    refine o.give hi hp (PktPool.put_mem _ _) (fun q => ?_) o.sending o.inbox o.misc rfl rfl rfl
    have : (s.pkts.put p).pool.count q ≤ s.pkts.pool.count q + if q = p then 1 else 0 := by
      unfold PktPool.put
      split
      · exact le_of_eq (count_cons_ite _ _ _)
      · omega
    simp only
    omega

theorem Owns.act_send (o : Owns K s hs) (hi : hs[i]? = some h) {p : Nat} {d : JSONPkt}
    (hp : (p, d) ∈ h) (hd : K.send d) (hfree : s.sending = none) :
    Acted K { s with sending := some p } hs i h (h.erase p) (.sendStream p) () where
  entitled q hq := Option.some.inj hq ▸ Heap.mem_keys hp
  held := Heap.keys_erase h p
  owns := by
    refine o.give hi (Heap.mem_keys hp) rfl (fun q => ?_) ?_ o.inbox o.misc rfl rfl rfl
    · simp only [hfree, Option.toList_some, Option.toList_none, List.count_nil, count_cons_ite]
      omega
    · rintro q hq
      cases hq
      exact ⟨d, o.heap h (List.mem_of_getElem? hi) p d hp, hd⟩

theorem Owns.act_deliver (o : Owns K s hs) (hi : hs[i]? = some h) {ch p : Nat} {d : JSONPkt}
    (hp : (p, d) ∈ h) (hd : K.deliver ch d) :
    Acted K { s with inbox := s.inbox ++ [(ch, p)] } hs i h (h.erase p) (.deliver ch p) () where
  entitled q hq := Option.some.inj hq ▸ Heap.mem_keys hp
  held := Heap.keys_erase h p
  owns := by
    refine o.give hi (Heap.mem_keys hp) rfl (fun q => ?_) o.sending ?_ o.misc rfl rfl rfl
    · simp only [List.map_append, List.map_cons, List.map_nil, List.count_append, count_cons_ite,
        List.count_nil]
      omega
    · intro e he
      rcases List.mem_append.mp he with he | he
      · exact o.inbox e he
      · rw [List.mem_singleton.mp he]
        exact ⟨d, o.heap h (List.mem_of_getElem? hi) p d hp, hd⟩

theorem Owns.act_misc (o : Owns K s hs) (hi : hs[i]? = some h) {p : Nat} {d : JSONPkt}
    (hp : (p, d) ∈ h) (hd : K.misc d) :
    Acted K { s with misc := s.misc ++ [p] } hs i h (h.erase p) (.misc p) () where
  entitled q hq := Option.some.inj hq ▸ Heap.mem_keys hp
  held := Heap.keys_erase h p
  owns := by
    refine o.give hi (Heap.mem_keys hp) rfl (fun q => ?_) o.sending o.inbox ?_ rfl rfl rfl
    · simp only [List.count_append, count_cons_ite, List.count_nil]
      omega
    · intro q hq
      rcases List.mem_append.mp hq with hq | hq
      · exact o.misc q hq
      · rw [List.mem_singleton.mp hq]
        exact ⟨d, o.heap h (List.mem_of_getElem? hi) p d hp, hd⟩

/-- A packet object enters the heap of goroutine `i`, from somewhere. -/
theorem Owns.take (o : Owns K s hs) (hi : hs[i]? = some h) {p : Nat} {d : JSONPkt}
    (hd : s'.pkts.mem[p]? = some d)
    (hmem : ∀ (q : Nat) (c : JSONPkt), s.pkts.mem[q]? = some c → s'.pkts.mem[q]? = some c)
    (hplaces : ∀ q, s'.pkts.pool.count q + (s'.sending.toList.count q +
      ((s'.inbox.map Prod.snd).count q + (s'.misc.count q +
        (hs.map Heap.keys).flatten.count q))) + (if q = p then 1 else 0) ≤ 1)
    (hsd : s'.sending = s.sending) (hin : ∀ e ∈ s'.inbox, e ∈ s.inbox) (hm : ∀ q ∈ s'.misc, q ∈ s.misc)
    (hk : s'.keys = s.keys) (hr : s'.requests = s.requests) (hw : s'.writing = s.writing) :
    Owns K s' (hs.set i ((p, d) :: h)) := by
  refine ⟨fun q => ?_, fun g hg q c hc => ?_, fun q hq => ?_, fun e he => ?_, fun q hq => ?_, ?_, ?_, ?_⟩
  · have hset := count_keys_set hi ((p, d) :: h) q
    have hq := hplaces q
    rw [show Heap.keys ((p, d) :: h) = p :: h.keys from rfl, count_cons_ite] at hset
    rw [places_count]
    omega
  · rcases mem_set_cases hg with rfl | ⟨j, _, hj⟩
    · rcases List.mem_cons.mp hc with hc | hc
      · cases hc
        exact hd
      · exact hmem q c (o.heap h (List.mem_of_getElem? hi) q c hc)
    · exact hmem q c (o.heap g (List.mem_of_getElem? hj) q c hc)
  · rw [hsd] at hq
    obtain ⟨c, hc, hs'⟩ := o.sending q hq
    exact ⟨c, hmem q c hc, hs'⟩
  · obtain ⟨c, hc, hd'⟩ := o.inbox e (hin e he)
    exact ⟨c, hmem _ c hc, hd'⟩
  · obtain ⟨c, hc, hd'⟩ := o.misc q (hm q hq)
    exact ⟨c, hmem q c hc, hd'⟩
  · rw [hk]
    exact o.keys
  · rw [hr]
    exact o.requests
  · rw [hw]
    exact o.writing

/-- A packet object in no heap and not in the bookkeeping of the state. -/
theorem Owns.not_held (o : Owns K s hs) (hi : hs[i]? = some h) {p : Nat}
    (hp : p ∈ s.pkts.pool ∨ p ∈ s.inbox.map Prod.snd ∨ p ∈ s.misc ∨ p = s.pkts.mem.length) :
    p ∉ h.keys := by
  intro hk
  obtain ⟨hpool, -, hinbox, hmisc, -⟩ := o.exclusive hi hk
  rcases hp with hp | hp | hp | rfl
  · exact hpool hp
  · exact hinbox hp
  · exact hmisc hp
  · obtain ⟨⟨q, c⟩, he, hq⟩ := List.mem_map.mp hk
    have := o.heap h (List.mem_of_getElem? hi) q c he
    simp only at hq
    rw [hq] at this
    simp at this

theorem Owns.act_poolGet (o : Owns K s hs) (hi : hs[i]? = some h) (n : Nat) :
    ∃ d, s.pkts.pick n = some d ∧ (s.pkts.get n).1 ∉ h.keys ∧
      Acted K { s with pkts := (s.pkts.get n).2 } hs i h (((s.pkts.get n).1, d) :: h) .poolGet
        (s.pkts.get n).1 := by
  cases hn : s.pkts.pool[n]? with
  | some p =>
    have hpool : p ∈ s.pkts.pool := List.mem_of_getElem? hn
    obtain ⟨d, hd⟩ : ∃ d, s.pkts.mem[p]? = some d :=
      ⟨_, List.getElem?_eq_getElem (s.pkts.pool_lt p hpool)⟩
    rw [PktPool.pick, PktPool.get_some hn]
    refine ⟨d, hd, o.not_held hi (.inl hpool), ⟨(fun _ hq => nomatch hq), rfl, ?_⟩⟩
    refine o.take hi hd (fun q c hc => hc) (fun q => ?_) rfl (fun e he => he) (fun q hq => hq) rfl rfl rfl
    have hlin := o.linear q
    have her := count_eraseIdx hn q
    rw [places_count] at hlin
    simp only
    omega
  | none =>
    have hd : (s.pkts.mem ++ [JSONPkt.new])[s.pkts.mem.length]? = some JSONPkt.new := by simp
    rw [PktPool.pick, PktPool.get_none hn]
    refine ⟨_, hd, o.not_held hi (.inr (.inr (.inr rfl))), ⟨(fun _ hq => nomatch hq), rfl, ?_⟩⟩
    refine o.take hi hd (fun q c hc => ?_) (fun q => ?_) rfl (fun e he => he) (fun q hq => hq) rfl rfl rfl
    · exact List.getElem?_append_left (List.getElem?_eq_some_iff.mp hc).1 ▸ hc
    · have hlin := o.linear q
      have hnew : q = s.pkts.mem.length → (places s hs).count q = 0 := fun hq =>
        List.count_eq_zero.mpr fun hm => absurd (o.lt_length hm) (by omega)
      rw [places_count] at hlin hnew
      change s.pkts.pool.count q + (s.sending.toList.count q + ((s.inbox.map Prod.snd).count q +
        (s.misc.count q + (hs.map Heap.keys).flatten.count q))) +
          (if q = s.pkts.mem.length then 1 else 0) ≤ 1
      split
      · next hq =>
        have := hnew hq
        omega
      · omega

theorem Owns.act_receive (o : Owns K s hs) (hi : hs[i]? = some h) {ch : Nat} {e : Nat × Nat}
    (he : (s.inbox.find? fun e => e.1 = ch) = some e) :
    ∃ d, e.2 ∉ h.keys ∧ K.deliver ch d ∧
      Acted K { s with inbox := s.inbox.eraseP fun e => e.1 = ch } hs i h ((e.2, d) :: h)
        (.receive ch) e.2 := by
  have hmem : e ∈ s.inbox := List.mem_of_find?_eq_some he
  have hch : e.1 = ch := by simpa using List.find?_some he
  obtain ⟨d, hd, hk⟩ := o.inbox e hmem
  refine ⟨d, o.not_held hi (.inr (.inl (List.mem_map_of_mem hmem))), hch ▸ hk,
    ⟨(fun _ hq => nomatch hq), rfl, ?_⟩⟩
  refine o.take hi hd (fun q c hc => hc) (fun q => ?_) rfl (fun e he => List.mem_of_mem_eraseP he)
    (fun q hq => hq) rfl rfl rfl
  have hlin := o.linear q
  obtain ⟨l₁, l₂, -, hin, hera⟩ : ∃ l₁ l₂, (∀ b ∈ l₁, ¬ b.1 = ch) ∧ s.inbox = l₁ ++ e :: l₂ ∧
      s.inbox.eraseP (fun e => decide (e.1 = ch)) = l₁ ++ l₂ := by
    obtain ⟨hpe, as, bs, hab, has⟩ := List.find?_eq_some_iff_append.mp he
    refine ⟨as, bs, fun b hb => by simpa using has b hb, hab, ?_⟩
    rw [hab, List.eraseP_append_right _ (fun b hb => by simpa using has b hb),
      List.eraseP_cons, hpe, cond_true]
  rw [places_count, hin] at hlin
  simp only [hera, List.map_append, List.map_cons, List.count_append, count_cons_ite] at hlin ⊢
  omega

theorem Owns.act_receiveMisc (o : Owns K s hs) (hi : hs[i]? = some h) {p : Nat} {rest : List Nat}
    (hm : s.misc = p :: rest) :
    ∃ d, p ∉ h.keys ∧ K.misc d ∧
      Acted K { s with misc := rest } hs i h ((p, d) :: h) .receiveMisc p := by
  have hmem : p ∈ s.misc := hm ▸ List.mem_cons_self
  obtain ⟨d, hd, hk⟩ := o.misc p hmem
  refine ⟨d, o.not_held hi (.inr (.inr (.inl hmem))), hk, ⟨(fun _ hq => nomatch hq), rfl, ?_⟩⟩
  refine o.take hi hd (fun q c hc => hc) (fun q => ?_) rfl (fun e he => he)
    (fun q hq => hm ▸ List.mem_cons_of_mem p hq) rfl rfl rfl
  have hlin := o.linear q
  rw [places_count, hm, count_cons_ite] at hlin
  simp only
  omega

theorem Owns.act_call (o : Owns K s hs) (hi : hs[i]? = some h) {p : Nat} {d q : JSONPkt} {op : PktOp}
    (hp : (p, d) ∈ h) (r : Op.Res (.call p op)) :
    Acted K { s with pkts := s.pkts.setPkt p q } hs i h (h.set p q) (.call p op) r where
  entitled x hx := Option.some.inj hx ▸ Heap.mem_keys hp
  held := Heap.keys_set h p q
  owns := by
    have hpm := o.heap h (List.mem_of_getElem? hi) p d hp
    have hlt := (List.getElem?_eq_some_iff.mp hpm).1
    obtain ⟨-, hsd, hin, hm, -, hother⟩ := o.exclusive hi (Heap.mem_keys hp)
    -- every other reference is to another packet object, which the call does not change
    have hframe : ∀ (x : Nat) (c : JSONPkt), x ≠ p → s.pkts.mem[x]? = some c →
        (s.pkts.setPkt p q).mem[x]? = some c := fun x c hx hc => by
      rw [PktPool.setPkt, List.getElem?_set_ne (Ne.symm hx)]
      exact hc
    refine ⟨fun x => ?_, fun g hg x c hc => ?_, fun x hx => ?_, fun e he => ?_, fun x hx => ?_,
      o.keys, o.requests, o.writing⟩
    · have hlin := o.linear x
      have hset := count_keys_set hi (h.set p q) x
      rw [Heap.keys_set] at hset
      rw [places_count] at hlin ⊢
      simp only [PktPool.setPkt]
      omega
    · rcases mem_set_cases hg with rfl | ⟨j, hj, hg'⟩
      · rcases Heap.mem_set hc with ⟨rfl, rfl, -⟩ | ⟨hx, hc⟩
        · exact List.getElem?_set_self hlt
        · exact hframe x c hx (o.heap h (List.mem_of_getElem? hi) x c hc)
      · refine hframe x c ?_ (o.heap g (List.mem_of_getElem? hg') x c hc)
        rintro rfl
        exact hother j g hj hg' (Heap.mem_keys (e := (_, c)) hc)
    · obtain ⟨c, hc, hk⟩ := o.sending x hx
      refine ⟨c, hframe x c ?_ hc, hk⟩
      rintro rfl
      exact hsd (by simpa using hx)
    · obtain ⟨c, hc, hk⟩ := o.inbox e he
      refine ⟨c, hframe _ c ?_ hc, hk⟩
      intro hx
      exact hin (hx ▸ List.mem_map_of_mem he)
    · obtain ⟨c, hc, hk⟩ := o.misc x hx
      refine ⟨c, hframe x c ?_ hc, hk⟩
      rintro rfl
      exact hm hx

/-- One operation: what its rule promises, and the invariant afterwards. -/
theorem Owns.act (o : Owns K s hs) (hi : hs[i]? = some h) {e : Op} {Φ : e.Res → Heap → Prop}
    (hΦ : ownRules K e h Φ)
    (hget : e = .poolGet → ∀ d, s.pkts.pick c.pick = some d → K.get d) {r : e.Res}
    (hh : s.handle c e = .ok (r, s')) : ∃ h', Φ r h' ∧ Acted K s' hs i h h' e r := by
  cases e with
  | poolGet =>
    cases hh
    obtain ⟨d, hd, hn, ha⟩ := o.act_poolGet hi c.pick
    exact ⟨_, hΦ _ d hn (hget rfl d hd), ha⟩
  | poolPut p =>
    cases hh
    exact ⟨_, hΦ.2, o.act_poolPut hi hΦ.1⟩
  | call p op =>
    obtain ⟨d, hd, hΦ⟩ := hΦ
    obtain ⟨pkt, q, hp, hq, rfl, rfl⟩ := Endpoint.handle_call_ok hh
    obtain rfl : d = pkt :=
      Option.some.inj ((o.heap h (List.mem_of_getElem? hi) p d hd).symm.trans hp)
    exact ⟨_, hΦ q hq, o.act_call hi hd _⟩
  | read p q =>
    obtain ⟨d, hd, hΦ⟩ := hΦ
    obtain ⟨rfl, pkt, hp, rfl⟩ := Endpoint.handle_read_ok hh
    obtain rfl : d = pkt :=
      Option.some.inj ((o.heap h (List.mem_of_getElem? hi) p d hd).symm.trans hp)
    refine ⟨h, hΦ, ⟨fun x hx => Option.some.inj hx ▸ Heap.mem_keys hd, rfl, ?_⟩⟩
    rw [set_self hi]
    exact o
  | sendStream p =>
    obtain ⟨d, hd, hk, hΦ⟩ := hΦ
    obtain ⟨hfree, rfl⟩ := Endpoint.handle_send_ok hh
    exact ⟨_, hΦ, o.act_send hi hd hk hfree⟩
  | deliver ch p =>
    obtain ⟨d, hd, hk, hΦ⟩ := hΦ
    cases hh
    exact ⟨_, hΦ, o.act_deliver hi hd hk⟩
  | misc p =>
    obtain ⟨d, hd, hk, hΦ⟩ := hΦ
    cases hh
    exact ⟨_, hΦ, o.act_misc hi hd hk⟩
  | receive ch =>
    simp only [Endpoint.handle] at hh
    split at hh
    · cases hh
    · next e he =>
      cases hh
      obtain ⟨d, hn, hk, ha⟩ := o.act_receive hi he
      exact ⟨_, hΦ _ d hn hk, ha⟩
  | receiveMisc =>
    simp only [Endpoint.handle] at hh
    split at hh
    · cases hh
    · next p rest hm =>
      cases hh
      obtain ⟨d, hn, hk, ha⟩ := o.act_receiveMisc hi hm
      exact ⟨_, hΦ _ d hn hk, ha⟩
  | setKeyStore a k =>
    cases hh
    refine ⟨h, hΦ.2, Acted.still o hi rfl rfl rfl rfl rfl rfl (fun b r hr => ?_) o.requests o.writing⟩
    rw [KeyTable.getKeyStore_setKeyStore] at hr
    split at hr
    · next hb =>
      cases hr
      exact hb ▸ hΦ.1
    · exact o.keys b r hr
  | setKeySent ks b =>
    cases hh
    refine ⟨h, hΦ, Acted.still o hi rfl rfl rfl rfl rfl rfl (fun a r hr => ?_) o.requests o.writing⟩
    rw [KeyTable.getKeyStore_setKeySent] at hr
    exact o.keys a r hr
  | register ref ch =>
    cases hh
    refine ⟨h, hΦ.2, Acted.still o hi rfl rfl rfl rfl rfl rfl o.keys (fun a b hr => ?_) o.writing⟩
    simp only [GoMap.get?_set] at hr
    split at hr
    · next ha =>
      cases hr
      exact ha ▸ hΦ.1
    · exact o.requests a b hr
  | unregister ref =>
    cases hh
    refine ⟨h, hΦ, Acted.still o hi rfl rfl rfl rfl rfl rfl o.keys (fun a b hr => ?_) o.writing⟩
    simp only [GoMap.get?_delete] at hr
    split at hr
    · cases hr
    · exact o.requests a b hr
  | writeStream data ch =>
    simp only [Endpoint.handle] at hh
    split at hh
    · cases hh
    · cases hh
      refine ⟨h, hΦ.2, Acted.still o hi rfl rfl rfl rfl rfl rfl o.keys o.requests fun w hw => ?_⟩
      cases hw
      exact hΦ.1
  | getKeyStore a =>
    cases hh
    exact ⟨h, hΦ _ fun k hk => o.keys a k hk, Acted.looks o hi rfl rfl⟩
  | lookup ref =>
    cases hh
    exact ⟨h, hΦ _ fun ch hch => o.requests ref ch hch, Acted.looks o hi rfl rfl⟩
  | readNonce =>
    cases hh
    refine ⟨h, hΦ _ fun n hn => ?_, Acted.looks o hi rfl rfl⟩
    simpa using (Option.filter_eq_some_iff.mp hn).2
  | writeDone =>
    cases hh
    exact ⟨h, hΦ, Acted.still o hi rfl rfl rfl rfl rfl rfl o.keys o.requests o.writing⟩
  | dist data addr =>
    cases hh
    exact ⟨h, hΦ.2, Acted.looks o hi rfl rfl⟩
  | getKeySent ks =>
    cases hh
    exact ⟨h, hΦ _, Acted.looks o hi rfl rfl⟩
  | oracle =>
    cases hh
    exact ⟨h, hΦ _, Acted.looks o hi rfl rfl⟩
  | genRef =>
    simp only [Endpoint.handle] at hh
    split at hh
    · cases hh
    · split at hh
      · next href =>
        cases hh
        exact ⟨h, hΦ _ href, Acted.looks o hi rfl rfl⟩
      · cases hh
  | panic => exact r.elim

end Act

/-! ## 6. The environment's steps -/

section Env

variable {K : Knowledge} {s : Endpoint} {hs : List Heap}

theorem Owns.init (K : Knowledge) : Owns K Endpoint.init [] where
  linear p := by simp [places, Endpoint.init, PktPool.empty]
  heap h hh := nomatch hh
  sending p hp := by simp [Endpoint.init] at hp
  inbox e he := by simp [Endpoint.init] at he
  misc p hp := by simp [Endpoint.init] at hp
  keys a r hr := by simp [Endpoint.init, KeyTable.empty, KeyTable.getKeyStore] at hr
  requests ref ch h := by simp [Endpoint.init] at h
  writing w hw := by simp [Endpoint.init] at hw

theorem flatten_keys_snoc (hs : List Heap) (h : Heap) :
    ((hs ++ [h]).map Heap.keys).flatten = (hs.map Heap.keys).flatten ++ h.keys := by
  simp

/-- A goroutine starts that owns nothing. -/
theorem Owns.spawn (o : Owns K s hs) : Owns K s (hs ++ [[]]) where
  linear p := by
    rw [places_count, flatten_keys_snoc, show Heap.keys [] = [] from rfl, List.append_nil,
      ← places_count]
    exact o.linear p
  heap h hh p c hc := by
    rcases List.mem_append.mp hh with hh | hh
    · exact o.heap h hh p c hc
    · rw [List.mem_singleton.mp hh] at hc
      cases hc
  sending := o.sending
  inbox := o.inbox
  misc := o.misc
  keys := o.keys
  requests := o.requests
  writing := o.writing

/-- `sendPkts` starts a goroutine that owns the packet it has received. -/
theorem Owns.spawnSend (o : Owns K s hs) {p : Nat} (hp : s.sending = some p) :
    ∃ c, s.pkts.mem[p]? = some c ∧ K.send c ∧
      Owns K { s with sending := none } (hs ++ [[(p, c)]]) := by
  obtain ⟨c, hc, hk⟩ := o.sending p hp
  refine ⟨c, hc, hk, ⟨fun q => ?_, fun h hh q d hd => ?_, fun q hq => (nomatch hq), o.inbox, o.misc,
    o.keys, o.requests, o.writing⟩⟩
  · have hlin := o.linear q
    rw [places_count, hp] at hlin
    rw [places_count, flatten_keys_snoc, List.count_append]
    simp only [Option.toList_some, Option.toList_none, List.count_nil, Heap.keys, List.map_cons,
      List.map_nil] at hlin ⊢
    omega
  · rcases List.mem_append.mp hh with hh | hh
    · exact o.heap h hh q d hd
    · rw [List.mem_singleton.mp hh, List.mem_singleton] at hd
      cases hd
      exact hc

/-- The write routine has taken what it was to write. -/
theorem Owns.written (o : Owns K s hs) (b : Bool) :
    Owns K { s with writing := none, failing := b } hs :=
  ⟨o.linear, o.heap, o.sending, o.inbox, o.misc, o.keys, o.requests, fun _ hw => nomatch hw⟩

/-- The runtime drops a pooled packet. -/
theorem Owns.drop (o : Owns K s hs) (n : Nat) : Owns K { s with pkts := s.pkts.drop n } hs where
  linear p := by
    have hlin := o.linear p
    have hle : (s.pkts.pool.eraseIdx n).count p ≤ s.pkts.pool.count p :=
      (List.eraseIdx_sublist _ _).count_le p
    rw [places_count] at hlin ⊢
    simp only [PktPool.drop]
    omega
  heap := o.heap
  sending := o.sending
  inbox := o.inbox
  misc := o.misc
  keys := o.keys
  requests := o.requests
  writing := o.writing

end Env

end Concord
