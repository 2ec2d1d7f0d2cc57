import Concord.KeyExchangeLogic

/-!
# Key agreement

`keys_agree`: in every reachable state of the network, a client and the server that hold
entries for each other hold the same secret, and so do two clients. `Tied` is the
invariant: both kinds of endpoints are within their proof systems, and every datagram
that was ever sent is one its receiver may be handed.

The refs of a client's exchanges have to be distinct as JSON writes them. A ref that is
not valid UTF-8 comes back as another one, and `torn_ref_disagrees` is a run where that
one belongs to another exchange of the client.
-/

namespace Concord

open Go

namespace Parties

variable {ι : Type} {P : Parties ι} {owner : ι → GoString → Exchange}

/-! ## 1. The proof systems of the endpoints -/

/-- A datagram the server may be handed. -/
def Requested (P : Parties ι) (owner : ι → GoString → Exchange) (sender : Addr) (data : Bytes) :
    Prop :=
  ∃ i, sender = P.addr i ∧ P.Reads data (P.Request owner i)

/-- A datagram client `i` may be handed. -/
def Responded (P : Parties ι) (owner : ι → GoString → Exchange) (i : ι) (data : Bytes) : Prop :=
  P.Reads data fun v => ∃ body, P.Response owner i v body

theorem cleanStep_get {ε : Type} {s : Sys Op Op.Res Endpoint ε} {j : Nat} {c : Choice} {e : Op}
    {k : e.Res → Routine Unit} (ht : s.threads[j]? = some (.op e k))
    (ha : cleanStep s (.act j c) = true) :
    e = .poolGet → ∀ d, s.state.pkts.pick c.pick = some d → d.clean = true := by
  rintro rfl d hd
  simpa only [cleanStep, ht, hd, Option.all_some] using ha

/-- The proof system of the server. -/
def serverLogic (P : Parties ι) (owner : ι → GoString → Exchange) :
    Logic P.server.machine Heap where
  rules := P.serverRules owner
  mono := guarded_mono _ _
  inv s _ hs := Owns (P.serverKnows owner) s hs
  final _ := True
  allowed s ev := cleanStep s ev = true ∧
    ∀ data sender, ev = .env (.datagram data sender) → P.Requested owner sender data
  mayCrash := True
  act := by
    intro s j c e k hs h Φ ht ha o hj hΦ
    split
    · next r st hh =>
      obtain ⟨h', hΦ', hacted⟩ := o.act hj hΦ (cleanStep_get ht ha.1) hh
      exact ⟨h', hΦ' trivial, hacted.owns⟩
    · trivial
    · trivial
  env := by
    intro s a hs st _ o he
    obtain ⟨n, rfl, rfl⟩ := UDPServer.env_quiet he
    exact o.drop n
  spawn := by
    intro s a hs st t ha _ o he
    rcases UDPServer.env_spawn he with ⟨data, sender, rfl, rfl, rfl⟩ | ⟨p, rfl, hp, rfl, rfl⟩
    · obtain ⟨i, rfl, hreads⟩ := ha.2 data sender rfl
      exact ⟨[], processIncoming_guarded hreads, o.spawn⟩
    · obtain ⟨c, -, ⟨i, v, body, hc, hdest, hv⟩, o'⟩ := o.spawnSend hp
      exact ⟨[(p, c)], processOutgoing_guarded ⟨c, List.mem_singleton_self _, hc⟩ hdest hv, o'⟩

theorem refStep_fits {ε : Type} {s : Sys Op Op.Res Endpoint ε} {i : ι} {j : Nat} {c : Choice}
    {e : Op} {k : e.Res → Routine Unit} {h : Heap} (ht : s.threads[j]? = some (.op e k))
    (ha : refStep (P.crypto i) (fun ref => owner i (Utf8.toValid ref)) s (.act j c) = true)
    (hh : ∀ p c, (p, c) ∈ h → s.state.pkts.mem[p]? = some c) : P.RefFits owner i e h := by
  unfold RefFits
  split
  · next p key ref =>
    rintro rfl c hc htarget
    simpa [refStep, ht, hh p c hc, htarget] using ha
  · trivial

/-- The proof system of client `i`. -/
def clientLogic (P : Parties ι) {owner : ι → GoString → Exchange}
    (hrefs : P.RefsOwned Utf8.toValid owner) (i : ι) :
    Logic ((P.client i).machine (P.kex i)) Heap where
  rules := P.clientRules owner i
  mono := guarded_mono _ _
  inv s _ hs := Owns (P.clientKnows owner i) s hs
  final _ := True
  allowed s ev := cleanStep s ev = true ∧
    refStep (P.crypto i) (fun ref => owner i (Utf8.toValid ref)) s ev = true ∧
    ∀ data, ev = .env (.datagram data) → P.Responded owner i data
  mayCrash := True
  act := by
    intro s j c e k hs h Φ ht ha o hj hΦ
    split
    · next r st hh =>
      obtain ⟨h', hΦ', hacted⟩ := o.act hj hΦ (cleanStep_get ht ha.1) hh
      refine ⟨h', hΦ' (refStep_fits ht ha.2.1 ?_), hacted.owns⟩
      exact o.heap h (List.mem_of_getElem? hj)
    · trivial
    · trivial
  env := by
    intro s a hs st _ o he
    rcases UDPClient.env_quiet he with rfl | ⟨n, rfl, rfl⟩
    · exact o.written _
    · exact o.drop n
  spawn := by
    intro s a hs st t ha _ o he
    rcases UDPClient.env_spawn he with ⟨k, rfl, rfl, rfl⟩ | ⟨data, rfl, rfl, rfl⟩ |
      ⟨err, w, ch, rfl, -, -, rfl, rfl⟩
    · exact ⟨[], kex_guarded (hrefs i k), o.spawn⟩
    · exact ⟨[], clientIncoming_guarded (ha.2.2 data rfl), o.spawn⟩
    · exact ⟨[], writeError_guarded, (o.written true).spawn⟩

/-! ## 2. The network -/

/-- Both kinds of endpoints are within their proof systems, and every datagram that was
ever sent is one its receiver may be handed. -/
structure Tied (P : Parties ι) {owner : ι → GoString → Exchange}
    (hrefs : P.RefsOwned Utf8.toValid owner) (n : Net ι) : Prop where
  server : (P.serverLogic owner).Holds n.server
  client : ∀ i, (P.clientLogic hrefs i).Holds (n.client i)
  requested : ∀ src data, ⟨src, P.svrAddr, data⟩ ∈ n.wire → P.Requested owner src data
  responded : ∀ src i data, ⟨src, P.addr i, data⟩ ∈ n.wire → P.Responded owner i data

section Net

variable {hrefs : P.RefsOwned Utf8.toValid owner} {n : Net ι}

theorem tied_start : P.Tied hrefs Net.start where
  server := ⟨[], rfl, Owns.init _, fun _ _ _ ht => by simp [Net.start, UDPServer.start] at ht⟩
  client _ := ⟨[], rfl, Owns.init _, fun _ _ _ ht => by simp [Net.start, UDPClient.start] at ht⟩
  requested _ _ h := by simp [Net.start] at h
  responded _ _ _ h := by simp [Net.start] at h

/-- What the server is about to hand to its writer. -/
theorem Tied.dist (hideal : P.aead.Ideal) (h : P.Tied hrefs n) {j : Nat} {data : Bytes} {addr : Addr} {k}
    (ht : n.server.threads[j]? = some (.op (.dist data addr) k)) :
    ∃ i, addr = P.addr i ∧ P.Responded owner i data := by
  obtain ⟨hs, hlen, -, hwp⟩ := h.server
  obtain ⟨g, hg⟩ := Logic.exists_ghost hlen ht
  obtain ⟨⟨i, v, body, haddr, hv, hsent⟩, -⟩ := hwp j _ g ht hg
  exact ⟨i, haddr, reads_of_sent hideal ⟨body, hv⟩ hsent⟩

/-- What the write routine of a client is writing. -/
theorem Tied.write (hideal : P.aead.Ideal) (h : P.Tied hrefs n) {i : ι} {w : Bytes × Option Nat}
    (hw : (n.client i).state.writing = some w) : P.Requested owner (P.addr i) w.1 := by
  obtain ⟨hs, -, o, -⟩ := h.client i
  obtain ⟨v, hv, hsent⟩ := o.writing w hw
  exact ⟨i, rfl, reads_of_sent hideal hv hsent⟩

/-- What a step sends is what its receiver may be handed. -/
theorem Tied.sends (hideal : P.aead.Ideal) (h : P.Tied hrefs n) {ev : NetEvent ι} {d : Datagram}
    (hd : d ∈ P.sends n ev) :
    (∃ i, d.dst = P.addr i ∧ P.Responded owner i d.data) ∨
      d.dst = P.svrAddr ∧ P.Requested owner d.src d.data := by
  unfold Parties.sends at hd
  split at hd
  · split at hd
    · next ht =>
      rw [List.mem_singleton.mp hd]
      exact .inl (h.dist hideal ht)
    · cases hd
  · split at hd
    · next hw =>
      rw [List.mem_singleton.mp hd]
      exact .inr ⟨rfl, h.write hideal hw⟩
    · cases hd
  · cases hd

theorem Tied.wire (hideal : P.aead.Ideal) (h : P.Tied hrefs n) (ev : NetEvent ι) :
    (∀ src data, ⟨src, P.svrAddr, data⟩ ∈ n.wire ++ P.sends n ev → P.Requested owner src data) ∧
    ∀ src i data, ⟨src, P.addr i, data⟩ ∈ n.wire ++ P.sends n ev → P.Responded owner i data := by
  constructor
  · intro src data hd
    rcases List.mem_append.mp hd with hd | hd
    · exact h.requested src data hd
    · rcases h.sends hideal hd with ⟨i, hi, -⟩ | ⟨-, hr⟩
      · exact absurd hi.symm (P.addr_ne_svr i)
      · exact hr
  · intro src i data hd
    rcases List.mem_append.mp hd with hd | hd
    · exact h.responded src i data hd
    · rcases h.sends hideal hd with ⟨i', hi, hr⟩ | ⟨hi, -⟩
      · exact P.addr_inj hi ▸ hr
      · exact absurd hi (P.addr_ne_svr i)

theorem Tied.server_key (h : P.Tied hrefs n) {i : ι} {k : KeyRef}
    (hk : n.server.state.keys.getKeyStore (P.addr i) = some k) :
    k.shared = P.svrSecret (P.curve.pub (P.privKey i)) := by
  obtain ⟨hs, -, o, -⟩ := h.server
  obtain ⟨j, hj, -, hshared⟩ := o.keys _ _ hk
  rw [P.addr_inj hj]
  exact hshared

theorem Tied.client_key (h : P.Tied hrefs n) {i : ι} {a : GoString} {k : KeyRef}
    (hk : (n.client i).state.keys.getKeyStore a = some k) :
    (a = P.svrAddr → k.shared = P.secret i (P.curve.pub P.svrKey)) ∧
      ∀ j, a = P.addr j → k.shared = P.secret i (P.curve.pub (P.privKey j)) := by
  obtain ⟨hs, -, o, -⟩ := h.client i
  exact o.keys a k hk

variable [DecidableEq ι]

/-- One step of the network. -/
theorem Tied.step (hideal : P.aead.Ideal) (h : P.Tied hrefs n) {ev : NetEvent ι} {n' : Net ι}
    (ha : P.allowed Utf8.toValid owner n ev = true) (hs : P.step n ev = some n') :
    P.Tied hrefs n' := by
  unfold Parties.step at hs
  split at hs
  · next harr =>
    cases ev with
    | server e =>
      obtain ⟨s, hres, rfl⟩ := Option.map_eq_some_iff.mp hs
      refine ⟨(P.serverLogic owner).step_holds h.server ⟨ha, ?_⟩ (Outcome.eq_ok_of_result? hres),
        h.client, (h.wire hideal _).1, (h.wire hideal _).2⟩
      rintro data sender rfl
      exact h.requested sender data (by simpa [arrives] using harr)
    | client i e =>
      obtain ⟨s, hres, rfl⟩ := Option.map_eq_some_iff.mp hs
      simp only [allowed, Bool.and_eq_true] at ha
      have hstep : (P.clientLogic hrefs i).Holds s := by
        refine (P.clientLogic hrefs i).step_holds (h.client i) ⟨ha.1, ha.2, ?_⟩
          (Outcome.eq_ok_of_result? hres)
        rintro data rfl
        simp only [arrives, List.any_eq_true, Bool.and_eq_true, decide_eq_true_eq] at harr
        obtain ⟨⟨src, dst, data'⟩, hd, rfl, rfl⟩ := harr
        exact h.responded src i data' hd
      refine ⟨h.server, fun j => ?_, (h.wire hideal _).1, (h.wire hideal _).2⟩
      by_cases hj : j = i
      · subst hj
        simpa using hstep
      · simpa [Function.update_of_ne hj] using h.client j
  · cases hs

/-- Every reachable state. -/
theorem tied_of_reach (hideal : P.aead.Ideal) (hrefs : P.RefsOwned Utf8.toValid owner)
    (hn : Reach P Utf8.toValid owner n) : P.Tied hrefs n := by
  induction hn with
  | start => exact tied_start
  | step _ ha hs ih => exact ih.step hideal ha hs

/-- In every reachable state of a network whose clients use refs that are distinct as
JSON writes them: a client and the server that hold entries for each other hold the same
secret, and so do two clients. -/
theorem keys_agree (hideal : P.aead.Ideal) (hrefs : P.RefsOwned Utf8.toValid owner)
    (hn : Reach P Utf8.toValid owner n) :
    (∀ i a b, (n.client i).state.keys.getKeyStore P.svrAddr = some a →
      n.server.state.keys.getKeyStore (P.addr i) = some b → a.shared = b.shared) ∧
    ∀ i j a b, (n.client i).state.keys.getKeyStore (P.addr j) = some a →
      (n.client j).state.keys.getKeyStore (P.addr i) = some b → a.shared = b.shared := by
  have h := tied_of_reach hideal hrefs hn
  constructor
  · intro i a b ha hb
    rw [(h.client_key ha).1 rfl, h.server_key hb]
    exact P.curve.mul_comm _ _
  · intro i j a b ha hb
    rw [(h.client_key ha).2 j rfl, (h.client_key hb).2 i rfl]
    exact P.curve.mul_comm _ _

end Net

end Parties

/-! ## 3. Two runs -/

namespace KeyRuns

section Events

variable {ι : Type}

def zeros : Bytes := List.replicate 12 0

-- every packet is a new one: the choice is outside the pool; and every nonce is zero
def svrActs (tid n : Nat) : List (Net ι → NetEvent ι) :=
  List.replicate n fun _ => .server (.act tid ⟨100, some zeros⟩)

def cliActs (i : ι) (tid n : Nat) : List (Net ι → NetEvent ι) :=
  List.replicate n fun _ => .client i (.act tid ⟨100, some zeros⟩)

/-- What was sent last. -/
def last (n : Net ι) : Bytes := n.wire.getLast?.elim [] Datagram.data

/-- The `k`-th exchange of the client begins: its goroutine `tid` sends the request. -/
def asks (i : ι) (k tid acts : Nat) : List (Net ι → NetEvent ι) :=
  (fun _ => .client i (.env (.app k))) :: cliActs i tid acts ++ [fun _ => .client i (.env .wrote)]

/-- The server's goroutine `tid` is handed what the client has sent, and composes the response. -/
def serves (P : Parties ι) (i : ι) (tid acts : Nat) : List (Net ι → NetEvent ι) :=
  (fun n => .server (.env (.datagram (last n) (P.addr i)))) :: svrActs tid acts ++
    [fun _ => .server (.env .sendPkts)]

/-- The client's goroutine `tid` is handed what the server has sent. -/
def hears (i : ι) (tid acts : Nat) : List (Net ι → NetEvent ι) :=
  (fun n => .client i (.env (.datagram (last n)))) :: cliActs i tid acts

end Events

end KeyRuns

open KeyRuns

/-- One client, whose first exchange is with the server, and whose other exchanges are
with itself. -/
def solo (ref : Nat → GoString) : Parties Unit where
  aead := .transparent
  curve := .multiplicative
  jsonErr _ := []
  svr := UDPServer.new some
  svrKey := (3 : Nat)
  svrAddr := ascii "10.0.0.1:1"
  privKey _ := (5 : Nat)
  addr _ := ascii "10.0.0.2:1"
  exchange _ k := if k = 0 then .server else .client (ascii "10.0.0.2:1")
  ref _ := ref
  dest _ _ := ascii "10.0.0.1:1"
  addr_inj _ := rfl
  addr_ne_svr _ := by decide
  addr_plain _ := by decide
  svrAddr_plain := by decide
  resolve_addr _ := rfl
  data_in := rfl
  data_out := rfl
  no_kexServer := rfl
  no_kexClient := rfl

namespace Solo

/-- The first ref is the replacement character. -/
def tornRef (k : Nat) : GoString := if k = 0 then Utf8.runeError else List.replicate k 0xFF

def tornOwner (_ : Unit) (ref : GoString) : Exchange :=
  if ref = Utf8.runeError then .server else .client (ascii "10.0.0.2:1")

theorem tornRef_injective : Function.Injective tornRef := by
  intro k l h
  have hne : ∀ n, List.replicate n (0xFF : UInt8) ≠ Utf8.runeError := by
    intro n hn
    have hmem : (0xEF : UInt8) ∈ List.replicate n (0xFF : UInt8) := by
      rw [hn]
      decide
    exact absurd (List.eq_of_mem_replicate hmem) (by decide)
  unfold tornRef at h
  split at h <;> split at h
  · omega
  · exact absurd h.symm (hne l)
  · exact absurd h (hne k)
  · simpa using congrArg List.length h

/-- The response for the second exchange, with the client's own key, comes back under
the ref of the first one. -/
def tornRun : List (Net Unit → NetEvent Unit) :=
  asks () 0 0 16 ++ serves (solo tornRef) () 0 21 ++ asks () 1 1 16 ++ serves (solo tornRef) () 2 21 ++
    svrActs 3 4 ++ hears () 2 10 ++ cliActs () 0 3

end Solo

def pairSvrAddr : Addr := ascii "10.0.0.1:1"

def pairAddr (i : Bool) : Addr := if i then ascii "10.0.0.2:1" else ascii "10.0.0.3:1"

theorem pairAddr_inj {i j : Bool} (h : pairAddr i = pairAddr j) : i = j := by
  cases i <;> cases j
  · rfl
  · exact absurd h (by decide)
  · exact absurd h (by decide)
  · rfl

theorem pairAddr_ne_svr (i : Bool) : pairAddr i ≠ pairSvrAddr := by cases i <;> decide

theorem pairAddr_plain (i : Bool) : (pairAddr i).all isPlain = true := by cases i <;> decide

theorem pairSvrAddr_plain : pairSvrAddr.all isPlain = true := by decide

theorem pairAddr_resolves (i : Bool) :
    (UDPServer.new some).resolve (pairAddr i) = some (pairAddr i) := rfl

theorem pair_in : (UDPServer.new some).data pipelineIn = [] := rfl

theorem pair_out : (UDPServer.new some).data pipelineOut = [] := rfl

theorem pair_no_kexServer :
    (UDPServer.new some).queues Crypto.targetKeyExchangeServer = none := rfl

theorem pair_no_kexClient :
    (UDPServer.new some).queues Crypto.targetKeyExchangeClient = none := rfl

/-- A server and two clients. Each of them exchanges keys with the server first, and then with the
other one. -/
def pair : Parties Bool where
  aead := .transparent
  curve := .multiplicative
  jsonErr _ := []
  svr := UDPServer.new some
  svrKey := (3 : Nat)
  svrAddr := pairSvrAddr
  privKey i := if i then (5 : Nat) else (7 : Nat)
  addr := pairAddr
  exchange i k := if k = 0 then .server else .client (pairAddr !i)
  ref _ k := if k = 0 then ascii "r0" else ascii "r1"
  dest _ _ := ascii "10.0.0.1:1"
  addr_inj := pairAddr_inj
  addr_ne_svr := pairAddr_ne_svr
  addr_plain := pairAddr_plain
  svrAddr_plain := pairSvrAddr_plain
  resolve_addr := pairAddr_resolves
  data_in := pair_in
  data_out := pair_out
  no_kexServer := pair_no_kexServer
  no_kexClient := pair_no_kexClient

namespace Pair

def owner (i : Bool) (ref : GoString) : Exchange :=
  if ref = ascii "r0" then .server else .client (pairAddr !i)

theorem refsOwned : pair.RefsOwned Utf8.toValid owner := by
  intro i k _
  by_cases hk : k = 0
  · subst hk
    cases i <;> decide +kernel
  · have howner : owner i (Utf8.toValid (ascii "r1")) = .client (pairAddr !i) := by
      cases i <;> decide +kernel
    simp only [pair, if_neg hk, howner]

/-- The client's goroutine `cli` performs its `k`-th exchange, and the server's goroutine `svr`
serves it. -/
def exchanges (i : Bool) (k cli svr acts : Nat) : List (Net Bool → NetEvent Bool) :=
  asks i k cli acts ++ serves pair i svr 21 ++ svrActs (svr + 1) 5 ++ hears i (cli + 1) 11 ++
    cliActs i cli 3

/-- Both clients exchange keys with the server, and then, under these keys, with each other. -/
def meeting : List (Net Bool → NetEvent Bool) :=
  exchanges true 0 0 0 16 ++ exchanges false 0 0 2 16 ++ exchanges true 1 2 4 18 ++
    exchanges false 1 2 6 18

/-- Every entry is there. -/
def introduced (n : Net Bool) : Bool :=
  [true, false].all fun i =>
    ((n.client i).state.keys.getKeyStore pair.svrAddr).isSome &&
      ((n.client i).state.keys.getKeyStore (pair.addr !i)).isSome &&
      (n.server.state.keys.getKeyStore (pair.addr i)).isSome

theorem keys_of_introduced {n : Net Bool} (h : introduced n = true) (i : Bool) :
    (∃ a, (n.client i).state.keys.getKeyStore pair.svrAddr = some a) ∧
      (∃ a, (n.client i).state.keys.getKeyStore (pair.addr !i) = some a) ∧
      ∃ b, n.server.state.keys.getKeyStore (pair.addr i) = some b := by
  have hall := List.all_eq_true.mp h i (by cases i <;> decide)
  simp only [Bool.and_eq_true, Option.isSome_iff_exists] at hall
  exact ⟨hall.1.1, hall.1.2, hall.2⟩

theorem exists_meeting : ∃ n, Reach pair Utf8.toValid owner n ∧ introduced n = true := by
  have h : (pair.run Utf8.toValid owner Net.start meeting).any introduced = true := by
    decide +kernel
  obtain ⟨n, hn, hall⟩ := (Option.any_eq_true _ _).mp h
  exact ⟨n, Reach.start.run hn, hall⟩

end Pair

open Solo

/-- The refs of the exchanges are pairwise distinct as strings, and the client and the
server hold different secrets. -/
theorem torn_ref_disagrees :
    Function.Injective tornRef ∧ (solo tornRef).RefsOwned id tornOwner ∧
    ∃ n a b, Reach (solo tornRef) id tornOwner n ∧
      (n.client ()).state.keys.getKeyStore (solo tornRef).svrAddr = some a ∧
      n.server.state.keys.getKeyStore ((solo tornRef).addr ()) = some b ∧ a.shared ≠ b.shared := by
  refine ⟨tornRef_injective, fun _ k _ => ?_, ?_⟩
  · have hfst : ∀ k, tornRef k = Utf8.runeError ↔ k = 0 := fun k =>
      ⟨fun h => tornRef_injective (h.trans rfl), fun h => h ▸ rfl⟩
    simp only [tornOwner, solo, id_eq, hfst]
  · have h : (((solo tornRef).run id tornOwner Net.start tornRun).bind fun n =>
        ((n.client ()).state.keys.getKeyStore (solo tornRef).svrAddr).bind fun a =>
        (n.server.state.keys.getKeyStore ((solo tornRef).addr ())).bind fun b =>
        if a.shared ≠ b.shared then some () else none) = some () := by
      decide +kernel
    simp only [Option.bind_eq_some_iff, Option.ite_none_right_eq_some] at h
    obtain ⟨n, hn, a, ha, b, hb, hne, -⟩ := h
    exact ⟨n, a, b, Reach.start.run hn, ha, hb, hne⟩

/-- With refs that are valid UTF-8, a client and the server agree, and so do the two clients. -/
theorem plain_ref_agrees :
    ∃ n, Reach pair Utf8.toValid Pair.owner n ∧
      (∀ i, ∃ a b, (n.client i).state.keys.getKeyStore pair.svrAddr = some a ∧
        n.server.state.keys.getKeyStore (pair.addr i) = some b ∧ a.shared = b.shared) ∧
      ∀ i, ∃ a b, (n.client i).state.keys.getKeyStore (pair.addr !i) = some a ∧
        (n.client !i).state.keys.getKeyStore (pair.addr i) = some b ∧ a.shared = b.shared := by
  obtain ⟨n, hn, hall⟩ := Pair.exists_meeting
  have hkeys := Pair.keys_of_introduced hall
  obtain ⟨hserver, hclient⟩ := Parties.keys_agree AEAD.transparent_ideal Pair.refsOwned hn
  refine ⟨n, hn, fun i => ?_, fun i => ?_⟩
  · obtain ⟨⟨a, ha⟩, -, b, hb⟩ := hkeys i
    exact ⟨a, b, ha, hb, hserver i a b ha hb⟩
  · obtain ⟨-, ⟨a, ha⟩, -⟩ := hkeys i
    obtain ⟨-, ⟨b, hb⟩, -⟩ := hkeys (!i)
    rw [Bool.not_not] at hb
    exact ⟨a, b, ha, hb, hclient i (!i) a b ha hb⟩

end Concord
