import Concord.Ownership

/-!
# Transport secrecy after a key exchange

A key store starts with its `keySent` flag down. `encryptTransport` sends one
more packet in the clear and raises the flag then, on the assumption that this
packet is the one with the server's public key. That packet carries
`KeyNoCrypto`, though, for which `encryptTransport` returns before it looks at the
flag. So the flag is still down when the key has been sent, and the packet that
goes out in the clear is the next one.

1. `secrecyRules`: what a goroutine can rely on once the flag of the key store for
   `a` is up and as long as no other key store is installed for `a`.
2. `secrecyLogic`, with a goroutine that is watched.
3. `sealed_after_keySent`: under that condition every packet to `a` is sealed.
-/

namespace Concord

open Go

/-! ## 1. Rules -/

/-- What is handed to the writer for a packet with contents `c`, if the packet is
for `a` and not to be skipped, is a sealing of its marshalled bytes. -/
def SealedFor (cr : Crypto) (a : GoString) (k : KeyRef) (c : JSONPkt) (data : Bytes) : Prop :=
  c.dest = a → Crypto.isSkip (c.metaGet Crypto.keyNoCrypto) = false →
    ∃ nonce, nonce.length = Endpoint.nonceSize ∧
      data = cr.aead.sealText (bigBytes k.shared) nonce c.marshal

/-- The key store for `a` is `k`, and its flag is up. -/
def KeySentTo (a : GoString) (k : KeyRef) (t : KeyTable) : Prop :=
  t.getKeyStore a = some k ∧ t.getKeySent k.id = true

/-- A goroutine's packets, and for one that is watched the packet it sends. -/
abbrev Watched := Heap × Option JSONPkt

def secrecyRules (cr : Crypto) (a : GoString) (k : KeyRef) : Prog.Rules Op Op.Res Watched
  | .getKeyStore b => fun g Φ => ∀ r : Option KeyRef, (b = a → r = some k) → Φ r g
  | .getKeySent i => fun g Φ => ∀ r : Bool, (i = k.id → r = true) → Φ r g
  | .dist data _ => fun g Φ => (∀ c, g.2 = some c → SealedFor cr a k c data) ∧ Φ () g
  | e => fun g Φ => serverRules e g.1 fun r h' => Φ r (h', g.2)

section Rules

variable {cr : Crypto} {a : GoString} {k : KeyRef}

theorem secrecyRules_mono : (secrecyRules cr a k).Mono := by
  intro e g Φ Ψ hΦ
  cases e with
  | getKeyStore b => exact fun H r hr => hΦ _ _ (H r hr)
  | getKeySent i => exact fun H r hr => hΦ _ _ (H r hr)
  | dist data addr => exact fun H => ⟨H.1, hΦ _ _ H.2⟩
  | _ => exact fun H => serverRules_mono (fun r h' H' => hΦ _ _ H') H

/-- The rules ask of a goroutine what `serverRules` asks, and of a watched one a
sealing. -/
theorem secrecyRules_of_server {e : Op} {h : Heap} {w : Option JSONPkt}
    (he : ∀ data addr, e = .dist data addr → w = none) {Φ : e.Res → Heap → Prop}
    (H : serverRules e h Φ) : secrecyRules cr a k e (h, w) fun r g => g.2 = w ∧ Φ r g.1 := by
  cases e with
  | getKeyStore b => exact fun r _ => ⟨rfl, H.2 r fun _ _ => trivial⟩
  | getKeySent i => exact fun r _ => ⟨rfl, H.2 r⟩
  | dist data addr =>
    refine ⟨fun c hc => ?_, rfl, H.2.2⟩
    rw [he data addr rfl] at hc
    cases hc
  | _ => exact serverRules_mono (fun r h' H' => ⟨rfl, H'⟩) H

theorem secrecy_wp_of_server {α : Type} {x : Routine α} {h : Heap} {w : Option JSONPkt}
    (hx : x.AllOps fun e => ∀ data addr, e = .dist data addr → w = none) {Q : α → Heap → Prop}
    (H : x.wp serverRules h Q) :
    x.wp (secrecyRules cr a k) (h, w) fun r g => g.2 = w ∧ Q r g.1 := by
  induction x generalizing h with
  | ret r => exact ⟨rfl, H⟩
  | op e f ih =>
    refine secrecyRules_mono (fun r g H' => ?_) (secrecyRules_of_server hx.1 H)
    obtain ⟨h', w'⟩ := g
    obtain ⟨rfl, H'⟩ := H'
    exact ih r (hx.2 r) H'

/-- An operation in a state with the flag up. -/
theorem own_of_secrecyRules {s s' : Endpoint} {c : Choice} {e : Op} {r : e.Res} {g : Watched}
    {Φ : e.Res → Watched → Prop} (hk : KeySentTo a k s.keys) (hh : s.handle c e = .ok (r, s'))
    (H : secrecyRules cr a k e g Φ) :
    ownRules .nothing e g.1 fun r' h' => r' = r → Φ r' (h', g.2) := by
  cases e with
  | getKeyStore b =>
    cases hh
    rintro _ - rfl
    exact H _ fun hb => hb ▸ hk.1
  | getKeySent i =>
    cases hh
    rintro _ rfl
    exact H _ fun hi => hi ▸ hk.2
  | dist data addr => exact ⟨trivial, fun _ => H.2⟩
  | _ => exact ownRules_mono _ (fun r' h' H' _ => H') H.2

/-- The flag stays up as long as no key store is installed for `a`. -/
theorem KeySentTo.act {s s' : Endpoint} {c : Choice} {e : Op} {r : e.Res} {g : Watched}
    {Φ : e.Res → Watched → Prop} (hk : KeySentTo a k s.keys) (hh : s.handle c e = .ok (r, s'))
    (H : secrecyRules cr a k e g Φ) (hset : ∀ ks, e ≠ .setKeyStore a ks) :
    KeySentTo a k s'.keys := by
  have hid := KeyTable.getKeyStore_lt hk.1
  cases e with
  | setKeyStore b ks =>
    cases hh
    have hab : a ≠ b := fun h => hset ks (h ▸ rfl)
    refine ⟨?_, ?_⟩
    · rw [KeyTable.getKeyStore_setKeyStore, if_neg hab]
      exact hk.1
    · rw [KeyTable.getKeySent_setKeyStore _ _ _ hid]
      exact hk.2
  | setKeySent i b =>
    cases hh
    obtain rfl : b = true := H.1
    refine ⟨?_, ?_⟩
    · rw [KeyTable.getKeyStore_setKeySent]
      exact hk.1
    · rw [KeyTable.getKeySent_setKeySent _ _ _ _ hid]
      split
      · rfl
      · exact hk.2
  | _ =>
    rw [(Endpoint.handle_frame hh).2.1 rfl]
    exact hk

end Rules

/-! ## 2. A packet that is watched -/

section Watching

variable {cr : Crypto} {a : GoString} {k : KeyRef} {svr : UDPServer} {p : Nat} {c : JSONPkt}

theorem read_watched {r : PktRead} {Q : Bytes → Watched → Prop}
    (hQ : Q (r.eval c) ([(p, c)], some c)) :
    (Routine.perform (.read p r)).wp (secrecyRules cr a k) ([(p, c)], some c) Q :=
  ⟨rfl, c, List.mem_singleton_self _, hQ⟩

theorem getKeyStore_watched {b : GoString} {g : Watched} {Q : Option KeyRef → Watched → Prop}
    (hQ : ∀ r, (b = a → r = some k) → Q r g) :
    (Routine.perform (.getKeyStore b)).wp (secrecyRules cr a k) g Q :=
  hQ

theorem getKeySent_watched {i : Nat} {g : Watched} {Q : Bool → Watched → Prop}
    (hQ : ∀ r, (i = k.id → r = true) → Q r g) :
    (Routine.perform (.getKeySent i)).wp (secrecyRules cr a k) g Q :=
  hQ

theorem encryptAES_watched {key data : Bytes} {g : Watched}
    {Q : Except GoString Bytes → Watched → Prop} (herr : ∀ err, Q (.error err) g)
    (hok : ∀ nonce, nonce.length = Endpoint.nonceSize → Q (.ok (cr.aead.sealText key nonce data)) g) :
    (encryptAES cr.aead key data).wp (secrecyRules cr a k) g Q := by
  simp only [encryptAES, Prog.wp_ite, Prog.wp_bind, Prog.wp_pure]
  split
  · refine ⟨rfl, fun r hr => ?_⟩
    cases r with
    | none => exact herr _
    | some nonce => exact hok nonce (hr nonce rfl)
  · exact herr _

/-- What the transform makes of the packet, with the flag up. -/
theorem encryptTransport_watched {ctx : TransformContext} (hctx : ctx.pkt = some p) :
    (cr.encryptTransport ctx c.marshal).wp (secrecyRules cr a k) ([(p, c)], some c) fun r g =>
      g = ([(p, c)], some c) ∧ (r.1.stat ≠ codeStopError → SealedFor cr a k c r.2) := by
  unfold Crypto.encryptTransport
  rw [hctx]
  simp only [Prog.wp_bind, Prog.wp_ite, Prog.wp_pure]
  refine read_watched ?_
  split
  · next hskip =>
    refine ⟨rfl, fun _ _ hns => ?_⟩
    cases hns.symm.trans hskip
  · refine read_watched (getKeyStore_watched fun r hr => ?_)
    cases r with
    | none => exact ⟨rfl, fun _ ha => by cases hr ha⟩
    | some k' =>
      simp only [Prog.wp_bind, Prog.wp_ite, Prog.wp_pure]
      refine getKeySent_watched fun sent hsent => ?_
      split
      · refine encryptAES_watched (fun err => ⟨rfl, fun h => absurd rfl h⟩) fun nonce hn => ?_
        refine ⟨rfl, fun _ ha _ => ⟨nonce, hn, ?_⟩⟩
        rw [Option.some.inj (hr ha)]
      · next hns =>
        exact ⟨rfl, rfl, fun _ ha => absurd (hsent (Option.some.inj (hr ha) ▸ rfl)) hns⟩

/-- Only `processOutgoing` itself writes to the connection. -/
theorem notDist {w : Option JSONPkt} :
    UDPServer.OwnOps fun e => ∀ data addr, e = .dist data addr → w = none :=
  ⟨by simp, by simp, by simp, by simp, by simp⟩

theorem processOutgoing_watched (hout : svr.data pipelineOut = []) :
    ((cr.extendServer svr).processOutgoing p).wp (secrecyRules cr a k) ([(p, c)], some c)
      fun _ g => g.1 = [] := by
  have hput : ∀ {h : Heap}, h.keys = [p] →
      (Routine.putBack p).wp (secrecyRules cr a k) (h, some c) fun _ g => g.1 = [] := fun hk =>
    Prog.wp_mono secrecyRules_mono (fun _ g hg => hg.2) (secrecy_wp_of_server
      (Q := fun _ h' => h' = []) (UDPServer.putBack_allOps notDist.edits p)
      (putBack_wp hk List.not_mem_nil fun h' hk' => List.map_eq_nil_iff.mp hk'))
  simp only [UDPServer.processOutgoing, Prog.wp_bind]
  refine read_watched (read_watched ?_)
  cases (cr.extendServer svr).resolve (PktRead.dest.eval c) with
  | none => exact hput rfl
  | some addr =>
    simp only [UDPServer.transmit, processData, Crypto.extendServer_out hout, processTransforms,
      Prog.wp_bind, Prog.wp_ite, Prog.wp_pure]
    refine Prog.wp_mono secrecyRules_mono (fun r g hr => ?_) (encryptTransport_watched rfl)
    obtain ⟨ctx, data⟩ := r
    obtain ⟨rfl, hsealed⟩ := hr
    simp only at hsealed ⊢
    have hdist : ctx.stat ≠ codeStopError →
        (if ctx.stat ≠ codeStopNoop then
            (Routine.perform (.dist data addr)).wp (secrecyRules cr a k) ([(p, c)], some c)
              fun _ g => (Routine.putBack p).wp (secrecyRules cr a k) g fun _ g => g.1 = []
          else (Routine.putBack p).wp (secrecyRules cr a k) ([(p, c)], some c)
            fun _ g => g.1 = []) := by
      intro hne
      split
      · refine ⟨fun c' hc' => ?_, hput rfl⟩
        cases hc'
        exact hsealed hne
      · exact hput rfl
    split
    · refine read_watched (read_watched ?_)
      refine Prog.wp_mono secrecyRules_mono ?_ (secrecy_wp_of_server (h := [(p, c)])
        (Q := fun _ h' => h'.keys = [p])
        (UDPServer.sendErr_allOps notDist.edits _ _ _)
        (sendErr_wp fun h' hk => hk))
      rintro _ ⟨h', w⟩ ⟨rfl, hk⟩
      exact hput hk
    · next hne =>
      split
      · exact hdist hne
      · exact hdist hne

end Watching

/-! ## 3. Every run -/

/-- The step is a key exchange of `a`: the next operation of the goroutine installs a
key store for it. -/
def storesKey (a : GoString) (s : Sys Op Op.Res Endpoint UDPServer.Env) :
    Event Choice UDPServer.Env → Bool
  | .act i _ =>
    match s.threads[i]? with
    | some (.op (.setKeyStore b _) _) => b = a
    | _ => false
  | .env _ => false

/-- What goroutine `i` has handed to the writer. -/
def written (s : Sys Op Op.Res Endpoint UDPServer.Env) (i : Nat) : List (Bytes × Addr) :=
  s.log.filterMap fun
    | .act j (.dist data addr) _ => if j = i then some (data, addr) else none
    | _ => none

theorem mem_written {s : Sys Op Op.Res Endpoint UDPServer.Env} {i : Nat} {data : Bytes} {addr : Addr}
    (h : (data, addr) ∈ written s i) : Entry.act i (.dist data addr) () ∈ s.log := by
  obtain ⟨x, hx, h⟩ := List.mem_filterMap.mp h
  split at h
  · next j d ad r =>
    split at h
    · next hj =>
      cases h
      cases hj
      exact hx
    · cases h
  · cases h

/-- The flag is up, and what watched goroutines have handed to the writer is sealed;
`w` is one of them. -/
structure Secret (cr : Crypto) (a : GoString) (k : KeyRef) (w : Option (Nat × JSONPkt))
    (s : Endpoint) (log : List (Entry Op Op.Res UDPServer.Env)) (gs : List Watched) : Prop where
  owns : Owns .nothing s (gs.map Prod.fst)
  keys : KeySentTo a k s.keys
  watch : ∀ j c, w = some (j, c) → ∃ h, gs[j]? = some (h, some c)
  sent : ∀ (j : Nat) (h : Heap) (c : JSONPkt), gs[j]? = some (h, some c) →
    ∀ data addr, Entry.act j (.dist data addr) () ∈ log → SealedFor cr a k c data

section Runs

variable {cr : Crypto} {a : GoString} {k : KeyRef} {w : Option (Nat × JSONPkt)} {s s' : Endpoint}
  {log : List (Entry Op Op.Res UDPServer.Env)} {gs : List Watched}

theorem Secret.act (b : Secret cr a k w s log gs) {i : Nat} {g : Watched} {c : Choice} {e : Op}
    {r : e.Res} {Φ : e.Res → Watched → Prop} (hi : gs[i]? = some g)
    (H : secrecyRules cr a k e g Φ) (hset : ∀ ks, e ≠ .setKeyStore a ks)
    (hh : s.handle c e = .ok (r, s')) :
    ∃ g', Φ r g' ∧ Secret cr a k w s' (log ++ [.act i e r]) (gs.set i g') := by
  have hfst : (gs.map Prod.fst)[i]? = some g.1 := by rw [List.getElem?_map, hi]; rfl
  obtain ⟨h', hΦ, ha⟩ :=
    b.owns.act hfst (own_of_secrecyRules b.keys hh H) (fun _ _ _ => trivial) hh
  refine ⟨(h', g.2), hΦ rfl, ⟨?_, b.keys.act hh H hset, fun j d hw => ?_, fun j h d hj => ?_⟩⟩
  · rw [List.map_set]
    exact ha.owns
  · obtain ⟨h, hj⟩ := b.watch j d hw
    by_cases hij : i = j
    · subst hij
      cases hi.symm.trans hj
      exact ⟨h', List.getElem?_set_self (List.getElem?_eq_some_iff.mp hi).1⟩
    · exact ⟨h, by rw [List.getElem?_set_ne hij]; exact hj⟩
  · intro data addr hmem
    rcases getElem?_set_cases hj with ⟨rfl, hg⟩ | ⟨hij, hj⟩
    · have hwatch : g.2 = some d := (congrArg Prod.snd hg).symm
      rcases List.mem_append.mp hmem with hmem | hmem
      · exact b.sent i g.1 d (by rw [hi, ← hwatch]) data addr hmem
      · cases List.mem_singleton.mp hmem
        exact H.1 d hwatch
    · rcases List.mem_append.mp hmem with hmem | hmem
      · exact b.sent j h d hj data addr hmem
      · cases List.mem_singleton.mp hmem
        exact absurd rfl hij

/-- `sendPkts` starts a goroutine, which is watched. -/
theorem Secret.watched (b : Secret cr a k none s log gs) {p : Nat} {c : JSONPkt}
    (ho : Owns .nothing s' (gs.map Prod.fst ++ [[(p, c)]])) (hk : s'.keys = s.keys)
    (hnew : ∀ data addr, Entry.act gs.length (.dist data addr) () ∉ log) :
    Secret cr a k (some (gs.length, c)) s' (log ++ [.env .sendPkts])
      (gs ++ [([(p, c)], some c)]) where
  owns := by simpa using ho
  keys := hk ▸ b.keys
  watch j d hw := by
    cases hw
    exact ⟨[(p, c)], by simp⟩
  sent j h d hj data addr hmem := by
    have hmem : Entry.act j (.dist data addr) () ∈ log := by simpa using hmem
    rcases getElem?_snoc_cases hj with hj | ⟨rfl, -⟩
    · exact b.sent j h d hj data addr hmem
    · exact absurd hmem (hnew data addr)

/-- An environment step, with the goroutine it starts. -/
theorem Secret.env (b : Secret cr a k w s log gs) {ev : UDPServer.Env} {new : List Heap}
    (ho : Owns .nothing s' (gs.map Prod.fst ++ new)) (hk : s'.keys = s.keys) :
    Secret cr a k w s' (log ++ [.env ev]) (gs ++ new.map fun h => (h, none)) where
  owns := by
    have hnew : (new.map fun h => ((h, none) : Watched)).map Prod.fst = new := by
      simp [List.map_map, Function.comp_def]
    rw [List.map_append, hnew]
    exact ho
  keys := hk ▸ b.keys
  watch j c hw := by
    obtain ⟨h, hj⟩ := b.watch j c hw
    exact ⟨h, List.getElem?_append_left (List.getElem?_eq_some_iff.mp hj).1 ▸ hj⟩
  sent j h c hj data addr hmem := by
    have hmem : Entry.act j (.dist data addr) () ∈ log := by simpa using hmem
    rw [List.getElem?_append] at hj
    split at hj
    · exact b.sent j h c hj data addr hmem
    · simp at hj

variable {svr : UDPServer}
  (hq : ∀ name cbs, svr.queues name = some cbs → ∀ cb ∈ cbs, TargetCallback.Linear cb)
  (hdata : ∀ name, ∀ t ∈ svr.data name, BufferTransform.Linear t)

theorem unwatched_wp {x : Routine Unit} {h : Heap} (H : x.wp serverRules h fun _ h' => h' = []) :
    x.wp (secrecyRules cr a k) (h, none) fun _ g => g.1 = [] :=
  Prog.wp_mono secrecyRules_mono (fun _ _ hg => hg.2)
    (secrecy_wp_of_server (Prog.allOps_of_forall (fun _ _ _ _ => rfl) x) H)

def secrecyLogic (cr : Crypto) (a : GoString) (k : KeyRef) (w : Option (Nat × JSONPkt)) :
    Logic (cr.extendServer svr).machine Watched where
  rules := secrecyRules cr a k
  mono := secrecyRules_mono
  inv := Secret cr a k w
  final g := g.1 = []
  allowed s ev := storesKey a s ev = false
  mayCrash := True
  act := by
    intro s i c e f gs g Φ ht hal hb hi hΦ
    split
    · next r st hh =>
      refine hb.act hi hΦ (fun ks he => ?_) hh
      subst he
      simp [storesKey, ht] at hal
    · trivial
    · trivial
  env := by
    intro s ev gs st _ hb he
    obtain ⟨n, rfl, rfl⟩ := UDPServer.env_quiet he
    have ho := hb.owns.drop n
    rw [← List.append_nil (gs.map Prod.fst)] at ho
    rw [← List.append_nil gs]
    exact hb.env ho rfl
  spawn := by
    intro s ev gs st t _ _ hb he
    rcases UDPServer.env_spawn he with ⟨d, sender, rfl, rfl, rfl⟩ | ⟨p, rfl, hp, rfl, rfl⟩
    · exact ⟨([], none), unwatched_wp (UDPServer.processIncoming_wp
        (Crypto.extendServer_queues_linear hq) (Crypto.extendServer_data_linear hdata) d sender),
        hb.env hb.owns.spawn rfl⟩
    · obtain ⟨c, -, -, ho⟩ := hb.owns.spawnSend hp
      exact ⟨([(p, c)], none), unwatched_wp (UDPServer.processOutgoing_wp
        (Crypto.extendServer_data_linear hdata) p c), hb.env ho rfl⟩

include hq hdata in
/-- Once the flag of the key store for `a` is up, and as long as no other key store is
installed for `a`, whatever `processOutgoing` hands to the writer for a packet to `a`
without a skip value is a sealing of its marshalled bytes under the stored key, and
not those bytes. `s₁` is any state in which the flag is up; `s` is a later one in
which `sendPkts` has received the packet. -/
theorem sealed_after_keySent (hout : svr.data pipelineOut = [])
    {evs₁ evs₂ evs₃ : List (Event Choice UDPServer.Env)}
    {s₁ s s₂ : Sys Op Op.Res Endpoint UDPServer.Env} {p : Nat} {c : JSONPkt}
    (h₁ : (cr.extendServer svr).machine.run UDPServer.start evs₁ = .ok s₁)
    (hkey : s₁.state.keys.getKeyStore a = some k) (hsent : s₁.state.keys.getKeySent k.id = true)
    (h₂ : (cr.extendServer svr).machine.run s₁ evs₂ = .ok s)
    (ha₂ : (cr.extendServer svr).machine.EachAllowed (fun s ev => storesKey a s ev = false) s₁ evs₂)
    (hp : s.state.sending = some p) (hc : s.state.pkts.mem[p]? = some c) (hdest : c.dest = a)
    (hskip : Crypto.isSkip (c.metaGet Crypto.keyNoCrypto) = false)
    (h₃ : (cr.extendServer svr).machine.run s (.env .sendPkts :: evs₃) = .ok s₂)
    (ha₃ : (cr.extendServer svr).machine.EachAllowed (fun s ev => storesKey a s ev = false) s
      (.env .sendPkts :: evs₃)) :
    ∀ data addr, (data, addr) ∈ written s₂ s.threads.length →
      data ≠ c.marshal ∧ ∃ nonce, nonce.length = Endpoint.nonceSize ∧
        data = cr.aead.sealText (bigBytes k.shared) nonce c.marshal := by
  let L := secrecyLogic hq hdata cr a k
  -- up to the first state, ownership is all that is known
  obtain ⟨hs, hlen, hb, hwp⟩ := booked_run (Crypto.extendServer_queues_linear hq)
    (Crypto.extendServer_data_linear hdata) h₁
  have hstart : (L none).Holds s₁ := by
    refine ⟨hs.map fun h => (h, none), by simpa using hlen, ⟨?_, ⟨hkey, hsent⟩, nofun, ?_⟩, ?_⟩
    · simpa [List.map_map, Function.comp_def] using hb.owns
    · intro j h d hj
      simp at hj
    · intro i t g ht hg
      rw [List.getElem?_map] at hg
      obtain ⟨h, hh, rfl⟩ := Option.map_eq_some_iff.mp hg
      exact unwatched_wp (hwp i t h ht hh)
  obtain ⟨gs, hlen, hb, hwp⟩ := (L none).run_holds hstart ha₂ h₂
  -- the goroutine that sends the packet starts, and is watched from then on
  have hb : Secret cr a k none s.state s.log gs := hb
  obtain ⟨c', hc', -, ho⟩ := hb.owns.spawnSend hp
  obtain rfl : c = c' := Option.some.inj (hc.symm.trans hc')
  have hnew : ∀ data addr, Entry.act gs.length (.dist data addr) () ∉ s.log := by
    intro data addr hmem
    have hlt := Machine.run_tidsOk (Machine.run_tidsOk (by simp [Machine.TidsOk, UDPServer.start]) h₁)
      h₂ _ _ _ hmem
    omega
  have hstep : (cr.extendServer svr).machine.step s (.env .sendPkts) =
      .ok ⟨{ s.state with sending := none }, s.threads ++ [(cr.extendServer svr).processOutgoing p],
        s.log ++ [.env .sendPkts]⟩ := by
    simp [Machine.step, UDPServer.machine, UDPServer.env, hp]
  have hwatch := (L (some (gs.length, c))).holds_snoc hlen hwp
    (processOutgoing_watched hout) (hb.watched ho rfl hnew)
  rw [Machine.run, hstep] at h₃
  obtain ⟨gs', -, hb', -⟩ := (L (some (gs.length, c))).run_holds hwatch (ha₃.tail hstep) h₃
  have hb' : Secret cr a k (some (gs.length, c)) s₂.state s₂.log gs' := hb'
  obtain ⟨h, hj⟩ := hb'.watch _ _ rfl
  intro data addr hmem
  obtain ⟨nonce, hn, hdata⟩ := hb'.sent _ h c hj data addr (hlen ▸ mem_written hmem) hdest hskip
  refine ⟨fun heq => ?_, nonce, hn, hdata⟩
  have hlong : c.marshal.length < (cr.aead.sealText (bigBytes k.shared) nonce c.marshal).length :=
    cr.aead.length_seal
  rw [← hdata, heq] at hlong
  exact lt_irrefl _ hlong

end Runs

/-! ## 4. A run -/

/-- A server with the Crypto extension; every address resolves to itself. -/
def kexServer : UDPServer := (Crypto.transparent 5).extendServer (UDPServer.new some)

def alice : GoString := ascii "10.0.0.1:4000"
def bob : GoString := ascii "10.0.0.2:4000"

/-- `alice` sends its public key to the key-exchange target, and the response goes
out. -/
def kexRun : List (Event Choice UDPServer.Env) :=
  .env (.datagram (ascii ("\x7b\"m\":\x7b\"_ref\":\"r1\",\"_tgt\":\"crypto.kex-cs\"\x7d," ++
      "\"d\":\"eyJ4Ijo3LCJ5Ijo3fQ==\"\x7d")) alice) ::
    List.replicate 21 (.act 0 {}) ++ .env .sendPkts :: List.replicate 5 (.act 1 {})

/-- `bob` has a packet relayed to `alice`: what goroutine `tid` does for it, up to the
hand-off. -/
def relayTo (tid : Nat) : List (Event Choice UDPServer.Env) :=
  .env (.datagram (ascii ("\x7b\"m\":\x7b\"_ref\":\"r2\",\"_tgt\":\"svr.relay\"," ++
      "\"_relay_dst\":\"10.0.0.1:4000\"\x7d,\"d\":\"aGVsbG8=\"\x7d")) bob) ::
    List.replicate 28 (.act tid {})

def nonceChoice : Choice := ⟨0, some (List.replicate 12 0)⟩

/-- Goroutine `tid` sends the packet. -/
def sendOut (tid n : Nat) : List (Event Choice UDPServer.Env) :=
  .env .sendPkts :: List.replicate n (.act tid nonceChoice)

def ended (s : Sys Op Op.Res Endpoint UDPServer.Env) (i : Nat) : Bool :=
  match s.threads[i]? with
  | some (.ret _) => true
  | _ => false

/-- From `s₁` on `alice` exchanges no key, and in `s` packet `p` with contents `c`, to
`alice` and not to be skipped, has come over `sendStream`; goroutine `tid` is about to
send it. -/
abbrev PacketToAlice (s₁ s : Sys Op Op.Res Endpoint UDPServer.Env) (p : Nat) (c : JSONPkt)
    (tid : Nat) : Prop :=
  kexServer.machine.EachAllowed (fun s ev => storesKey alice s ev = false) s₁ (relayTo (tid - 1)) ∧
  kexServer.machine.EachAllowed (fun s ev => storesKey alice s ev = false) s (sendOut tid 9) ∧
  s.state.sending = some p ∧ c.dest = alice ∧
  Crypto.isSkip (c.metaGet Crypto.keyNoCrypto) = false ∧ s.threads.length = tid

/-- The response with the server's public key has been sent, and its goroutine has
ended. -/
abbrev KeyResponded (s₁ : Sys Op Op.Res Endpoint UDPServer.Env) : Prop :=
  written s₁ 1 = [(ascii ("\x7b\"m\":\x7b\"_no_crypto\":\"true\",\"_ref\":\"r1\"\x7d," ++
    "\"d\":\"eyJ4Ijo1LCJ5Ijo1fQ==\"\x7d"), alice)] ∧ ended s₁ 1 = true

/-- `bob`'s packet is the first one after the key exchange, and goes out as it is. -/
theorem relayed_plain_after_kex :
    ∃ s₁ s s₂ k c, kexServer.machine.run UDPServer.start kexRun = .ok s₁ ∧
      s₁.state.keys.getKeyStore alice = some k ∧ kexServer.machine.run s₁ (relayTo 2) = .ok s ∧
      s.state.pkts.mem[2]? = some c ∧ kexServer.machine.run s (sendOut 3 9) = .ok s₂ ∧
      KeyResponded s₁ ∧ aesKeySize (bigBytes k.shared).length = true ∧ PacketToAlice s₁ s 2 c 3 ∧
      written s₂ 3 = [(c.marshal, alice)] := by
  have h : ((kexServer.machine.run UDPServer.start kexRun).result?.bind fun s₁ =>
      (s₁.state.keys.getKeyStore alice).bind fun k =>
      (kexServer.machine.run s₁ (relayTo 2)).result?.bind fun s =>
      s.state.pkts.mem[2]?.bind fun c =>
      (kexServer.machine.run s (sendOut 3 9)).result?.bind fun s₂ =>
      if KeyResponded s₁ ∧ aesKeySize (bigBytes k.shared).length = true ∧ PacketToAlice s₁ s 2 c 3 ∧
        written s₂ 3 = [(c.marshal, alice)] then some () else none) = some () := by
    decide +kernel
  simp only [Option.bind_eq_some_iff, Option.ite_none_right_eq_some] at h
  obtain ⟨s₁, h₁, k, hk, s, h, c, hc, s₂, h₂, hobs, -⟩ := h
  exact ⟨s₁, s, s₂, k, c, Outcome.eq_ok_of_result? h₁, hk, Outcome.eq_ok_of_result? h, hc,
    Outcome.eq_ok_of_result? h₂, hobs⟩

/-- The next one is sealed. -/
theorem second_relayed_sealed :
    ∃ s₂ k c, written s₂ 5 ≠ [] ∧ ∀ data addr, (data, addr) ∈ written s₂ 5 →
      data ≠ JSONPkt.marshal c ∧ ∃ nonce, nonce.length = Endpoint.nonceSize ∧
        data = (Crypto.transparent 5).aead.sealText (bigBytes (KeyRef.shared k)) nonce c.marshal := by
  have h : ((kexServer.machine.run UDPServer.start (kexRun ++ relayTo 2 ++ sendOut 3 9)).result?.bind
      fun s₁ => (s₁.state.keys.getKeyStore alice).bind fun k =>
      (kexServer.machine.run s₁ (relayTo 4)).result?.bind fun s =>
      s.state.pkts.mem[0]?.bind fun c =>
      (kexServer.machine.run s (sendOut 5 9)).result?.bind fun s₂ =>
      if (s₁.state.keys.getKeySent k.id = true ∧ PacketToAlice s₁ s 0 c 5) ∧ written s₂ 5 ≠ []
        then some () else none) = some () := by
    decide +kernel
  simp only [Option.bind_eq_some_iff, Option.ite_none_right_eq_some] at h
  obtain ⟨s₁, h₁, k, hk, s, h, c, hc, s₂, h₂, ⟨⟨hsent, ha₂, ha₃, hp, hdest, hskip, hlen⟩, hw⟩, -⟩ := h
  have hsealed := sealed_after_keySent (UDPServer.new_linear some) (by simp [UDPServer.new]) rfl
    (Outcome.eq_ok_of_result? h₁) hk hsent (Outcome.eq_ok_of_result? h) ha₂ hp hc hdest hskip
    (Outcome.eq_ok_of_result? h₂) ha₃
  rw [hlen] at hsealed
  exact ⟨s₂, k, c, hw, hsealed⟩

end Concord
