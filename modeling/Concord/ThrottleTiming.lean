import Concord.Throttle
import Concord.ThrottleRate
import Concord.Go.Time

/-!
# The throttle in time

The throttle of `Throttle` with a clock. Every event has the instant at which it happens; an
operation starts when `read` finds nothing on `done` or `write` receives from `send`, it ends with
the clock reading that goes to `throttleOperation`, and the routine goes on once it has slept. The
clock does not go back, and a sleep is at least as long as it was asked to be.

1. `start_add_le`: the routine goes on no earlier than a time per operation after the start.
2. `spaced_starts`: as long as the rate is kept, the starts are a time per operation apart.
3. `enforces_rate_iff`: this keeps to the rate exactly if it divides a second, for the time per
   operation is rounded down.
-/

namespace Concord

open Go

namespace UDPThrottle

/-! ## 1. Clocks -/

/-- The routines `read` and `write`. -/
inductive Half where
  | read
  | write

/-- What an event is in the operation of its routine: its start, the datagram on the connection,
its end, or the end of the sleep behind it. -/
inductive Mark where
  | start
  | pass
  | finish
  | wake
  deriving DecidableEq

def ReadEvent.mark : ReadEvent → Option Mark
  | .poll => some .start
  | .conn _ => some .pass
  | .send => some .finish
  | .wake => some .wake
  | _ => none

def WriteEvent.mark : WriteEvent → Option Mark
  | .take => some .start
  | .conn _ => some .pass
  | .reply => some .finish
  | .wake => some .wake
  | _ => none

def Event.mark : Half → Event → Option Mark
  | .read, .read ev => ev.mark
  | .write, .write ev => ev.mark
  | _, _ => none

/-- `throttleOperation`: how long it asks to sleep. -/
def throttleOperation (tpo dur : Int64) : Nat :=
  let remainingTime := tpo - dur
  if 0 < remainingTime then
    ((Time.parseDuration (Time.nanosText remainingTime)).getD 0).toInt.toNat
  else 0

/-- The local `start` of a routine, and the instant before which its last sleep does not end. -/
structure Clock where
  start : Nat
  wake : Nat

namespace Clock

def tick (c : Clock) (now : Nat) (tpo : Int64) : Option Mark → Clock
  | some .start => { c with start := now }
  | some .finish => { c with wake := now + throttleOperation tpo (Time.sub now c.start) }
  | _ => c

def allows (c : Clock) (now : Nat) : Option Mark → Bool
  | some .wake => c.wake ≤ now
  | _ => true

end Clock

/-- A throttle with its rate and the clocks of its routines. -/
structure Timed where
  th : UDPThrottle
  pace : Pace
  now : Nat
  clock : Half → Clock

inductive TimedEvent where
  | op (ev : Event)
  | rate (op : RateOp)

def TimedEvent.mark (half : Half) : TimedEvent → Option Mark
  | .op ev => ev.mark half
  | .rate _ => none

namespace Timed

/-- `NewUDPThrottle`, at this instant. -/
def new (initialRate : UInt64) (rbuffSize now : Nat) : Outcome Timed :=
  match Pace.ofRate initialRate with
  | .ok pace => .ok ⟨UDPThrottle.new rbuffSize, pace, now, fun _ => ⟨0, 0⟩⟩
  | .block => .block
  | .crash => .crash

def step (t : Timed) : Nat × TimedEvent → Outcome Timed
  | (now, .op ev) =>
    if t.now ≤ now ∧ (t.clock .read).allows now (ev.mark .read) ∧
        (t.clock .write).allows now (ev.mark .write) then
      match t.th.step ev with
      | .ok th => .ok ⟨th, t.pace, now, fun half => (t.clock half).tick now t.pace.tpo (ev.mark half)⟩
      | .block => .block
      | .crash => .crash
    else .block
  | (now, .rate op) =>
    if t.now ≤ now then
      match t.pace.step op with
      | .ok pace => .ok { t with pace, now }
      | .block => .block
      | .crash => .crash
    else .block

def run : Timed → List (Nat × TimedEvent) → Outcome Timed := runSteps step

/-- What a step can do: the throttle makes one, which the clocks follow, or the rate is changed. -/
theorem step_cases {t t' : Timed} {now : Nat} {ev : TimedEvent} (h : t.step (now, ev) = .ok t') :
    t.now ≤ now ∧
    ((∃ e th, ev = .op e ∧ t.th.step e = .ok th ∧
        (∀ half, (t.clock half).allows now (e.mark half) = true) ∧
        t' = ⟨th, t.pace, now, fun half => (t.clock half).tick now t.pace.tpo (e.mark half)⟩) ∨
      ∃ op pace, ev = .rate op ∧ t.pace.step op = .ok pace ∧ t' = { t with pace, now }) := by
  cases ev with
  | op e =>
    simp only [step] at h
    split at h
    · next hguard =>
      obtain ⟨hnow, hread, hwrite⟩ := hguard
      split at h
      · next th hth =>
        cases h
        refine ⟨hnow, .inl ⟨e, th, rfl, hth, fun half => ?_, rfl⟩⟩
        cases half with
        | read => exact hread
        | write => exact hwrite
      · cases h
      · cases h
    · cases h
  | rate op =>
    simp only [step] at h
    split at h
    · next hnow =>
      split at h
      · next pace hpace =>
        cases h
        exact ⟨hnow, .inr ⟨op, pace, rfl, hpace, rfl⟩⟩
      · cases h
      · cases h
    · cases h

end Timed

/-! ## 2. Sleeping -/

theorem throttleOperation_eq (tpo dur : Int64) :
    throttleOperation tpo dur = (tpo - dur).toInt.toNat := by
  have hzero : (0 : Int64).toInt = 0 := rfl
  rw [throttleOperation]
  split
  · next hpos =>
    rw [Int64.lt_iff_toInt_lt, hzero] at hpos
    rw [Time.parseDuration_nanosText hpos]
    rfl
  · next hpos =>
    rw [Int64.lt_iff_toInt_lt, hzero] at hpos
    omega

/-- The time of an operation and the sleep after it come to the time per operation at least. An
operation too long for a duration is long enough by itself. -/
theorem start_add_le (tpo : Int64) {start now : Nat} (hle : start ≤ now) :
    start + tpo.toInt.toNat ≤ now + throttleOperation tpo (Time.sub now start) := by
  have hmax : Int64.maxValue.toInt = 2 ^ 63 - 1 := rfl
  have htpo := tpo.toInt_le
  by_cases hlt : now - start < 2 ^ 63
  · have hdur := Time.toInt_sub_of_lt hle hlt
    rw [throttleOperation_eq, Int64.toInt_sub, hdur]
    by_cases hpos : 0 ≤ tpo.toInt
    · rw [Int.bmod_eq_of_le (by omega) (by omega)]
      omega
    · omega
  · omega

/-! ## 3. Starts -/

/-- Where a routine is between two starts. -/
inductive Phase where
  | ready
  | pending
  | passed
  | resting
  | returned

def ReadAt.phase : ReadAt → Phase
  | .loop => .ready
  | .reading => .pending
  | .copying _ _ _ | .sending _ => .passed
  | .throttling => .resting
  | .returned => .returned

def WriteAt.phase : WriteAt → Phase
  | .loop => .ready
  | .writing _ => .pending
  | .replying _ _ => .passed
  | .throttling => .resting
  | .returned => .returned

def phase (th : UDPThrottle) : Half → Phase
  | .read => th.reading.loc.phase
  | .write => th.writing.loc.phase

/-- How an event with this mark moves its routine. -/
inductive Phase.Moves : Option Mark → Phase → Phase → Prop
  | start : Moves (some .start) .ready .pending
  | pass : Moves (some .pass) .pending .passed
  | finish : Moves (some .finish) .passed .resting
  | wake : Moves (some .wake) .resting .ready
  | stay (p : Phase) : Moves none p p
  | quit : Moves none .ready .returned

theorem Reading.step_moves {s s' : Reading} {done : Bool} {ev : ReadEvent}
    (h : s.step done ev = some s') : Phase.Moves ev.mark s.loc.phase s'.loc.phase := by
  cases step_does h with
  | call | receive _ _ => exact .stay _
  | poll hloc _ =>
    rw [hloc]
    exact .start
  | conn _ hloc =>
    rw [hloc]
    exact .pass
  | copy hloc =>
    rw [hloc]
    exact .stay _
  | send hloc _ =>
    rw [hloc]
    exact .finish
  | wake hloc =>
    rw [hloc]
    exact .wake

theorem Writing.step_moves {s s' : Writing} {ev : WriteEvent} (h : s.step ev = some s') :
    Phase.Moves ev.mark s.loc.phase s'.loc.phase := by
  cases step_does h with
  | call _ _ | send _ _ _ => exact .stay _
  | take hloc _ =>
    rw [hloc]
    exact .start
  | conn _ hloc =>
    rw [hloc]
    exact .pass
  | reply hloc _ _ =>
    rw [hloc]
    exact .finish
  | wake hloc =>
    rw [hloc]
    exact .wake

theorem step_moves {th th' : UDPThrottle} {ev : Event} (h : th.step ev = .ok th') (half : Half) :
    Phase.Moves (ev.mark half) (th.phase half) (th'.phase half) := by
  cases ev with
  | read e =>
    simp only [step] at h
    split at h
    · next r hr =>
      cases h
      cases half with
      | read => exact Reading.step_moves hr
      | write => exact .stay _
    · cases h
  | write e =>
    simp only [step] at h
    split at h
    · next w hw =>
      cases h
      cases half with
      | read => exact .stay _
      | write => exact Writing.step_moves hw
    · cases h
  | shutdown | cleanup | stopRead _ | stopWrite _ | close _ =>
    rcases step_cases h with ⟨e, r, he, -⟩ | ⟨e, w, he, -⟩ | ⟨cleanup, rfl⟩ |
      ⟨j, st, -, -, hloc, rfl⟩ | ⟨j, st, -, -, hloc, rfl⟩ | ⟨j, st, -, rfl⟩
    · cases he
    · cases he
    · cases half <;> exact .stay _
    · cases half with
      | read =>
        rw [phase, hloc]
        exact .quit
      | write => exact .stay _
    · cases half with
      | read => exact .stay _
      | write =>
        rw [phase, hloc]
        exact .quit
    · cases half <;> exact .stay _

/-- What is known of the starts so far: they are `g` apart, and the routine does not get to the
next one too early. -/
structure Paced (g : Nat) (p : Phase) (c : Clock) (now : Nat) (ss : List Nat) : Prop where
  spaced : Time.Spaced g ss
  ready : p = .ready → ∀ s ∈ ss, s + g ≤ now
  pending : p = .pending → ∀ s ∈ ss, s ≤ c.start ∧ c.start ≤ now
  passed : p = .passed → ∀ s ∈ ss, s ≤ c.start ∧ c.start ≤ now
  resting : p = .resting → ∀ s ∈ ss, s + g ≤ c.wake

/-- The start that an event with this mark is, if it is one. -/
def Mark.starts (now : Nat) : Option Mark → List Nat
  | some .start => [now]
  | some .pass | some .finish | some .wake | none => []

/-- The starts of a routine. -/
def starts (half : Half) (evs : List (Nat × TimedEvent)) : List Nat :=
  evs.flatMap fun ev => Mark.starts ev.1 (ev.2.mark half)

theorem Paced.nil (g : Nat) (p : Phase) (c : Clock) (now : Nat) : Paced g p c now [] where
  spaced := List.Pairwise.nil
  ready _ _ hs := absurd hs List.not_mem_nil
  pending _ _ hs := absurd hs List.not_mem_nil
  passed _ _ hs := absurd hs List.not_mem_nil
  resting _ _ hs := absurd hs List.not_mem_nil

theorem Paced.tick {tpo : Int64} {p p' : Phase} {c : Clock} {now now' : Nat} {ss : List Nat}
    {mark : Option Mark} (h : Paced tpo.toInt.toNat p c now ss) (hnow : now ≤ now')
    (hallow : c.allows now' mark = true) (hmoves : Phase.Moves mark p p') :
    Paced tpo.toInt.toNat p' (c.tick now' tpo mark) now' (ss ++ Mark.starts now' mark) := by
  cases hmoves with
  | start =>
    have hready : ∀ s ∈ ss, s + tpo.toInt.toNat ≤ now' := fun s hs =>
      (h.ready rfl s hs).trans hnow
    refine ⟨h.spaced.snoc hready, nofun, fun _ s hs => ⟨?_, Nat.le_refl now'⟩, nofun, nofun⟩
    rcases List.mem_append.mp hs with hs | hs
    · exact (Nat.le_add_right s _).trans (hready s hs)
    · exact (List.mem_singleton.mp hs).le
  | pass =>
    rw [Mark.starts, List.append_nil]
    exact ⟨h.spaced, nofun, nofun,
      fun _ s hs => ⟨(h.pending rfl s hs).1, (h.pending rfl s hs).2.trans hnow⟩, nofun⟩
  | finish =>
    rw [Mark.starts, List.append_nil]
    refine ⟨h.spaced, nofun, nofun, nofun, fun _ s hs => ?_⟩
    obtain ⟨hstart, hle⟩ := h.passed rfl s hs
    exact (Nat.add_le_add_right hstart _).trans (start_add_le tpo (hle.trans hnow))
  | wake =>
    rw [Mark.starts, List.append_nil]
    have hwake : c.wake ≤ now' := of_decide_eq_true hallow
    exact ⟨h.spaced, fun _ s hs => (h.resting rfl s hs).trans hwake, nofun, nofun, nofun⟩
  | stay =>
    rw [Mark.starts, List.append_nil]
    exact ⟨h.spaced, fun hp s hs => (h.ready hp s hs).trans hnow,
      fun hp s hs => ⟨(h.pending hp s hs).1, (h.pending hp s hs).2.trans hnow⟩,
      fun hp s hs => ⟨(h.passed hp s hs).1, (h.passed hp s hs).2.trans hnow⟩, h.resting⟩
  | quit =>
    rw [Mark.starts, List.append_nil]
    exact ⟨h.spaced, nofun, nofun, nofun, nofun⟩

/-- Calls that leave the rate as it is. -/
def TimedEvent.Keeps (rate : UInt64) : TimedEvent → Prop
  | .op _ => True
  | .rate call => call = .setThroughput rate

namespace Timed

/-- The time per operation is the one computed from the rate. -/
def Computed (t : Timed) : Prop := Pace.ofRate t.pace.rate = .ok t.pace

theorem ofRate_self {rate : UInt64} {p : Pace} (h : Pace.ofRate rate = .ok p) :
    Pace.ofRate p.rate = .ok p := by
  rw [Pace.ofRate] at h
  split at h
  · cases h
  · next hne =>
    cases h
    exact if_neg hne

theorem new_computed {initialRate : UInt64} {rbuffSize now : Nat} {t : Timed}
    (h : new initialRate rbuffSize now = .ok t) : t.Computed := by
  simp only [new] at h
  split at h
  · next pace hpace =>
    cases h
    exact ofRate_self hpace
  · cases h
  · cases h

theorem step_computed {t t' : Timed} {ev : Nat × TimedEvent} (ht : t.Computed)
    (h : t.step ev = .ok t') : t'.Computed := by
  obtain ⟨-, ⟨e, th, -, -, -, rfl⟩ | ⟨call, pace, -, hpace, rfl⟩⟩ := step_cases h
  · exact ht
  · cases call with
    | setThroughput rate => exact ofRate_self hpace
    | scaleThroughput f => exact ofRate_self hpace

theorem step_pace {t t' : Timed} {ev : Nat × TimedEvent} (ht : t.Computed)
    (hev : ev.2.Keeps t.pace.rate) (h : t.step ev = .ok t') : t'.pace = t.pace := by
  obtain ⟨-, ⟨e, th, -, -, -, rfl⟩ | ⟨call, pace, hcall, hpace, rfl⟩⟩ := step_cases h
  · rfl
  · rw [hcall] at hev
    cases hev
    exact Outcome.ok.inj (hpace.symm.trans ht)

/-- The starts that have been made are as far apart as the time per operation says. -/
abbrev IsPaced (t : Timed) (half : Half) (ss : List Nat) : Prop :=
  Paced t.pace.tpo.toInt.toNat (t.th.phase half) (t.clock half) t.now ss

theorem step_paced {t t' : Timed} {half : Half} {ss : List Nat} {ev : Nat × TimedEvent}
    (ht : t.Computed) (hev : ev.2.Keeps t.pace.rate) (hp : t.IsPaced half ss)
    (h : t.step ev = .ok t') : t'.IsPaced half (ss ++ Mark.starts ev.1 (ev.2.mark half)) := by
  rw [IsPaced, step_pace ht hev h]
  obtain ⟨now, ev⟩ := ev
  obtain ⟨hnow, ⟨e, th, rfl, hth, hallow, rfl⟩ | ⟨call, pace, rfl, -, rfl⟩⟩ := step_cases h
  · exact hp.tick hnow (hallow half) (step_moves hth half)
  · exact hp.tick hnow rfl (.stay _)

/-- As long as the rate is kept. -/
theorem spaced_starts {t t' : Timed} {half : Half} {ss : List Nat} {evs : List (Nat × TimedEvent)}
    (ht : t.Computed) (hevs : ∀ ev ∈ evs, ev.2.Keeps t.pace.rate) (hp : t.IsPaced half ss)
    (h : t.run evs = .ok t') :
    Time.Spaced t.pace.tpo.toInt.toNat (ss ++ starts half evs) := by
  induction evs generalizing t ss with
  | nil =>
    rw [starts, List.flatMap_nil, List.append_nil]
    exact hp.spaced
  | cons ev evs ih =>
    obtain ⟨t₁, h₁, h⟩ := runSteps_cons h
    have hev := hevs ev List.mem_cons_self
    have hpace := step_pace ht hev h₁
    rw [starts, List.flatMap_cons, ← List.append_assoc, ← hpace]
    refine ih (step_computed ht h₁) (fun ev' hev' => ?_) (step_paced ht hev hp h₁) h
    rw [hpace]
    exact hevs ev' (List.mem_cons_of_mem ev hev')

end Timed

/-! ## 4. The rate -/

/-- Once the throttle has this rate, and as long as it is kept, at most that many operations of
the routine start in any second. -/
def EnforcesRate (rate : UInt64) (half : Half) : Prop :=
  ∀ (initialRate : UInt64) (rbuffSize boot : Nat) (t₀ t t' : Timed)
    (before evs : List (Nat × TimedEvent)),
    Timed.new initialRate rbuffSize boot = .ok t₀ → t₀.run before = .ok t → t.pace.rate = rate →
    (∀ ev ∈ evs, ev.2.Keeps rate) → t.run evs = .ok t' →
    ∀ w, (Time.within w (10 ^ 9) (starts half evs)).length ≤ rate.toNat

/-- The time per operation as a natural number. -/
theorem Pace.toNat_tpo (rate : UInt64) :
    (sec / rate.toInt64).toInt.toNat = if rate.toNat < 2 ^ 63 then 10 ^ 9 / rate.toNat else 0 := by
  rw [toInt_tpo]
  split
  · rfl
  · exact Int.toNat_of_nonpos (Int.neg_nonpos_of_nonneg (Int.natCast_nonneg _))

theorem enforcesRate_of_dvd {rate : UInt64} (hrate : 1 ≤ rate.toNat) (hdvd : rate.toNat ∣ 10 ^ 9)
    (half : Half) : EnforcesRate rate half := by
  intro initialRate rbuffSize boot t₀ t t' before evs hnew hbefore hpace hkeeps hrun w
  have ht : t.Computed := runSteps_invariant (fun _ _ _ ht h => Timed.step_computed ht h)
    (Timed.new_computed hnew) hbefore
  have hspaced := Timed.spaced_starts ht (hpace ▸ hkeeps) (Paced.nil _ _ (t.clock half) _) hrun
  have htpo : t.pace.tpo.toInt.toNat = 10 ^ 9 / rate.toNat := by
    rw [Timed.Computed, hpace, Pace.ofRate_pos hrate] at ht
    rw [← Outcome.ok.inj ht, Pace.toNat_tpo, if_pos]
    exact (Nat.le_of_dvd (by decide) hdvd).trans_lt (by decide)
  rw [htpo, List.nil_append] at hspaced
  have hle := hspaced.within_le w rate.toNat
  rw [Nat.mul_div_cancel' hdvd] at hle
  exact hle

/-- An operation of the routine, for the caller of this number. -/
def operation : Half → Nat → List Event
  | .read, k => [.read .call, .read .poll, .read (.conn ⟨[], none, none⟩), .read .copy, .read .send,
      .read (.receive k)]
  | .write, k => [.write (.call [] []), .write (.send k), .write .take, .write (.conn ⟨0, none⟩),
      .write .reply]

def wakeEvent : Half → Event
  | .read => .read .wake
  | .write => .write .wake

/-- The routine waits for its next operation, nothing is on its channel, and it has been called
so many times. -/
def Idle : Half → Nat → UDPThrottle → Prop
  | .read, k, th => th.stops = [] ∧ th.reading.loc = .loop ∧ th.reading.recv = Chan.make _ _ ∧
    th.reading.calls.length = k
  | .write, k, th => th.writing.loc = .loop ∧ th.writing.send = Chan.make _ _ ∧
    th.writing.calls.length = k

theorem run_operation {th : UDPThrottle} {half : Half} {k : Nat} (h : Idle half k th) :
    ∃ th₁ th', th.run (operation half k) = .ok th₁ ∧ th₁.step (wakeEvent half) = .ok th' ∧
      Idle half (k + 1) th' := by
  obtain ⟨⟨recv, bufs, loc, calls, results, received⟩,
    ⟨send, wloc, wcalls, accepted, written, replied⟩, done, n, stops⟩ := th
  cases half with
  | read =>
    obtain ⟨hstops, hloc, hrecv, hcalls⟩ := h
    cases hstops
    cases hloc
    cases hrecv
    cases hcalls
    simp [operation, run, runSteps, step, Reading.step, Reading.delivered, Reading.filled,
      Reading.copied, Chan.make, Chan.send, Chan.recv, Idle, wakeEvent]
  | write =>
    obtain ⟨hloc, hsend, hcalls⟩ := h
    cases hloc
    cases hsend
    cases hcalls
    simp [operation, run, runSteps, step, Writing.step, Writing.sent, Writing.answered,
      Chan.make, Chan.send, Chan.recv, Idle, wakeEvent]

theorem sleep_at_once (tpo : Int64) (now : Nat) :
    throttleOperation tpo (Time.sub now now) = tpo.toInt.toNat := by
  rw [throttleOperation_eq, Time.sub, Int.sub_self]
  exact congrArg (fun d : Int64 => d.toInt.toNat) (Int64.sub_zero tpo)

theorem Clock.allows_of_ne {c : Clock} {now : Nat} {mark : Option Mark} (h : mark ≠ some .wake) :
    c.allows now mark = true := by
  unfold allows
  split
  · exact absurd rfl h
  · rfl

namespace Timed

theorem step_op {t : Timed} {now : Nat} {ev : Event} {th : UDPThrottle} (hnow : t.now ≤ now)
    (hallow : ∀ half, (t.clock half).allows now (ev.mark half) = true)
    (h : t.th.step ev = .ok th) :
    t.step (now, .op ev) =
      .ok ⟨th, t.pace, now, fun half => (t.clock half).tick now t.pace.tpo (ev.mark half)⟩ := by
  have hguard : t.now ≤ now ∧ (t.clock .read).allows now (ev.mark .read) = true ∧
      (t.clock .write).allows now (ev.mark .write) = true := ⟨hnow, hallow .read, hallow .write⟩
  simp only [step, h, if_pos hguard]

/-- A run of the throttle without a sleep can be made in no time. -/
theorem run_at_once {t : Timed} {evs : List Event} {th : UDPThrottle} (h : t.th.run evs = .ok th)
    (hevs : ∀ half, ∀ ev ∈ evs, ev.mark half ≠ some .wake) :
    t.run (evs.map fun ev => (t.now, .op ev)) = .ok ⟨th, t.pace, t.now, fun half =>
      evs.foldl (fun c ev => c.tick t.now t.pace.tpo (ev.mark half)) (t.clock half)⟩ := by
  induction evs generalizing t with
  | nil =>
    cases h
    rfl
  | cons ev evs ih =>
    obtain ⟨th₁, h₁, h⟩ := runSteps_cons h
    have hstep := step_op (Nat.le_refl t.now)
      (fun half => Clock.allows_of_ne (hevs half ev List.mem_cons_self)) h₁
    rw [List.map_cons, run, runSteps, hstep]
    exact ih (t := ⟨th₁, t.pace, t.now, _⟩) h
      fun half ev' hev' => hevs half ev' (List.mem_cons_of_mem ev hev')

/-- An operation that takes no time, and the sleep after it. -/
def cycle (half : Half) (k now tpo : Nat) : List (Nat × TimedEvent) :=
  (operation half k).map (fun ev => (now, .op ev)) ++ [(now + tpo, .op (wakeEvent half))]

theorem run_cycle {t : Timed} {half : Half} {k : Nat} (h : Idle half k t.th) :
    ∃ t', t.run (cycle half k t.now t.pace.tpo.toInt.toNat) = .ok t' ∧ Idle half (k + 1) t'.th ∧
      t'.now = t.now + t.pace.tpo.toInt.toNat ∧ t'.pace = t.pace := by
  obtain ⟨th₁, th', hrun, hwake, hidle⟩ := run_operation h
  have hquiet : ∀ half', ∀ ev ∈ operation half k, ev.mark half' ≠ some .wake := by
    intro half'
    cases half <;> cases half' <;>
      simp [operation, Event.mark, ReadEvent.mark, WriteEvent.mark]
  refine ⟨_, runSteps_append (run_at_once hrun hquiet)
    (runSteps_singleton (step_op (Nat.le_add_right _ _) ?_ hwake)), hidle, rfl, rfl⟩
  -- the sleep of the routine has just ended; that of the other one does not matter
  have hsleep := sleep_at_once t.pace.tpo t.now
  have hwoken : (t.now + throttleOperation t.pace.tpo (Time.sub t.now t.now) ≤
      t.now + t.pace.tpo.toInt.toNat) := by rw [hsleep]
  intro half'
  cases half <;> cases half'
  · exact decide_eq_true hwoken
  · rfl
  · rfl
  · exact decide_eq_true hwoken

/-- So many of them, one after the other. -/
def cycles (half : Half) (tpo : Nat) : Nat → Nat → Nat → List (Nat × TimedEvent)
  | _, _, 0 => []
  | k, now, n + 1 => cycle half k now tpo ++ cycles half tpo (k + 1) (now + tpo) n

theorem run_cycles {t : Timed} {half : Half} {k : Nat} (h : Idle half k t.th) (n : Nat) :
    ∃ t', t.run (cycles half t.pace.tpo.toInt.toNat k t.now n) = .ok t' := by
  induction n generalizing t k with
  | zero => exact ⟨t, rfl⟩
  | succ n ih =>
    obtain ⟨t₁, hcycle, hidle, hnow, hpace⟩ := run_cycle h
    obtain ⟨t', hrest⟩ := ih hidle
    rw [hnow, hpace] at hrest
    exact ⟨t', runSteps_append hcycle hrest⟩

theorem starts_cycle (half : Half) (k now tpo : Nat) : starts half (cycle half k now tpo) = [now] := by
  cases half <;> rfl

theorem starts_cycles (half : Half) (tpo k now n : Nat) :
    starts half (cycles half tpo k now n) = (List.range n).map fun i => now + i * tpo := by
  induction n generalizing k now with
  | zero => rfl
  | succ n ih =>
    have happend : starts half (cycles half tpo k now (n + 1)) =
        now :: starts half (cycles half tpo (k + 1) (now + tpo) n) := by
      rw [cycles, starts, List.flatMap_append]
      exact congrArg (· ++ _) (starts_cycle half k now tpo)
    rw [happend, ih, List.range_succ_eq_map, List.map_cons, List.map_map, Nat.zero_mul, Nat.add_zero]
    refine congrArg (now :: ·) (List.map_congr_left fun i _ => ?_)
    rw [Function.comp_apply, Nat.succ_mul]
    omega

theorem cycles_keep (half : Half) (rate : UInt64) (tpo k now n : Nat) :
    ∀ ev ∈ cycles half tpo k now n, ev.2.Keeps rate := by
  induction n generalizing k now with
  | zero => exact fun _ hev => absurd hev List.not_mem_nil
  | succ n ih =>
    intro ev hev
    rcases List.mem_append.mp hev with hev | hev
    · rcases List.mem_append.mp hev with hev | hev
      · obtain ⟨e, -, rfl⟩ := List.mem_map.mp hev
        trivial
      · rw [List.mem_singleton.mp hev]
        trivial
    · exact ih (k + 1) (now + tpo) ev hev

end Timed

theorem idle_new (half : Half) (rbuffSize : Nat) : Idle half 0 (new rbuffSize) := by
  cases half with
  | read => exact ⟨rfl, rfl, rfl, rfl⟩
  | write => exact ⟨rfl, rfl, rfl⟩

/-- Where the rate does not divide a second, so many times the time per operation is less. -/
theorem mul_tpo_lt {rate : UInt64} (h : ¬ rate.toNat ∣ 10 ^ 9) :
    rate.toNat * (sec / rate.toInt64).toInt.toNat < 10 ^ 9 := by
  rw [Pace.toNat_tpo]
  split
  · refine lt_of_le_of_ne (Nat.mul_div_le _ _) fun heq => h ?_
    exact ⟨_, heq.symm⟩
  · rw [Nat.mul_zero]
    decide

/-- A throttle that has just been made at this rate. -/
def Timed.init (rate : UInt64) : Timed :=
  ⟨UDPThrottle.new 0, ⟨rate, sec / rate.toInt64⟩, 0, fun _ => ⟨0, 0⟩⟩

theorem Timed.new_eq_init {rate : UInt64} (hrate : 1 ≤ rate.toNat) : new rate 0 0 = .ok (init rate) := by
  simp only [new, Pace.ofRate_pos hrate, init]

/-- One operation more than the rate, each without any time, from when the throttle is made. -/
theorem not_enforcesRate_of_not_dvd {rate : UInt64} (hrate : 1 ≤ rate.toNat)
    (h : ¬ rate.toNat ∣ 10 ^ 9) (half : Half) : ¬ EnforcesRate rate half := by
  intro henf
  have hidle : Idle half 0 (Timed.init rate).th := idle_new half 0
  obtain ⟨t', hrun⟩ := Timed.run_cycles hidle (rate.toNat + 1)
  have hle := henf rate 0 0 _ _ t' [] _ (Timed.new_eq_init hrate) rfl rfl
    (Timed.cycles_keep half rate _ _ _ _) hrun 0
  have hall : ∀ s ∈ (List.range (rate.toNat + 1)).map fun i =>
      (Timed.init rate).now + i * (Timed.init rate).pace.tpo.toInt.toNat, s < 10 ^ 9 := by
    intro s hs
    obtain ⟨i, hi, rfl⟩ := List.mem_map.mp hs
    have hi' : i ≤ rate.toNat := Nat.le_of_lt_succ (List.mem_range.mp hi)
    rw [show (Timed.init rate).now = 0 from rfl, Nat.zero_add]
    exact (Nat.mul_le_mul_right _ hi').trans_lt (mul_tpo_lt h)
  rw [Timed.starts_cycles, Time.within_eq_self (fun _ _ => Nat.zero_le _)
    (fun s hs => (hall s hs).trans_eq (Nat.zero_add _).symm), List.length_map, List.length_range] at hle
  omega

/-- The routines keep to a rate exactly if it divides a second. -/
theorem enforces_rate_iff (rate : UInt64) (hrate : 1 ≤ rate) (half : Half) :
    EnforcesRate rate half ↔ rate.toNat ∣ 10 ^ 9 := by
  have hpos : 1 ≤ rate.toNat := UInt64.le_iff_toNat_le.mp hrate
  refine ⟨fun henf => ?_, fun hdvd => enforcesRate_of_dvd hpos hdvd half⟩
  by_contra h
  exact not_enforcesRate_of_not_dvd hpos h half henf

/-- A hundred operations a second. -/
theorem hundred_enforced : EnforcesRate 100 .read ∧ EnforcesRate 100 .write :=
  ⟨(enforces_rate_iff 100 (by decide) .read).mpr (by decide),
    (enforces_rate_iff 100 (by decide) .write).mpr (by decide)⟩

/-- At three operations a second, the time per operation is 333333333 nanoseconds, and the fourth
operation starts a nanosecond before the second is over. -/
theorem three_not_enforced :
    (∃ t t' evs, Timed.new 3 0 0 = .ok t ∧ t.run evs = .ok t' ∧
      starts .read evs = [0, 333333333, 666666666, 999999999]) ∧
    ¬ EnforcesRate 3 .read ∧ ¬ EnforcesRate 3 .write := by
  have hidle : Idle .read 0 (Timed.init 3).th := idle_new .read 0
  obtain ⟨t', hrun⟩ := Timed.run_cycles hidle 4
  refine ⟨⟨_, t', _, rfl, hrun, ?_⟩, ?_, ?_⟩
  · rw [Timed.starts_cycles]
    decide
  · exact not_enforcesRate_of_not_dvd (by decide) (by decide) .read
  · exact not_enforcesRate_of_not_dvd (by decide) (by decide) .write

end UDPThrottle

end Concord
