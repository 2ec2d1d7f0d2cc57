import Concord.Go.Steps
import Mathlib.Algebra.Order.Ring.Int

/-!
# The rate of a throttle

`rate` and `tpo` of `core/throttle/udp_throttle.go`, with what `NewUDPThrottle`, `SetThroughput` and
`ScaleThroughput` make of them. The rate is a `uint64`, and the time per operation is computed
from it as an `int64`: a rate from 2^63 on is a negative divisor, a scaled rate is one modulo 2^64,
and it can come to zero.

1. `Pace.exists_sound_iff`: the time per operation is the one that belongs to the rate exactly if
   the rate is below 2^64 - 10^9.
2. `arithmetic_sound_iff`: a run is sound exactly if the rates that it should have are all below
   that.
-/

namespace Concord

open Go

namespace UDPThrottle

/-! ## 1. Rates -/

/-- `sec`: nanoseconds in a second. -/
def sec : Int64 := 1000000000

/-- The fields `rate` and `tpo`. -/
structure Pace where
  rate : UInt64
  tpo : Int64
  deriving DecidableEq

/-- Calls that change the rate. -/
inductive RateOp where
  | setThroughput (rate : UInt64)
  | scaleThroughput (f : UInt8)
  deriving DecidableEq

namespace Pace

/-- The rate is set, and the time per operation is computed; a division by zero panics. -/
def ofRate (rate : UInt64) : Outcome Pace :=
  if rate.toInt64 = 0 then .crash else .ok ⟨rate, sec / rate.toInt64⟩

/-- `Throughput`. -/
def throughput (p : Pace) : UInt64 := p.rate

/-- `SetThroughput` and `ScaleThroughput`. -/
def step (p : Pace) : RateOp → Outcome Pace
  | .setThroughput rate => ofRate rate
  | .scaleThroughput f => ofRate (p.rate.toInt64 * f.toUInt64.toInt64).toUInt64

/-- The rate is positive, and `tpo` is a second divided by it, rounded down. -/
structure Sound (p : Pace) : Prop where
  rate : 1 ≤ p.rate.toNat
  nonneg : 0 ≤ p.tpo.toInt
  exact : p.tpo.toInt = (10 ^ 9 / p.rate.toNat : Nat)

/-- The rate as the divisor of `sec`. -/
theorem toInt_toInt64 (rate : UInt64) :
    rate.toInt64.toInt =
      if rate.toNat < 2 ^ 63 then (rate.toNat : Int) else rate.toNat - 2 ^ 64 := by
  have h : rate.toInt64.toInt = rate.toBitVec.toInt := rfl
  rw [h, BitVec.toInt_eq_toNat_cond]
  have hn : rate.toBitVec.toNat = rate.toNat := rfl
  rw [hn]
  split
  · rw [if_pos (by omega)]
  · rw [if_neg (by omega)]
    rfl

theorem toInt64_ne_zero {rate : UInt64} (h : 1 ≤ rate.toNat) : rate.toInt64 ≠ 0 := by
  intro h0
  have hlt := rate.toNat_lt
  have hint := toInt_toInt64 rate
  rw [h0] at hint
  split at hint
  · have : (0 : Int64).toInt = 0 := rfl
    omega
  · have : (0 : Int64).toInt = 0 := rfl
    omega

theorem ofRate_pos {rate : UInt64} (h : 1 ≤ rate.toNat) :
    ofRate rate = .ok ⟨rate, sec / rate.toInt64⟩ := by
  rw [ofRate, if_neg (toInt64_ne_zero h)]

/-- The quotient is one of integers, rounded towards zero: nothing wraps. -/
theorem toInt_sec_div (x : Int64) : (sec / x).toInt = (10 ^ 9 : Int).tdiv x.toInt := by
  have hsec : sec.toInt = 10 ^ 9 := rfl
  have hle := Int.natAbs_tdiv_le_natAbs (10 ^ 9) x.toInt
  rw [Int64.toInt_div, hsec]
  refine Int.bmod_eq_of_le ?_ ?_
  · omega
  · omega

theorem toInt_tpo (rate : UInt64) :
    (sec / rate.toInt64).toInt =
      if rate.toNat < 2 ^ 63 then ((10 ^ 9 / rate.toNat : Nat) : Int)
      else -((10 ^ 9 / (2 ^ 64 - rate.toNat) : Nat) : Int) := by
  have hlt := rate.toNat_lt
  rw [toInt_sec_div, toInt_toInt64]
  split
  · rfl
  · have hneg : ((rate.toNat : Int) - 2 ^ 64) = -((2 ^ 64 - rate.toNat : Nat) : Int) := by omega
    rw [hneg, Int.tdiv_neg]
    rfl

/-- A rate and its time per operation belong together unless the rate is one of the 10^9 largest
ones. -/
theorem exists_sound_iff {rate : UInt64} (h : 1 ≤ rate.toNat) :
    (∃ p, ofRate rate = .ok p ∧ p.Sound) ↔ rate.toNat + 10 ^ 9 < 2 ^ 64 := by
  have hlt := rate.toNat_lt
  have htpo := toInt_tpo rate
  rw [ofRate_pos h]
  constructor
  · rintro ⟨p, hp, hs⟩
    cases hp
    have hnonneg : 0 ≤ (sec / rate.toInt64).toInt := hs.nonneg
    rw [htpo] at hnonneg
    split at hnonneg
    · omega
    · -- the quotient is not negative only if it is zero
      have hzero : 10 ^ 9 / (2 ^ 64 - rate.toNat) = 0 :=
        Int.natCast_nonpos_iff.mp (Int.neg_nonneg.mp hnonneg)
      rw [Nat.div_eq_zero_iff] at hzero
      omega
  · intro hsmall
    have hexact : (sec / rate.toInt64).toInt = ((10 ^ 9 / rate.toNat : Nat) : Int) := by
      rw [htpo]
      split
      · rfl
      · rw [Nat.div_eq_of_lt (by omega), Nat.div_eq_of_lt (by omega)]
        rfl
    exact ⟨_, rfl, h, hexact ▸ Int.natCast_nonneg _, hexact⟩

theorem toNat_scaled (p : Pace) (f : UInt8) :
    (p.rate.toInt64 * f.toUInt64.toInt64).toUInt64.toNat =
      p.rate.toNat * f.toNat % 2 ^ 64 := by
  rw [Int64.toUInt64_mul, UInt64.toUInt64_toInt64, UInt64.toUInt64_toInt64, UInt64.toNat_mul,
    UInt8.toNat_toUInt64]

end Pace

/-! ## 2. Runs -/

/-- The argument is at least one. -/
def RateOp.Positive : RateOp → Prop
  | .setThroughput rate => 1 ≤ rate
  | .scaleThroughput f => 1 ≤ f

/-- The rate that a throttle with this rate should have after the call. -/
def RateOp.exactRate (rate : Nat) : RateOp → Nat
  | .setThroughput rate' => rate'.toNat
  | .scaleThroughput f => f.toNat * rate

/-- If the call has scaled the rate, the new one is exactly so many times the old one. -/
def RateOp.Exact (p p' : Pace) : RateOp → Prop
  | .setThroughput _ => True
  | .scaleThroughput f => p'.throughput.toNat = f.toNat * p.throughput.toNat

/-- The run from what the last call has come to: nothing panics, every scaling is exact, and every
state is sound. -/
def SoundRun : Outcome Pace → List RateOp → Prop
  | .ok p, [] => p.Sound
  | .ok p, op :: ops =>
    p.Sound ∧ (∃ p', p.step op = .ok p' ∧ op.Exact p p') ∧ SoundRun (p.step op) ops
  | _, _ => False

/-- What a call comes to, if the rate it should lead to is below the bound. -/
theorem Pace.step_of_lt {p : Pace} {op : RateOp} (hp : 1 ≤ p.rate.toNat) (hop : op.Positive)
    (hlt : op.exactRate p.rate.toNat < 2 ^ 64) :
    ∃ rate : UInt64, 1 ≤ rate.toNat ∧ rate.toNat = op.exactRate p.rate.toNat ∧
      p.step op = ofRate rate := by
  cases op with
  | setThroughput rate => exact ⟨rate, UInt64.le_iff_toNat_le.mp hop, rfl, rfl⟩
  | scaleThroughput f =>
    have hf : 1 ≤ f.toNat := UInt8.le_iff_toNat_le.mp hop
    rw [RateOp.exactRate, Nat.mul_comm] at hlt
    have hrate : (p.rate.toInt64 * f.toUInt64.toInt64).toUInt64.toNat = p.rate.toNat * f.toNat :=
      (p.toNat_scaled f).trans (Nat.mod_eq_of_lt hlt)
    refine ⟨_, ?_, ?_, rfl⟩
    · rw [hrate]
      exact Nat.mul_pos hp hf
    · rw [hrate, RateOp.exactRate, Nat.mul_comm]

/-- A scaling that is exact has not wrapped. -/
theorem RateOp.Exact.lt {p p' : Pace} {op : RateOp} (h : op.Exact p p') :
    op.exactRate p.rate.toNat < 2 ^ 64 := by
  cases op with
  | setThroughput rate => exact rate.toNat_lt
  | scaleThroughput f =>
    have hlt := p'.throughput.toNat_lt
    rw [h] at hlt
    exact hlt

/-- From a state with a positive rate on. -/
theorem soundRun_iff {rate : UInt64} {ops : List RateOp} (hrate : 1 ≤ rate.toNat)
    (hops : ∀ op ∈ ops, op.Positive) :
    SoundRun (Pace.ofRate rate) ops ↔
      ∀ r ∈ ops.scanl RateOp.exactRate rate.toNat, r + 10 ^ 9 < 2 ^ 64 := by
  induction ops generalizing rate with
  | nil =>
    rw [List.scanl_nil, List.forall_mem_singleton, ← Pace.exists_sound_iff hrate,
      Pace.ofRate_pos hrate]
    exact ⟨fun h => ⟨_, rfl, h⟩, fun ⟨_, hp, hs⟩ => by cases hp; exact hs⟩
  | cons op ops ih =>
    rw [List.scanl_cons, List.forall_mem_cons, ← Pace.exists_sound_iff hrate,
      Pace.ofRate_pos hrate]
    have hop := hops op List.mem_cons_self
    have hrest := fun op h => hops op (List.mem_cons_of_mem _ h)
    constructor
    · rintro ⟨hs, ⟨p', hstep, hexact⟩, hrun⟩
      obtain ⟨rate', hpos, heq, hof⟩ := Pace.step_of_lt hrate hop hexact.lt
      rw [hof, ih hpos hrest, heq] at hrun
      exact ⟨⟨_, rfl, hs⟩, hrun⟩
    · rintro ⟨⟨p, hp, hs⟩, hall⟩
      cases hp
      have hhead : op.exactRate rate.toNat + 10 ^ 9 < 2 ^ 64 := by
        refine hall _ ?_
        cases ops with
        | nil => exact List.mem_singleton_self _
        | cons op' ops =>
          rw [List.scanl_cons]
          exact List.mem_cons_self
      obtain ⟨rate', hpos, heq, hof⟩ := Pace.step_of_lt (p := ⟨rate, sec / rate.toInt64⟩) hrate hop
        (Nat.lt_of_le_of_lt (Nat.le_add_right _ _) hhead)
      have hrun : SoundRun (Pace.ofRate rate') ops := by
        rw [ih hpos hrest, heq]
        exact hall
      rw [← hof] at hrun
      refine ⟨hs, ⟨_, hof.trans (Pace.ofRate_pos hpos), ?_⟩, hrun⟩
      cases op with
      | setThroughput rate => trivial
      | scaleThroughput f => exact heq

/-- From `NewUDPThrottle` on, along any calls with arguments of at least one: the run is sound
exactly if every rate that it should come to is below 2^64 - 10^9. -/
theorem arithmetic_sound_iff (initialRate : UInt64) (ops : List RateOp) (hrate : 1 ≤ initialRate)
    (hops : ∀ op ∈ ops, op.Positive) :
    SoundRun (Pace.ofRate initialRate) ops ↔
      ∀ r ∈ ops.scanl RateOp.exactRate initialRate.toNat, r + 10 ^ 9 < 2 ^ 64 :=
  soundRun_iff (UInt64.le_iff_toNat_le.mp hrate) hops

/-- Starting at a hundred, doubled, and set to a thousand. -/
theorem hundred_sound :
    SoundRun (Pace.ofRate 100) [.scaleThroughput 2, .setThroughput 1000] := by
  have hops : ∀ op ∈ [RateOp.scaleThroughput 2, .setThroughput 1000], op.Positive := by
    intro op hop
    rcases List.mem_cons.mp hop with rfl | hop
    · exact (by decide : (1 : UInt8) ≤ 2)
    · rw [List.mem_singleton.mp hop]
      exact (by decide : (1 : UInt64) ≤ 1000)
  exact (arithmetic_sound_iff 100 _ (by decide) hops).mpr (by decide)

/-- A rate of 2^63 that is doubled comes to zero, and the throttle panics; the largest rate has a
negative time per operation; and a wrapped rate is not the scaled one. -/
theorem scaling_not_sound :
    RateOp.Positive (.scaleThroughput 2) ∧
    ¬ SoundRun (Pace.ofRate 0x8000000000000000) [.scaleThroughput 2] ∧
    (∃ p, Pace.ofRate 0x8000000000000000 = .ok p ∧ p.step (.scaleThroughput 2) = .crash) ∧
    ¬ SoundRun (Pace.ofRate 0xFFFFFFFFFFFFFFFF) [] ∧
    ¬ SoundRun (Pace.ofRate 0x8000000000000001) [.scaleThroughput 2] := by
  refine ⟨(by decide : (1 : UInt8) ≤ 2), fun h => ?_, ⟨_, rfl, rfl⟩, fun h => ?_, fun h => ?_⟩
  · obtain ⟨-, ⟨p', hstep, -⟩, -⟩ := h
    cases hstep
  · have hneg : ¬ 0 ≤ (sec / UInt64.toInt64 0xFFFFFFFFFFFFFFFF).toInt := by decide
    exact hneg (Pace.Sound.nonneg h)
  · obtain ⟨-, ⟨p', hstep, hexact⟩, -⟩ := h
    cases hstep
    have hne : ¬ UInt64.toNat 2 = UInt8.toNat 2 * UInt64.toNat 0x8000000000000001 := by decide
    exact hne hexact

end UDPThrottle

end Concord
