import Concord.Go.Big

/-!
# `time`

Instants are nanoseconds on the monotonic clock, and a duration is an `int64`.

* `sub` is `time.Time.Sub`, which saturates.
* `nanosText` is `fmt.Sprintf("%dns", d)`, and `parseDuration` is `time.ParseDuration` on texts
  that are one whole number with its unit; signs, fractions and sums of several parts are not
  read. `parseDuration_nanosText`: a positive duration is read back.
* `Spaced g` says of a list of instants that each is at least `g` after the one before, and
  `Spaced.countP_le` bounds how many of them are in a window.
-/

namespace Go.Time

/-! ## Durations -/

/-- `now.Sub(start)`. -/
def sub (now start : Nat) : Int64 := Int64.ofIntClamp ((now : Int) - start)

def nanosText (d : Int64) : Bytes := bigText d.toInt ++ ascii "ns"

/-- Nanoseconds in a unit. -/
def unitOf (unit : Bytes) : Option Nat :=
  if unit = ascii "ns" then some 1
  else if unit = ascii "us" then some (10 ^ 3)
  else if unit = ascii "ms" then some (10 ^ 6)
  else if unit = ascii "s" then some (10 ^ 9)
  else if unit = ascii "m" then some (60 * 10 ^ 9)
  else if unit = ascii "h" then some (3600 * 10 ^ 9)
  else none

def parseDuration (s : Bytes) : Option Int64 :=
  match parseDigits (s.takeWhile Json.isDigit), unitOf (s.dropWhile Json.isDigit) with
  | some n, some unit => if n * unit < 2 ^ 63 then some (Int64.ofNat (n * unit)) else none
  | _, _ => none

/-- A difference that fits is not cut off. -/
theorem toInt_sub_of_lt {now start : Nat} (hle : start ≤ now) (hlt : now - start < 2 ^ 63) :
    (sub now start).toInt = (now - start : Nat) := by
  have hmin : Int64.minValue.toInt = -2 ^ 63 := rfl
  have hmax : Int64.maxValue.toInt = 2 ^ 63 - 1 := rfl
  rw [sub, Int64.toInt_ofIntClamp]
  · omega
  · omega
  · omega

theorem parseDuration_nanosText {d : Int64} (h : 0 < d.toInt) :
    parseDuration (nanosText d) = some d := by
  obtain ⟨n, hn⟩ := Int.eq_ofNat_of_zero_le (Int.le_of_lt h)
  have hdigits : ∀ b ∈ decimal n, Json.isDigit b = true :=
    List.all_eq_true.mp (decimal_all_digits n)
  have htake : (decimal n ++ ascii "ns").takeWhile Json.isDigit = decimal n := by
    rw [List.takeWhile_append_of_pos hdigits]
    exact List.append_nil _
  have hdrop : (decimal n ++ ascii "ns").dropWhile Json.isDigit = ascii "ns" :=
    List.dropWhile_append_of_pos hdigits
  have hlt : n * 1 < 2 ^ 63 := by
    have hmax : Int64.maxValue.toInt = 2 ^ 63 - 1 := rfl
    have hle := d.toInt_le
    omega
  have hd : Int64.ofNat (n * 1) = d := by
    rw [Nat.mul_one, ← Int64.ofInt_eq_ofNat, ← hn, Int64.ofInt_toInt]
  have htext : nanosText d = decimal n ++ ascii "ns" := by
    rw [nanosText, hn]
    rfl
  rw [parseDuration, htext, htake, hdrop, parseDigits_decimal]
  exact (if_pos hlt).trans (congrArg some hd)

example : parseDuration (ascii "15ms") = some 15000000 := by decide

/-! ## Windows -/

/-- Each instant is at least `g` after every earlier one. -/
def Spaced (g : Nat) (ts : List Nat) : Prop := ts.Pairwise fun s t => s + g ≤ t

theorem Spaced.snoc {g : Nat} {ts : List Nat} {t : Nat} (h : Spaced g ts)
    (ht : ∀ s ∈ ts, s + g ≤ t) : Spaced g (ts ++ [t]) := by
  refine List.pairwise_append.mpr ⟨h, List.pairwise_singleton _ _, ?_⟩
  intro s hs t' ht'
  rw [List.mem_singleton.mp ht']
  exact ht s hs

/-- Instants inside a window of `n` times their distance are at most `n`. -/
theorem Spaced.length_le {g : Nat} {ts : List Nat} (h : Spaced g ts) {w n : Nat}
    (hlo : ∀ t ∈ ts, w ≤ t) (hhi : ∀ t ∈ ts, t < w + n * g) : ts.length ≤ n := by
  induction ts generalizing w n with
  | nil => exact Nat.zero_le n
  | cons t ts ih =>
    obtain ⟨hfirst, hrest⟩ := List.pairwise_cons.mp h
    have ht := hlo t List.mem_cons_self
    have ht' := hhi t List.mem_cons_self
    -- the window is not empty, and the rest is in the one that starts `g` later
    cases n with
    | zero => omega
    | succ n =>
      refine Nat.succ_le_succ (ih hrest (w := w + g) (fun s hs => ?_) (fun s hs => ?_))
      · exact Nat.le_trans (Nat.add_le_add_right ht g) (hfirst s hs)
      · have hs' := hhi s (List.mem_cons_of_mem t hs)
        rw [Nat.succ_mul] at hs'
        omega

/-- The instants of a half-open window. -/
def within (w len : Nat) (ts : List Nat) : List Nat := ts.filter fun t => w ≤ t && t < w + len

theorem mem_within {w len : Nat} {ts : List Nat} {t : Nat} :
    t ∈ within w len ts ↔ t ∈ ts ∧ w ≤ t ∧ t < w + len := by
  rw [within, List.mem_filter, Bool.and_eq_true, decide_eq_true_eq, decide_eq_true_eq]

theorem within_eq_self {w len : Nat} {ts : List Nat} (hlo : ∀ t ∈ ts, w ≤ t)
    (hhi : ∀ t ∈ ts, t < w + len) : within w len ts = ts := by
  refine List.filter_eq_self.mpr fun t ht => ?_
  rw [Bool.and_eq_true, decide_eq_true_eq, decide_eq_true_eq]
  exact ⟨hlo t ht, hhi t ht⟩

theorem Spaced.within_le {g : Nat} {ts : List Nat} (h : Spaced g ts) (w n : Nat) :
    (within w (n * g) ts).length ≤ n :=
  Spaced.length_le (List.Pairwise.filter _ h) (fun _ ht => (mem_within.mp ht).2.1)
    (fun _ ht => (mem_within.mp ht).2.2)

end Go.Time
