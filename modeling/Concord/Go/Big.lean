import Concord.Go.Json
import Mathlib.Data.Nat.Digits.Lemmas

/-!
# `math/big`

* `bigBytes` is `(*big.Int).Bytes`: big-endian, without leading zeros.
* `decimal` is the decimal text of a natural number, `bigText` the JSON text of
  a `*big.Int`, and `parseBig` reads a JSON number token as
  `(*big.Int).UnmarshalJSON` does: fractions and exponents are refused.
* `parseBig_decimal` and `isNumber_decimal`: a decimal text is a JSON number and
  is read back as the number it was made from.
-/

namespace Go

def bigBytes (n : Nat) : Bytes := (Nat.digits 256 n).reverse.map UInt8.ofNat

def digitChar (d : Nat) : UInt8 := UInt8.ofNat (0x30 + d)

def decimal (n : Nat) : Bytes :=
  if n = 0 then [0x30] else (Nat.digits 10 n).reverse.map digitChar

def bigText : Int → Bytes
  | .ofNat n => decimal n
  | .negSucc n => 0x2D :: decimal (n + 1)

/-- The value of a text of decimal digits. -/
def decimalVal (ds : Bytes) : Nat := ds.foldl (fun n d => d.toNat - 0x30 + 10 * n) 0

def parseDigits (ds : Bytes) : Option Nat :=
  if ds ≠ [] ∧ ds.all Json.isDigit then some (decimalVal ds) else none

def parseBig : Bytes → Option Int
  | 0x2D :: ds => (parseDigits ds).map fun n => -Int.ofNat n
  | ds => (parseDigits ds).map Int.ofNat

/-! ## Reading a decimal text back -/

theorem isDigit_digitChar : ∀ d, d < 10 → Json.isDigit (digitChar d) = true := by decide

theorem digitChar_toNat : ∀ d, d < 10 → (digitChar d).toNat - 0x30 = d := by decide

theorem decimal_all_digits (n : Nat) : (decimal n).all Json.isDigit = true := by
  unfold decimal
  split
  · decide
  · rw [List.all_eq_true]
    intro c hc
    obtain ⟨d, hd, rfl⟩ := List.mem_map.mp hc
    exact isDigit_digitChar d (Nat.digits_lt_base (by decide) (List.mem_reverse.mp hd))

theorem decimal_ne_nil (n : Nat) : decimal n ≠ [] := by
  unfold decimal
  split
  · simp
  · next h => simpa [Nat.digits_ne_nil_iff_ne_zero] using h

theorem decimalVal_decimal (n : Nat) : decimalVal (decimal n) = n := by
  unfold decimal
  split
  · next h => rw [h]; decide
  · have hfold : decimalVal ((Nat.digits 10 n).reverse.map digitChar) =
        (Nat.digits 10 n).foldr (fun x y => x + 10 * y) 0 := by
      rw [decimalVal, List.foldl_map, List.foldl_reverse]
      refine List.foldr_ext _ _ _ fun d hd m => ?_
      rw [digitChar_toNat d (Nat.digits_lt_base (by decide) hd)]
    rw [hfold]
    have := Nat.ofDigits_digits 10 n
    rw [Nat.ofDigits_eq_foldr] at this
    exact_mod_cast this

theorem parseDigits_decimal (n : Nat) : parseDigits (decimal n) = some n := by
  rw [parseDigits, if_pos ⟨decimal_ne_nil n, decimal_all_digits n⟩, decimalVal_decimal]

theorem parseBig_decimal (n : Nat) : parseBig (decimal n) = some (Int.ofNat n) := by
  cases hd : decimal n with
  | nil => exact absurd hd (decimal_ne_nil n)
  | cons b ds =>
    have hb : b ≠ 0x2D := by
      rintro rfl
      have := decimal_all_digits n
      rw [hd] at this
      exact absurd this (by simp [Json.isDigit])
    have hparse : parseBig (b :: ds) = (parseDigits (b :: ds)).map Int.ofNat := by
      unfold parseBig
      split
      · next heq => exact absurd (List.cons.inj heq).1 hb
      · rfl
    rw [hparse, ← hd, parseDigits_decimal, Option.map_some]

/-! ## A decimal text is a JSON number -/

theorem foldlM_int {ds : Bytes} (h : ∀ d ∈ ds, Json.isDigit d = true) :
    ds.foldlM Json.NumState.step .int = some .int := by
  induction ds with
  | nil => rfl
  | cons d ds ih =>
    have hd : Json.NumState.step .int d = some .int := by
      simp [Json.NumState.step, h d List.mem_cons_self]
    rw [List.foldlM_cons, hd]
    exact ih fun e he => h e (List.mem_cons_of_mem _ he)

theorem isNumber_decimal (n : Nat) : Json.isNumber (decimal n) = true := by
  by_cases h : n = 0
  · rw [h]
    decide
  · have hdef : decimal n = (Nat.digits 10 n).reverse.map digitChar := by rw [decimal, if_neg h]
    have hne : Nat.digits 10 n ≠ [] := Nat.digits_ne_nil_iff_ne_zero.mpr h
    obtain ⟨ds, d, hds⟩ : ∃ ds d, Nat.digits 10 n = ds ++ [d] :=
      ⟨_, _, (List.dropLast_append_getLast hne).symm⟩
    have hd10 : d < 10 := Nat.digits_lt_base (b := 10) (m := n) (by decide) (by rw [hds]; simp)
    have hd0 : d ≠ 0 := by
      have := Nat.getLast_digit_ne_zero 10 h
      simpa [hds] using this
    have hfirst : Json.NumState.first (digitChar d) = some .int := by
      have : ∀ d, d < 10 → d ≠ 0 → Json.NumState.first (digitChar d) = some .int := by decide
      exact this d hd10 hd0
    have hrest : ∀ c ∈ ds.reverse.map digitChar, Json.isDigit c = true := by
      intro c hc
      obtain ⟨e, he, rfl⟩ := List.mem_map.mp hc
      have he' : e ∈ Nat.digits 10 n := by
        rw [hds]
        exact List.mem_append_left _ (List.mem_reverse.mp he)
      exact isDigit_digitChar e (Nat.digits_lt_base (by decide) he')
    rw [hdef, hds, List.reverse_append, List.reverse_singleton, List.singleton_append,
      List.map_cons, Json.isNumber, hfirst, Option.bind_some, foldlM_int hrest]
    rfl

end Go
