import Mathlib.Data.List.Lex

/-!
# Byte strings and UTF-8

A Go `string` or `[]byte` is a list of bytes. Nothing makes a Go string valid
UTF-8, so every consumer that decodes runes has to say what it does with an
ill-formed sequence. The standard library's answer is always the same: the
offending byte has width one and stands for U+FFFD.

* `runeLen` is the width `utf8.DecodeRune` reports (`0` for an error).
* `toValid` replaces every ill-formed byte by U+FFFD, as `[]rune` conversion,
  `strings.ToValidUTF8` with the replacement character, and the JSON encoder
  and decoder do.
* `toValid_idem`: one pass is enough.
-/

namespace Go

abbrev Bytes := List UInt8

/-- The bytes of an ASCII literal. -/
def ascii (s : String) : Bytes := s.toList.map fun c => UInt8.ofNat c.toNat

namespace Utf8

/-- A continuation byte. -/
def isTail (b : UInt8) : Bool := 0x80 ≤ b && b ≤ 0xBF

/-- Least second byte after the lead byte `a` (overlong forms are excluded). -/
def secondLo (a : UInt8) : UInt8 := if a = 0xE0 then 0xA0 else if a = 0xF0 then 0x90 else 0x80

/-- Greatest second byte after the lead byte `a` (surrogates and code points
above U+10FFFF are excluded). -/
def secondHi (a : UInt8) : UInt8 := if a = 0xED then 0x9F else if a = 0xF4 then 0x8F else 0xBF

/-- The width of the rune that starts with `a` and goes on in `rest`, or `0`
when no well-formed rune starts here. -/
def runeLen (a : UInt8) (rest : Bytes) : Nat :=
  if a < 0x80 then 1
  else if 0xC2 ≤ a && a ≤ 0xDF then
    match rest with
    | b :: _ => if isTail b then 2 else 0
    | _ => 0
  else if 0xE0 ≤ a && a ≤ 0xEF then
    match rest with
    | b :: c :: _ => if secondLo a ≤ b && b ≤ secondHi a && isTail c then 3 else 0
    | _ => 0
  else if 0xF0 ≤ a && a ≤ 0xF4 then
    match rest with
    | b :: c :: d :: _ =>
      if secondLo a ≤ b && b ≤ secondHi a && isTail c && isTail d then 4 else 0
    | _ => 0
  else 0

/-- U+FFFD. -/
def runeError : Bytes := [0xEF, 0xBF, 0xBD]

/-- `toValid` inside a rune: the next `n` bytes are the rest of a well-formed
rune and are copied. -/
def toValidFrom : Nat → Bytes → Bytes
  | _, [] => []
  | n + 1, a :: rest => a :: toValidFrom n rest
  | 0, a :: rest =>
    match runeLen a rest with
    | 0 => runeError ++ toValidFrom 0 rest
    | n + 1 => a :: toValidFrom n rest

/-- Every ill-formed byte replaced by U+FFFD. -/
def toValid (s : Bytes) : Bytes := toValidFrom 0 s

/-- `utf8.Valid`. -/
def Valid (s : Bytes) : Prop := toValid s = s

instance (s : Bytes) : Decidable (Valid s) := inferInstanceAs (Decidable (toValid s = s))

@[simp] theorem toValid_nil : toValid [] = [] := rfl

theorem valid_nil : Valid [] := rfl

/-! ## One pass is enough -/

/-- The width of a rune is decided by the bytes of the rune. -/
theorem runeLen_append_take {a : UInt8} {rest : Bytes} {n : Nat} (h : runeLen a rest = n + 1)
    (tail : Bytes) : runeLen a (rest.take n ++ tail) = n + 1 ∧ n ≤ rest.length := by
  unfold runeLen at h ⊢
  split at h
  · next ha =>
    simp only [Nat.right_eq_add] at h
    subst h
    simp [ha]
  · next ha =>
    split at h
    · next h2 =>
      split at h
      · next b r =>
        split at h
        · next hb =>
          obtain rfl : n = 1 := by omega
          simp [ha, h2, hb]
        · omega
      · omega
    · next h2 =>
      split at h
      · next h3 =>
        split at h
        · next b c r =>
          split at h
          · next hb =>
            obtain rfl : n = 2 := by omega
            simp only [Bool.and_eq_true, decide_eq_true_eq] at hb
            simp [ha, h2, h3, hb]
          · omega
        · omega
      · next h3 =>
        split at h
        · next h4 =>
          split at h
          · next b c d r =>
            split at h
            · next hb =>
              obtain rfl : n = 3 := by omega
              simp only [Bool.and_eq_true, decide_eq_true_eq] at hb
              simp [ha, h2, h3, h4, hb]
            · omega
          · omega
        · omega

theorem toValidFrom_split (n : Nat) (s : Bytes) (h : n ≤ s.length) :
    toValidFrom n s = s.take n ++ toValid (s.drop n) := by
  induction n generalizing s with
  | zero => simp [toValid]
  | succ n ih =>
    cases s with
    | nil => simp at h
    | cons a rest =>
      simp only [toValidFrom, List.take_succ_cons, List.drop_succ_cons, List.cons_append]
      rw [ih rest (by simpa using h)]

/-- The bytes of a rune after a lead byte are continuation bytes. -/
theorem runeLen_tails {a : UInt8} {rest : Bytes} {n : Nat} (h : runeLen a rest = n + 1) :
    ∀ b ∈ rest.take n, 0x80 ≤ b := by
  have hlo : (0x80 : UInt8) ≤ secondLo a := by
    unfold secondLo
    split
    · decide
    · split <;> decide
  unfold runeLen at h
  split at h
  · obtain rfl : n = 0 := by omega
    simp
  · split at h
    · split at h
      · split at h
        · next hb =>
          obtain rfl : n = 1 := by omega
          simp only [isTail, Bool.and_eq_true, decide_eq_true_eq] at hb
          simpa using hb.1
        · omega
      · omega
    · split at h
      · split at h
        · split at h
          · next hb =>
            obtain rfl : n = 2 := by omega
            simp only [isTail, Bool.and_eq_true, decide_eq_true_eq] at hb
            simpa using ⟨UInt8.le_trans hlo hb.1.1, hb.2.1⟩
          · omega
        · omega
      · split at h
        · split at h
          · split at h
            · next hb =>
              obtain rfl : n = 3 := by omega
              simp only [isTail, Bool.and_eq_true, decide_eq_true_eq] at hb
              simpa using ⟨UInt8.le_trans hlo hb.1.1.1, hb.1.2.1, hb.2.1⟩
            · omega
          · omega
        · omega

/-- A well-formed rune in front is kept, whatever follows it. -/
theorem toValid_rune {a : UInt8} {rest : Bytes} {n : Nat} (h : runeLen a rest = n + 1)
    (tail : Bytes) : toValid (a :: (rest.take n ++ tail)) = a :: (rest.take n ++ toValid tail) := by
  obtain ⟨hlen, hle⟩ := runeLen_append_take h tail
  have hn : (rest.take n).length = n := by rw [List.length_take]; omega
  rw [toValid, toValidFrom, hlen]
  simp only [List.cons.injEq, true_and]
  rw [toValidFrom_split n _ (by rw [List.length_append]; omega), List.take_left' hn,
    List.drop_left' hn]

theorem toValid_runeError (tail : Bytes) : toValid (runeError ++ tail) = runeError ++ toValid tail :=
  @toValid_rune 0xEF [0xBF, 0xBD] 2 (by decide) tail

/-- The first rune of `s`, or one ill-formed byte, and what is left. -/
theorem toValid_cases (a : UInt8) (rest : Bytes) :
    (runeLen a rest = 0 ∧ toValid (a :: rest) = runeError ++ toValid rest) ∨
    ∃ n, runeLen a rest = n + 1 ∧ n ≤ rest.length ∧
      toValid (a :: rest) = a :: (rest.take n ++ toValid (rest.drop n)) := by
  cases h : runeLen a rest with
  | zero =>
    left
    refine ⟨rfl, ?_⟩
    rw [toValid, toValidFrom, h]
    rfl
  | succ n =>
    right
    have hle := (runeLen_append_take h []).2
    refine ⟨n, rfl, hle, ?_⟩
    have := toValid_rune h (rest.drop n)
    rwa [List.take_append_drop] at this

theorem toValid_eq_nil {s : Bytes} : toValid s = [] ↔ s = [] := by
  cases s with
  | nil => exact iff_of_true rfl rfl
  | cons a rest =>
    refine iff_of_false ?_ (List.cons_ne_nil a rest)
    rcases toValid_cases a rest with ⟨-, h⟩ | ⟨n, -, -, h⟩
    · rw [h]
      exact List.append_ne_nil_of_left_ne_nil (by decide) _
    · rw [h]
      exact List.cons_ne_nil _ _

theorem toValid_idem (s : Bytes) : toValid (toValid s) = toValid s := by
  induction hs : s.length using Nat.strong_induction_on generalizing s with
  | _ len ih =>
    cases s with
    | nil => rfl
    | cons a rest =>
      subst hs
      rcases toValid_cases a rest with ⟨_, h⟩ | ⟨n, hn, hle, h⟩
      · rw [h, toValid_runeError, ih rest.length (by simp) rest rfl]
      · have hlt : (rest.drop n).length < (a :: rest).length := by
          rw [List.length_drop, List.length_cons]
          omega
        rw [h, toValid_rune hn, ih _ hlt _ rfl]

theorem valid_toValid (s : Bytes) : Valid (toValid s) := toValid_idem s

theorem valid_of_ascii {s : Bytes} (h : ∀ b ∈ s, b < 0x80) : Valid s := by
  induction s with
  | nil => rfl
  | cons a rest ih =>
    have ha : runeLen a rest = 0 + 1 := by simp [runeLen, h a List.mem_cons_self]
    have hr := ih fun b hb => h b (List.mem_cons_of_mem _ hb)
    have := toValid_rune ha rest
    simp only [List.take_zero, List.nil_append] at this
    rw [Valid, this, hr]

/-- A string that is coerced to ASCII is that ASCII string. -/
theorem eq_of_toValid_ascii {s k : Bytes} (hk : ∀ b ∈ k, b < 0x80) (h : toValid s = k) : s = k := by
  induction s generalizing k with
  | nil => exact h
  | cons a rest ih =>
    rcases toValid_cases a rest with ⟨-, hs⟩ | ⟨n, hn, hle, hs⟩
    · -- the replacement character is not ASCII
      have hmem : (0xEF : UInt8) ∈ k := by
        rw [← h, hs]
        exact List.mem_append_left _ (by decide)
      exact absurd (hk _ hmem) (by decide)
    · have htails := runeLen_tails hn
      cases n with
      | zero =>
        rw [List.take_zero, List.drop_zero, List.nil_append] at hs
        rw [hs] at h
        subst h
        rw [← ih (fun b hb => hk b (List.mem_cons_of_mem _ hb)) rfl]
      | succ n =>
        cases rest with
        | nil => cases hle
        | cons b rest =>
          have hb : 0x80 ≤ b := htails b List.mem_cons_self
          have hmem : b ∈ k := by
            rw [← h, hs, List.take_succ_cons, List.cons_append]
            exact List.mem_cons_of_mem _ List.mem_cons_self
          exact absurd (hk b hmem) (UInt8.not_lt.mpr hb)

end Utf8

end Go
