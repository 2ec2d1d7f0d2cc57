import Concord.Go.JsonCodec

/-!
# Texts put between quotes as they are

A text that a program puts into a JSON string literal without quoting it is read back as it was
exactly if it holds no quote, no backslash and no control character. Otherwise it ends the literal
or is read as an escape, and the scanner may go on to read other strings from it; but every string
it can come to holds fewer ASCII characters than the text, because those that steer the scanner are
in none of them.

* `Scan.Light n`: the strings the scanner has read, or is reading, hold less than `n` ASCII
  characters. `step_light`: reading a byte adds at most that byte.
* `settled_spliced`: what becomes of a literal with such a text at the end of an object.
-/

namespace Go.Json

/-! ## 1. ASCII characters -/

def isASCII (b : UInt8) : Bool := b < 0x80

def asciiCount (s : Bytes) : Nat := s.countP isASCII

theorem asciiCount_cons (b : UInt8) (s : Bytes) :
    asciiCount (b :: s) = asciiCount s + asciiCount [b] := by
  rw [asciiCount, asciiCount, asciiCount, List.countP_cons, List.countP_singleton]

theorem asciiCount_append (s t : Bytes) : asciiCount (s ++ t) = asciiCount s + asciiCount t :=
  List.countP_append

theorem asciiCount_singleton {b : UInt8} (h : b < 0x80) : asciiCount [b] = 1 :=
  List.countP_eq_length.mpr fun c hc => by
    rw [List.mem_singleton.mp hc]
    exact decide_eq_true h

theorem asciiCount_toValid_le (s : Bytes) : asciiCount (Utf8.toValid s) ≤ asciiCount s := by
  have key : ∀ n s, asciiCount (Utf8.toValidFrom n s) ≤ asciiCount s := by
    intro n s
    induction s generalizing n with
    | nil => cases n <;> exact Nat.le_refl _
    | cons a s ih =>
      cases n with
      | succ n =>
        rw [Utf8.toValidFrom, asciiCount_cons a, asciiCount_cons a s]
        exact Nat.add_le_add_right (ih n) _
      | zero =>
        rw [Utf8.toValidFrom]
        split
        · have herr : asciiCount Utf8.runeError = 0 := by decide
          rw [asciiCount_append, herr, Nat.zero_add, asciiCount_cons a s]
          exact (ih 0).trans (Nat.le_add_right _ _)
        · next n _ =>
          rw [asciiCount_cons a, asciiCount_cons a s]
          exact Nat.add_le_add_right (ih n) _
  exact key 0 s

theorem asciiCount_eq_zero {s : Bytes} (h : ∀ b ∈ s, 0x80 ≤ b) : asciiCount s = 0 := by
  refine List.countP_eq_zero.mpr fun b hb hlt => ?_
  exact absurd (UInt8.lt_of_le_of_lt (h b hb) (of_decide_eq_true hlt)) (UInt8.lt_irrefl _)

theorem le_ofNat {n : Nat} (h : 0x80 ≤ n) (h' : n < 0x100) : 0x80 ≤ UInt8.ofNat n := by
  rw [UInt8.le_iff_toNat_le, UInt8.toNat_ofNat_of_lt' h']
  exact h

/-- A rune has at most one ASCII character. -/
theorem asciiCount_encodeRune_le (c : Nat) : asciiCount (encodeRune c) ≤ 1 := by
  unfold encodeRune
  split
  · exact List.countP_le_length
  split
  · rw [asciiCount_eq_zero]
    · exact Nat.zero_le 1
    · simp only [List.forall_mem_cons, List.not_mem_nil, false_imp_iff, implies_true, and_true]
      exact ⟨le_ofNat (by omega) (by omega), le_ofNat (by omega) (by omega)⟩
  split
  · decide
  split
  · rw [asciiCount_eq_zero]
    · exact Nat.zero_le 1
    · simp only [List.forall_mem_cons, List.not_mem_nil, false_imp_iff, implies_true, and_true]
      exact ⟨le_ofNat (by omega) (by omega), le_ofNat (by omega) (by omega),
        le_ofNat (by omega) (by omega)⟩
  · rw [asciiCount_eq_zero]
    · exact Nat.zero_le 1
    · simp only [List.forall_mem_cons, List.not_mem_nil, false_imp_iff, implies_true, and_true]
      exact ⟨le_ofNat (by omega) (by omega), le_ofNat (by omega) (by omega),
        le_ofNat (by omega) (by omega), le_ofNat (by omega) (by omega)⟩

/-! ## 2. Literals -/

/-- At most how many ASCII characters a piece of a literal stands for. -/
def Piece.weight : Piece → Nat
  | .raw b => asciiCount [b]
  | .unit _ => 1

def weight : List Piece → Nat
  | [] => 0
  | p :: ps => p.weight + weight ps

theorem weight_append (ps qs : List Piece) : weight (ps ++ qs) = weight ps + weight qs := by
  induction ps with
  | nil => exact (Nat.zero_add _).symm
  | cons p ps ih => rw [List.cons_append, weight, weight, ih, Nat.add_assoc]

theorem weight_reverse (ps : List Piece) : weight ps.reverse = weight ps := by
  induction ps with
  | nil => rfl
  | cons p ps ih =>
    rw [List.reverse_cons, weight_append, ih, weight, weight, weight]
    omega

theorem weight_raw (s : Bytes) : weight (s.map Piece.raw) = asciiCount s := by
  induction s with
  | nil => rfl
  | cons b s ih => rw [List.map_cons, weight, ih, asciiCount_cons, Piece.weight, Nat.add_comm]

theorem asciiCount_unquote_le (ps : List Piece) : asciiCount (unquote ps) ≤ weight ps := by
  fun_induction unquote ps with
  | case1 => exact Nat.le_refl _
  | case2 b ps ih =>
    rw [asciiCount_cons, weight, Piece.weight]
    omega
  | case3 hi lo ps hpair ih =>
    have hrune := asciiCount_encodeRune_le (0x10000 + (hi - 0xD800) * 1024 + (lo - 0xDC00))
    rw [asciiCount_append, weight, weight, Piece.weight, Piece.weight]
    omega
  | case4 hi lo ps hpair ih =>
    have hrune := asciiCount_encodeRune_le hi
    rw [asciiCount_append, weight, Piece.weight]
    omega
  | case5 u ps hps ih =>
    have hrune := asciiCount_encodeRune_le u
    rw [asciiCount_append, weight, Piece.weight]
    omega

theorem asciiCount_literal_le (ps : List Piece) : asciiCount (literal ps) ≤ weight ps := by
  have h := asciiCount_unquote_le ps.reverse
  rw [weight_reverse] at h
  exact (asciiCount_toValid_le _).trans h

theorem unquote_raw (s : Bytes) : unquote (s.map Piece.raw) = s := by
  rw [unquote_flat, flatMap_raw]
  intro p hp
  obtain ⟨b, -, rfl⟩ := List.mem_map.mp hp
  trivial

theorem escByte_ascii {b c : UInt8} (h : escByte b = some c) : b < 0x80 := by
  unfold escByte at h
  split_ifs at h with h₁ h₂ h₃ h₄ h₅ h₆
  · rcases h₁ with rfl | rfl | rfl <;> decide
  · exact h₂ ▸ (by decide)
  · exact h₃ ▸ (by decide)
  · exact h₄ ▸ (by decide)
  · exact h₅ ▸ (by decide)
  · exact h₆ ▸ (by decide)

theorem hexVal_ascii {b : UInt8} {d : Nat} (h : hexVal b = some d) : b < 0x80 := by
  unfold hexVal at h
  split_ifs at h with h₁ h₂ h₃
  · exact UInt8.lt_of_le_of_lt h₁.2 (by decide)
  · exact UInt8.lt_of_le_of_lt h₂.2 (by decide)
  · exact UInt8.lt_of_le_of_lt h₃.2 (by decide)

theorem Piece.weight_raw_le (b : UInt8) : (Piece.raw b).weight ≤ 1 := List.countP_le_length

/-- A byte inside a literal adds at most itself to what the literal stands for. -/
theorem weight_strStep_le {ps ps' : List Piece} {e e' : Esc} {b : UInt8}
    (h : strStep ps e b = some (some (ps', e'))) : weight ps' ≤ weight ps + asciiCount [b] := by
  cases e with
  | plain =>
    simp only [strStep] at h
    split_ifs at h
    · cases h
    · cases h
      exact Nat.le_add_right _ _
    · cases h
      rw [weight, Piece.weight, Nat.add_comm]
  | backslash =>
    simp only [strStep] at h
    split_ifs at h
    · cases h
      exact Nat.le_add_right _ _
    · obtain ⟨c, hc, heq⟩ := Option.map_eq_some_iff.mp h
      cases heq
      rw [weight, asciiCount_singleton (escByte_ascii hc), Nat.add_comm]
      exact Nat.add_le_add_left (Piece.weight_raw_le c) _
  | hex left u =>
    obtain ⟨d, hd, heq⟩ := Option.map_eq_some_iff.mp h
    rw [asciiCount_singleton (hexVal_ascii hd)]
    split_ifs at heq
    · cases heq
      rw [weight, Piece.weight, Nat.add_comm]
    · cases heq
      exact Nat.le_add_right _ _

/-! ## 3. What the scanner has read -/

/-- A string with less than `n` ASCII characters, or no string. -/
def Light (n : Nat) : Json → Prop
  | .str s => asciiCount s < n
  | _ => True

/-- So are the values of an open object. -/
def Frame.Light (n : Nat) : Frame → Prop
  | .arr _ => True
  | .obj ms _ => ∀ m ∈ ms, m.2.Light n

/-- So is every value of an object that is being read, and the string that is being read; and a
word has no quote in it. -/
def Scan.Light (n : Nat) : Scan → Prop
  | .value _ st => ∀ f ∈ st, f.Light n
  | .key _ ms st => (∀ m ∈ ms, m.2.Light n) ∧ ∀ f ∈ st, f.Light n
  | .inKey ms st _ _ => (∀ m ∈ ms, m.2.Light n) ∧ ∀ f ∈ st, f.Light n
  | .colon ms _ st => (∀ m ∈ ms, m.2.Light n) ∧ ∀ f ∈ st, f.Light n
  | .inStr st ps _ => weight ps < n ∧ ∀ f ∈ st, f.Light n
  | .word rest v st => 0x22 ∉ rest ∧ v.Light n ∧ ∀ f ∈ st, f.Light n
  | .num _ _ st => ∀ f ∈ st, f.Light n
  | .done v st => v.Light n ∧ ∀ f ∈ st, f.Light n

section Light

variable {n n' : Nat}

theorem Light.mono (h : n ≤ n') {v : Json} (hv : v.Light n) : v.Light n' := by
  cases v with
  | str s => exact Nat.lt_of_lt_of_le hv h
  | _ => trivial

theorem Frame.Light.mono (h : n ≤ n') {f : Frame} (hf : f.Light n) : f.Light n' := by
  cases f with
  | arr es => trivial
  | obj ms k => exact fun m hm => (hf m hm).mono h

theorem Scan.Light.mono (h : n ≤ n') {s : Scan} (hs : s.Light n) : s.Light n' := by
  cases s with
  | value first st => exact fun f hf => (hs f hf).mono h
  | num n text st => exact fun f hf => (hs f hf).mono h
  | inStr st ps e => exact ⟨Nat.lt_of_lt_of_le hs.1 h, fun f hf => (hs.2 f hf).mono h⟩
  | word rest v st => exact ⟨hs.1, hs.2.1.mono h, fun f hf => (hs.2.2 f hf).mono h⟩
  | done v st => exact ⟨hs.1.mono h, fun f hf => (hs.2 f hf).mono h⟩
  | key first ms st => exact ⟨fun m hm => (hs.1 m hm).mono h, fun f hf => (hs.2 f hf).mono h⟩
  | inKey ms st ps e => exact ⟨fun m hm => (hs.1 m hm).mono h, fun f hf => (hs.2 f hf).mono h⟩
  | colon ms k st => exact ⟨fun m hm => (hs.1 m hm).mono h, fun f hf => (hs.2 f hf).mono h⟩

theorem light_cons {ms : List (Bytes × Json)} {k : Bytes} {v : Json} (hv : v.Light n)
    (hms : ∀ m ∈ ms, m.2.Light n) : ∀ m ∈ (k, v) :: ms, m.2.Light n :=
  List.forall_mem_cons.mpr ⟨hv, hms⟩

theorem beginValue_light {b : UInt8} {st : List Frame} {s' : Scan} (hn : b = 0x22 → 0 < n)
    (hst : ∀ f ∈ st, f.Light n) (h : beginValue b st = some s') : s'.Light n := by
  unfold beginValue at h
  split at h
  · next hb =>
    cases h
    exact ⟨hn hb, hst⟩
  split at h
  · split at h
    · cases h
      exact ⟨(fun m hm => absurd hm List.not_mem_nil), hst⟩
    · cases h
  split at h
  · split at h
    · cases h
      exact List.forall_mem_cons.mpr ⟨trivial, hst⟩
    · cases h
  split at h
  · cases h
    exact ⟨by decide, trivial, hst⟩
  split at h
  · cases h
    exact ⟨by decide, trivial, hst⟩
  split at h
  · cases h
    exact ⟨by decide, trivial, hst⟩
  · obtain ⟨m, -, rfl⟩ := Option.map_eq_some_iff.mp h
    exact hst

theorem afterValue_light {v : Json} {st : List Frame} {b : UInt8} {s' : Scan} (hv : v.Light n)
    (hst : ∀ f ∈ st, f.Light n) (h : afterValue v st b = some s') : s'.Light n := by
  unfold afterValue at h
  split at h
  · cases h
    exact ⟨hv, hst⟩
  split at h
  · cases h
  · obtain ⟨-, hst'⟩ := List.forall_mem_cons.mp hst
    split at h
    · cases h
      exact List.forall_mem_cons.mpr ⟨trivial, hst'⟩
    split at h
    · cases h
      exact ⟨trivial, hst'⟩
    · cases h
  · obtain ⟨hms, hst'⟩ := List.forall_mem_cons.mp hst
    split at h
    · cases h
      exact ⟨light_cons hv hms, hst'⟩
    split at h
    · cases h
      exact ⟨trivial, hst'⟩
    · cases h

/-- Reading a byte adds at most that byte. -/
theorem step_light {s s' : Scan} {b : UInt8} (hs : s.Light n) (h : step s b = some s') :
    s'.Light (n + asciiCount [b]) := by
  have hs' : s.Light (n + asciiCount [b]) := hs.mono (Nat.le_add_right _ _)
  have hquote : b = 0x22 → 0 < n + asciiCount [b] := by
    rintro rfl
    exact Nat.succ_pos n
  cases s with
  | value first st =>
    simp only [step] at h
    split at h
    · cases h
      exact hs'
    split at h
    · split at h
      · cases h
        exact ⟨trivial, (List.forall_mem_cons.mp hs').2⟩
      · cases h
    · exact beginValue_light hquote hs' h
  | key first ms st =>
    simp only [step] at h
    split at h
    · cases h
      exact hs'
    split at h
    · cases h
      exact hs'
    split at h
    · cases h
      exact ⟨trivial, hs'.2⟩
    · cases h
  | inKey ms st ps e =>
    simp only [step] at h
    split at h
    · cases h
    · cases h
      exact hs'
    · cases h
      exact hs'
  | colon ms k st =>
    simp only [step] at h
    split at h
    · cases h
      exact hs'
    split at h
    · cases h
      exact List.forall_mem_cons.mpr hs'
    · cases h
  | inStr st ps e =>
    simp only [step] at h
    split at h
    · cases h
    · cases h
      exact ⟨Nat.lt_of_le_of_lt (asciiCount_literal_le ps) hs'.1, hs'.2⟩
    · next ps' e' hstr =>
      cases h
      exact ⟨Nat.lt_of_le_of_lt (weight_strStep_le hstr) (Nat.add_lt_add_right hs.1 _), hs'.2⟩
  | word rest v st =>
    simp only [step] at h
    split at h
    · cases h
    split at h
    · split at h
      · cases h
        exact hs'.2
      · cases h
        exact ⟨fun hm => hs'.1 (List.mem_cons_of_mem _ hm), hs'.2⟩
    · cases h
  | num m text st =>
    simp only [step] at h
    split at h
    · cases h
      exact hs'
    split at h
    · exact afterValue_light (v := .num text.reverse) trivial hs' h
    · cases h
  | done v st => exact afterValue_light hs'.1 hs'.2 h

theorem run_light {s s' : Scan} {bs : Bytes} (hs : s.Light n) (h : run s bs = some s') :
    s'.Light (n + asciiCount bs) := by
  induction bs generalizing s n with
  | nil =>
    cases h
    exact hs
  | cons b bs ih =>
    rw [run_cons] at h
    obtain ⟨s₁, hstep, hrest⟩ := Option.bind_eq_some_iff.mp h
    rw [asciiCount_cons, Nat.add_comm (asciiCount bs), ← Nat.add_assoc]
    exact ih (step_light hs hstep) hrest

end Light

/-! ## 4. Raw texts -/

/-- The byte stands for itself inside a literal. -/
def isLiteral (b : UInt8) : Bool := b ≠ 0x22 && b ≠ 0x5C && 0x20 ≤ b

theorem isLiteral_iff {b : UInt8} : isLiteral b = true ↔ b ≠ 0x22 ∧ b ≠ 0x5C ∧ ¬ b < 0x20 := by
  simp only [isLiteral, Bool.and_eq_true, decide_eq_true_eq, and_assoc, UInt8.not_lt]

theorem ascii_of_not_isLiteral {b : UInt8} (h : isLiteral b = false) : b < 0x80 := by
  by_contra hge
  have hle : (0x80 : UInt8) ≤ b := UInt8.not_lt.mp hge
  refine absurd h (Bool.not_eq_false _ ▸ isLiteral_iff.mpr ⟨?_, ?_, ?_⟩)
  · rintro rfl
    exact absurd hle (by decide)
  · rintro rfl
    exact absurd hle (by decide)
  · exact fun hlt => absurd (UInt8.lt_of_lt_of_le hlt (by decide)) hge

theorem run_literal {s : Bytes} (h : ∀ b ∈ s, isLiteral b = true) (st : List Frame)
    (ps : List Piece) :
    run (.inStr st ps .plain) s = some (.inStr st ((s.map Piece.raw).reverse ++ ps) .plain) := by
  induction s generalizing ps with
  | nil => rfl
  | cons b s ih =>
    obtain ⟨hb, hs⟩ := List.forall_mem_cons.mp h
    obtain ⟨h₁, h₂, h₃⟩ := isLiteral_iff.mp hb
    have hstr : strStep ps .plain b = some (some (.raw b :: ps, .plain)) := by
      simp only [strStep, h₁, h₂, h₃, if_false]
    rw [run_cons_of_step (reads_inStr st _ _ _ _ _ hstr), ih hs, List.map_cons, List.reverse_cons,
      List.append_assoc]
    rfl

/-- The first byte that does not stand for itself. -/
theorem step_not_literal {b : UInt8} {st : List Frame} {ps : List Piece} {s' : Scan}
    (hb : isLiteral b = false) (hst : ∀ f ∈ st, f.Light 0)
    (h : step (.inStr st ps .plain) b = some s') : s'.Light (weight ps + 1) := by
  have hst' : ∀ f ∈ st, f.Light (weight ps + 1) := fun f hf => (hst f hf).mono (Nat.zero_le _)
  have hsteer : b = 0x22 ∨ b = 0x5C ∨ b < 0x20 := by
    by_contra hno
    simp only [not_or] at hno
    rw [isLiteral_iff.mpr hno] at hb
    cases hb
  simp only [step, strStep] at h
  rcases hsteer with rfl | rfl | hlt
  · cases h
    exact ⟨Nat.lt_succ_of_le (asciiCount_literal_le ps), hst'⟩
  · cases h
    exact ⟨Nat.lt_succ_self _, hst'⟩
  · have hne : b ≠ 0x22 ∧ b ≠ 0x5C := by
      constructor
      · rintro rfl
        exact absurd hlt (by decide)
      · rintro rfl
        exact absurd hlt (by decide)
    simp only [hne.1, hne.2, hlt, if_false, if_true] at h
    cases h

/-- Where the scanner is behind a text that was put into a literal as it is. -/
theorem run_raw_cases {st : List Frame} {s : Bytes} {t : Scan} (hst : ∀ f ∈ st, f.Light 0)
    (h : run (.inStr st [] .plain) s = some t) :
    ((∀ b ∈ s, isLiteral b = true) ∧ t = .inStr st (s.map Piece.raw).reverse .plain) ∨
      ¬ (∀ b ∈ s, isLiteral b = true) ∧ t.Light (asciiCount s) := by
  by_cases hs : ∀ b ∈ s, isLiteral b = true
  · rw [run_literal hs st [], List.append_nil] at h
    exact .inl ⟨hs, (Option.some.inj h).symm⟩
  · refine .inr ⟨hs, ?_⟩
    -- the text up to the first byte that steers the scanner, and from there on
    obtain ⟨u, b, v, rfl, hu, hb⟩ : ∃ u b v, s = u ++ b :: v ∧ (∀ c ∈ u, isLiteral c = true) ∧
        isLiteral b = false := by
      obtain ⟨c, hc, hbad⟩ : ∃ c ∈ s, (!isLiteral c) = true := by
        by_contra hno
        refine hs fun c hc => ?_
        by_contra hcl
        exact hno ⟨c, hc, by rw [Bool.not_eq_true _ |>.mp hcl]; rfl⟩
      obtain ⟨b, hfind⟩ := Option.isSome_iff_exists.mp
        (List.find?_isSome (p := fun c => !isLiteral c) |>.mpr ⟨c, hc, hbad⟩)
      obtain ⟨hb, u, v, rfl, hu⟩ := List.find?_eq_some_iff_append.mp hfind
      refine ⟨u, b, v, rfl, fun c hc => ?_, Bool.not_eq_true' _ |>.mp hb⟩
      have hlit := hu c hc
      rwa [Bool.not_not] at hlit
    rw [run_append_of_run (run_literal hu st []), List.append_nil, run_cons] at h
    obtain ⟨s₁, hstep, hrest⟩ := Option.bind_eq_some_iff.mp h
    have hlight := run_light (step_not_literal hb hst hstep) hrest
    rw [weight_reverse, weight_raw] at hlight
    rw [asciiCount_append, asciiCount_cons, asciiCount_singleton (ascii_of_not_isLiteral hb),
      Nat.add_comm (asciiCount v), ← Nat.add_assoc]
    exact hlight

theorem afterValue_quote (v : Json) (st : List Frame) : afterValue v st 0x22 = none := by
  unfold afterValue
  rw [if_neg (by decide)]
  split <;> rfl

/-- Only a string can be ended by a quote, and an object with it by a brace. -/
theorem settled_quote_brace {n : Nat} {t : Scan} {v : Json} {st : List Frame} (ht : t.Light n)
    (h : (run t [0x22, 0x7D]).bind Scan.settled = some (v, st)) :
    ∃ ms k ps, t = .inStr (.obj ms k :: st) ps .plain ∧
      v = .obj ((k, .str (literal ps)) :: ms).reverse := by
  cases t with
  | value first st₀ => cases first <;> cases h
  | key first ms st₀ => cases first <;> cases h
  | inKey ms st₀ ps e => cases e <;> cases h
  | colon ms k st₀ => cases h
  | inStr st₀ ps e =>
    cases e with
    | plain =>
      cases st₀ with
      | nil => cases h
      | cons f st₀ =>
        cases f with
        | arr es => cases h
        | obj ms k =>
          cases h
          exact ⟨ms, k, ps, rfl, rfl⟩
    | backslash => cases h
    | hex left u => cases h
  | word rest w st₀ =>
    cases rest with
    | nil => cases h
    | cons c rest =>
      have hc : (0x22 : UInt8) ≠ c := fun hc => ht.1 (hc ▸ List.mem_cons_self)
      simp only [run_cons, step, if_neg hc, Option.bind_none] at h
      cases h
  | num m text st₀ =>
    have hm : m.step 0x22 = none := by cases m <;> rfl
    have hafter : afterValue (.num text.reverse) st₀ 0x22 = none := afterValue_quote _ st₀
    simp only [run_cons, step, hm, hafter, ite_self, Option.bind_none] at h
    cases h
  | done w st₀ =>
    simp only [run_cons, step, afterValue_quote, Option.bind_none] at h
    cases h

/-- What is read of an object whose last value is a literal with a raw text: the text, with every
ill-formed byte replaced, or nothing that could be the text. -/
theorem settled_spliced {st st' : List Frame} {s : Bytes} {v : Json} (hst : ∀ f ∈ st, f.Light 0)
    (h : (run (.inStr st [] .plain) (s ++ [0x22, 0x7D])).bind Scan.settled = some (v, st')) :
    (∃ ms k, (∀ b ∈ s, isLiteral b = true) ∧ st = .obj ms k :: st' ∧
      v = .obj ((k, .str (Utf8.toValid s)) :: ms).reverse) ∨
    ∃ ms, ¬ (∀ b ∈ s, isLiteral b = true) ∧ v = .obj ms ∧ ∀ m ∈ ms, m.2.Light (asciiCount s) := by
  rw [run_append] at h
  obtain ⟨t', hrun, hset⟩ := Option.bind_eq_some_iff.mp h
  obtain ⟨t, ht, hend⟩ := Option.bind_eq_some_iff.mp hrun
  have hclose : (run t [0x22, 0x7D]).bind Scan.settled = some (v, st') := by
    rw [hend]
    exact hset
  rcases run_raw_cases hst ht with ⟨hs, rfl⟩ | ⟨hs, hlight⟩
  · have hread : (Scan.inStr st (s.map Piece.raw).reverse .plain).Light (asciiCount s + 1) := by
      refine ⟨?_, fun f hf => (hst f hf).mono (Nat.zero_le _)⟩
      rw [weight_reverse, weight_raw]
      exact Nat.lt_succ_self _
    obtain ⟨ms, k, ps, heq, rfl⟩ := settled_quote_brace hread hclose
    cases heq
    refine .inl ⟨ms, k, hs, rfl, ?_⟩
    rw [literal, List.reverse_reverse, unquote_raw]
  · obtain ⟨ms, k, ps, rfl, rfl⟩ := settled_quote_brace hlight hclose
    refine .inr ⟨_, hs, rfl, fun m hm => ?_⟩
    obtain ⟨hms, -⟩ := List.forall_mem_cons.mp hlight.2
    refine light_cons (k := k) ?_ hms m (List.mem_reverse.mp hm)
    exact Nat.lt_of_le_of_lt (asciiCount_literal_le ps) hlight.1

end Go.Json
