import Concord.Go.Json

/-!
# The JSON scanner reads back what the encoder writes

The scanner is a fold over bytes, so the proof follows the tree: running it over
the encoding of a value takes it from "a value is expected" to "this value is
complete", and leaves the stack of open brackets alone (`run_render`). String
literals are handled one rune at a time (`quotes`).
-/

namespace Go.Json

open Utf8

/-! ## 1. Runs -/

@[simp] theorem run_nil (s : Scan) : run s [] = some s := rfl

theorem run_cons (s : Scan) (b : UInt8) (bs : Bytes) :
    run s (b :: bs) = (step s b).bind fun s' => run s' bs := rfl

theorem run_append (s : Scan) (xs ys : Bytes) :
    run s (xs ++ ys) = (run s xs).bind fun s' => run s' ys := by
  simp only [run, List.foldlM_append]
  rfl

theorem run_cons_of_step {s s' : Scan} {b : UInt8} (h : step s b = some s') (bs : Bytes) :
    run s (b :: bs) = run s' bs := by
  rw [run_cons, h, Option.bind_some]

theorem run_append_of_run {s s' : Scan} {xs : Bytes} (h : run s xs = some s') (ys : Bytes) :
    run s (xs ++ ys) = run s' ys := by
  rw [run_append, h, Option.bind_some]

/-! ## 2. String literals -/

/-- The scan of the inside of a string literal that is not closed. -/
def strRun : List Piece → Esc → Bytes → Option (List Piece × Esc)
  | ps, e, [] => some (ps, e)
  | ps, e, b :: bs =>
    match strStep ps e b with
    | some (some (ps', e')) => strRun ps' e' bs
    | _ => none

theorem strRun_append {ps ps' : List Piece} {e e' : Esc} {xs : Bytes}
    (h : strRun ps e xs = some (ps', e')) (ys : Bytes) :
    strRun ps e (xs ++ ys) = strRun ps' e' ys := by
  induction xs generalizing ps e with
  | nil =>
    simp only [strRun, Option.some.injEq, Prod.mk.injEq] at h
    rw [List.nil_append, h.1, h.2]
  | cons b xs ih =>
    simp only [List.cons_append, strRun] at h ⊢
    split at h
    · exact ih h
    · simp at h

/-- A scanner position inside a literal: it advances as the literal does. -/
def Reads (w : List Piece → Esc → Scan) : Prop :=
  ∀ ps e b ps' e', strStep ps e b = some (some (ps', e')) → step (w ps e) b = some (w ps' e')

theorem reads_inKey (ms : List (Bytes × Json)) (st : List Frame) : Reads (.inKey ms st) := by
  intro ps e b ps' e' h
  simp only [step, h]

theorem reads_inStr (st : List Frame) : Reads (.inStr st) := by
  intro ps e b ps' e' h
  simp only [step, h]

theorem run_of_strRun {w : List Piece → Esc → Scan} (hw : Reads w) {ps ps' : List Piece}
    {e e' : Esc} {bs : Bytes} (h : strRun ps e bs = some (ps', e')) :
    run (w ps e) bs = some (w ps' e') := by
  induction bs generalizing ps e with
  | nil =>
    simp only [strRun, Option.some.injEq, Prod.mk.injEq] at h
    rw [run_nil, h.1, h.2]
  | cons b bs ih =>
    rw [strRun] at h
    split at h
    · next hs => rw [run_cons_of_step (hw _ _ _ _ _ hs)]; exact ih h
    · simp at h

/-- A piece that stands for itself, whatever its neighbours are. -/
def Piece.Flat : Piece → Prop
  | .raw _ => True
  | .unit u => ¬ (0xD800 ≤ u ∧ u < 0xE000)

def Piece.bytes : Piece → Bytes
  | .raw b => [b]
  | .unit u => encodeRune u

theorem unquote_flat {ps : List Piece} (h : ∀ p ∈ ps, p.Flat) :
    unquote ps = ps.flatMap Piece.bytes := by
  induction ps with
  | nil => rfl
  | cons p ps ih =>
    have ih' := ih fun q hq => h q (List.mem_cons_of_mem _ hq)
    rw [List.flatMap_cons]
    cases p with
    | raw b => simp only [unquote, ih', Piece.bytes, List.singleton_append]
    | unit u =>
      have hu : ¬ (0xD800 ≤ u ∧ u < 0xE000) := h (.unit u) List.mem_cons_self
      cases ps with
      | nil => simp [unquote, Piece.bytes]
      | cons q qs =>
        cases q with
        | raw b => rw [unquote, ih', Piece.bytes]; simp
        | unit v =>
          have hh : isHigh u = false := by
            simp only [isHigh, Bool.and_eq_false_iff, decide_eq_false_iff_not]
            omega
          rw [unquote, hh, ih', Piece.bytes]
          simp

theorem strRun_raw {bs : Bytes} (h : ∀ b ∈ bs, 0x80 ≤ b) (ps : List Piece) :
    strRun ps .plain bs = some ((bs.map Piece.raw).reverse ++ ps, .plain) := by
  induction bs generalizing ps with
  | nil => rfl
  | cons b bs ih =>
    have hb : (0x80 : UInt8) ≤ b := h b List.mem_cons_self
    have h1 : b ≠ 0x22 := by rintro rfl; exact absurd hb (by decide)
    have h2 : b ≠ 0x5C := by rintro rfl; exact absurd hb (by decide)
    have h3 : ¬ b < 0x20 := by
      intro hlt
      exact absurd (UInt8.lt_of_lt_of_le hlt (UInt8.le_trans (by decide) hb)) (UInt8.lt_irrefl b)
    rw [strRun]
    simp only [strStep, h1, h2, h3, if_false]
    rw [ih fun c hc => h c (List.mem_cons_of_mem _ hc)]
    simp

theorem hexVal_hexDigit : ∀ d, d < 16 → hexVal (hexDigit d) = some d := by decide

theorem strRun_unit {x y z t : UInt8} {a b c d : Nat} (hx : hexVal x = some a)
    (hy : hexVal y = some b) (hz : hexVal z = some c) (ht : hexVal t = some d) (ps : List Piece) :
    strRun ps .plain [0x5C, 0x75, x, y, z, t] =
      some (.unit (((a * 16 + b) * 16 + c) * 16 + d) :: ps, .plain) := by
  simp [strRun, strStep, hx, hy, hz, ht]

theorem encodeRune_ascii {a : UInt8} (h : a < 0x80) : encodeRune a.toNat = [a] := by
  have h' : a.toNat < 0x80 := h
  simp [encodeRune, h']

/-- An encoded ASCII byte is one piece of the literal. -/
theorem strRun_quoteByte {a : UInt8} (h : a < 0x80) :
    ∃ p : Piece, (∀ ps, strRun ps .plain (quoteByte a) = some (p :: ps, .plain)) ∧ p.Flat ∧
      p.bytes = [a] := by
  have hn : a.toNat < 128 := h
  unfold quoteByte
  split
  · next hq =>
    rcases hq with rfl | rfl <;> exact ⟨.raw _, by simp [strRun, strStep, escByte], trivial, rfl⟩
  split
  · next hq => subst hq; exact ⟨.raw _, by simp [strRun, strStep, escByte], trivial, rfl⟩
  split
  · next hq => subst hq; exact ⟨.raw _, by simp [strRun, strStep, escByte], trivial, rfl⟩
  split
  · next hq => subst hq; exact ⟨.raw _, by simp [strRun, strStep, escByte], trivial, rfl⟩
  split
  · refine ⟨.unit a.toNat, fun ps => ?_, ?_, encodeRune_ascii h⟩
    · rw [strRun_unit (a := 0) (b := 0) (by decide) (by decide)
        (hexVal_hexDigit (a.toNat / 16) (by omega)) (hexVal_hexDigit (a.toNat % 16) (by omega))]
      congr 4
      omega
    · simp only [Piece.Flat]
      omega
  · next h1 _ _ _ h2 =>
    simp only [not_or] at h1 h2
    exact ⟨.raw a, by simp [strRun, strStep, h1, h2], trivial, rfl⟩

theorem lineSep_some {a d : UInt8} {rest : Bytes} (h : lineSep a rest = some d) :
    ∃ r, (rest = 0x80 :: 0xA8 :: r ∧ d = 0x38 ∨ rest = 0x80 :: 0xA9 :: r ∧ d = 0x39) ∧
      a = 0xE2 := by
  unfold lineSep at h
  split at h
  · next c r =>
    split at h
    · next hc =>
      simp only [Option.some.injEq] at h
      exact ⟨r, .inl ⟨by rw [hc.2], h.symm⟩, hc.1⟩
    · split at h
      · next hc =>
        simp only [Option.some.injEq] at h
        exact ⟨r, .inr ⟨by rw [hc.2], h.symm⟩, hc.1⟩
      · simp at h
  · simp at h

theorem quoteFrom_zero (c : Bool) (s : Bytes) : quoteFrom c 0 s = quoteFrom true 0 s := by
  cases s <;> simp only [quoteFrom]

theorem quoteFrom_copy (n : Nat) (s : Bytes) (h : n ≤ s.length) :
    quoteFrom true n s = s.take n ++ quoteFrom true 0 (s.drop n) := by
  induction n generalizing s with
  | zero => simp
  | succ n ih =>
    cases s with
    | nil => simp at h
    | cons a rest =>
      simp only [quoteFrom, if_true, List.take_succ_cons, List.drop_succ_cons, List.cons_append]
      rw [ih rest (by simpa using h)]

theorem quoteFrom_drop (n : Nat) (s : Bytes) (h : n ≤ s.length) :
    quoteFrom false n s = quoteFrom true 0 (s.drop n) := by
  induction n generalizing s with
  | zero => simp [quoteFrom_zero]
  | succ n ih =>
    cases s with
    | nil => simp at h
    | cons a rest =>
      simp only [quoteFrom, Bool.false_eq_true, if_false, List.drop_succ_cons]
      exact ih rest (by simpa using h)

/-- The scanner reads the encoding of `s` as pieces that denote `s`, coerced to
valid UTF-8. -/
def Quotes (s : Bytes) : Prop :=
  ∀ ps, ∃ qs : List Piece,
    strRun ps .plain (quoteFrom true 0 s) = some (qs.reverse ++ ps, .plain) ∧
    (∀ q ∈ qs, q.Flat) ∧ qs.flatMap Piece.bytes = toValid s

/-- One rune, or one ill-formed byte, in front of a string. -/
theorem quotes_of_front {s text tail : Bytes} (front : List Piece) (ht : Quotes tail)
    (hrun : ∀ ps, strRun ps .plain text = some (front.reverse ++ ps, .plain))
    (hflat : ∀ q ∈ front, q.Flat)
    (hval : toValid s = front.flatMap Piece.bytes ++ toValid tail)
    (htext : quoteFrom true 0 s = text ++ quoteFrom true 0 tail) : Quotes s := by
  intro ps
  obtain ⟨qs, hqs, hqf, hqv⟩ := ht (front.reverse ++ ps)
  refine ⟨front ++ qs, ?_, ?_, ?_⟩
  · rw [htext, strRun_append (hrun ps), hqs]
    simp
  · intro q hq
    rcases List.mem_append.mp hq with hq | hq
    · exact hflat q hq
    · exact hqf q hq
  · rw [List.flatMap_append, hqv, hval]

theorem flatMap_raw (bs : Bytes) : (bs.map Piece.raw).flatMap Piece.bytes = bs := by
  induction bs with
  | nil => rfl
  | cons b bs ih => simpa [Piece.bytes] using ih

theorem quotes_ascii {a : UInt8} {rest : Bytes} (ha : a < 0x80) (ht : Quotes rest) :
    Quotes (a :: rest) := by
  obtain ⟨p, hp, hpf, hpb⟩ := strRun_quoteByte ha
  refine quotes_of_front [p] ht hp (by simpa using hpf) ?_
    (by rw [quoteFrom, if_pos ha])
  have h1 : runeLen a rest = 0 + 1 := by simp [runeLen, ha]
  simpa [hpb] using toValid_rune h1 rest

theorem quotes_error {a : UInt8} {rest : Bytes} (ha : ¬ a < 0x80) (h0 : runeLen a rest = 0)
    (hv : toValid (a :: rest) = runeError ++ toValid rest) (ht : Quotes rest) :
    Quotes (a :: rest) := by
  refine quotes_of_front [.unit 0xFFFD] ht (fun ps => ?_) (by simp [Piece.Flat]) hv
    (by rw [quoteFrom, if_neg ha, h0])
  exact strRun_unit (by decide : hexVal 0x66 = some 15) (by decide : hexVal 0x66 = some 15)
    (by decide : hexVal 0x66 = some 15) (by decide : hexVal 0x64 = some 13) ps

theorem quotes_rune {a : UInt8} {rest : Bytes} {n : Nat} (ha : ¬ a < 0x80)
    (hn : runeLen a rest = n + 1) (hle : n ≤ rest.length) (hl : lineSep a rest = none)
    (hv : toValid (a :: rest) = a :: (rest.take n ++ toValid (rest.drop n)))
    (ht : Quotes (rest.drop n)) : Quotes (a :: rest) := by
  have hbytes : ∀ b ∈ a :: rest.take n, 0x80 ≤ b := by
    intro b hb
    rcases List.mem_cons.mp hb with rfl | hb
    · exact UInt8.not_lt.mp ha
    · exact runeLen_tails hn b hb
  refine quotes_of_front ((a :: rest.take n).map .raw) ht (strRun_raw hbytes) ?_ ?_ ?_
  · intro q hq
    obtain ⟨b, _, rfl⟩ := List.mem_map.mp hq
    trivial
  · rw [flatMap_raw, hv, List.cons_append]
  · rw [quoteFrom, if_neg ha, hn]
    simp only [hl]
    rw [quoteFrom_copy n rest hle, List.cons_append]

theorem quotes_lineSep {a d : UInt8} {rest : Bytes} {n : Nat} (ha : ¬ a < 0x80)
    (hn : runeLen a rest = n + 1) (hle : n ≤ rest.length) (hl : lineSep a rest = some d)
    (hv : toValid (a :: rest) = a :: (rest.take n ++ toValid (rest.drop n)))
    (ht : Quotes (rest.drop n)) : Quotes (a :: rest) := by
  have hq : quoteFrom true 0 (a :: rest) =
      [0x5C, 0x75, 0x32, 0x30, 0x32, d] ++ quoteFrom true 0 (rest.drop n) := by
    rw [quoteFrom, if_neg ha, hn]
    simp only [hl]
    rw [quoteFrom_drop n rest hle]
  have h2 : hexVal 0x32 = some 2 := by decide
  have h0 : hexVal 0x30 = some 0 := by decide
  obtain ⟨r, hr, rfl⟩ := lineSep_some hl
  obtain rfl : n = 2 := by
    rcases hr with ⟨rfl, _⟩ | ⟨rfl, _⟩ <;>
      simp [runeLen, secondLo, secondHi, isTail] at hn <;> omega
  rcases hr with ⟨rfl, rfl⟩ | ⟨rfl, rfl⟩
  · exact quotes_of_front [.unit 0x2028] ht
      (strRun_unit h2 h0 h2 (by decide : hexVal 0x38 = some 8)) (by simp [Piece.Flat]) hv hq
  · exact quotes_of_front [.unit 0x2029] ht
      (strRun_unit h2 h0 h2 (by decide : hexVal 0x39 = some 9)) (by simp [Piece.Flat]) hv hq

theorem quotes (s : Bytes) : Quotes s := by
  induction hs : s.length using Nat.strong_induction_on generalizing s with
  | _ len ih =>
    subst hs
    cases s with
    | nil => exact fun ps => ⟨[], rfl, by simp, rfl⟩
    | cons a rest =>
      by_cases ha : a < 0x80
      · exact quotes_ascii ha (ih rest.length (by simp) rest rfl)
      · rcases toValid_cases a rest with ⟨h0, hv⟩ | ⟨n, hn, hle, hv⟩
        · exact quotes_error ha h0 hv (ih rest.length (by simp) rest rfl)
        · have hlt : (rest.drop n).length < (a :: rest).length := by
            rw [List.length_drop, List.length_cons]
            omega
          have ht := ih _ hlt _ rfl
          cases hl : lineSep a rest with
          | none => exact quotes_rune ha hn hle hl hv ht
          | some d => exact quotes_lineSep ha hn hle hl hv ht

/-- The scanner reads a literal up to its closing quote. -/
theorem run_quote {w : List Piece → Esc → Scan} (hw : Reads w) (s : Bytes) :
    ∃ ps, run (w [] .plain) (quoteFrom true 0 s) = some (w ps .plain) ∧ literal ps = toValid s := by
  obtain ⟨qs, hqs, hqf, hqv⟩ := quotes s []
  refine ⟨qs.reverse, ?_, ?_⟩
  · rw [List.append_nil] at hqs
    exact run_of_strRun hw hqs
  · rw [literal, List.reverse_reverse, unquote_flat hqf, hqv, toValid_idem]

/-! ## 3. Trees -/

mutual
/-- The tree with every string and key coerced to valid UTF-8. -/
def toValid : Json → Json
  | .null => .null
  | .bool b => .bool b
  | .num text => .num text
  | .str s => .str (Utf8.toValid s)
  | .arr es => .arr (toValidElems es)
  | .obj ms => .obj (toValidMembers ms)
termination_by structural v => v

def toValidElems : List Json → List Json
  | [] => []
  | v :: vs => toValid v :: toValidElems vs
termination_by structural vs => vs

def toValidMembers : List (Bytes × Json) → List (Bytes × Json)
  | [] => []
  | (k, v) :: ms => (Utf8.toValid k, toValid v) :: toValidMembers ms
termination_by structural ms => ms
end

mutual
/-- The tree nests at most `d` deep and its number literals are numbers. -/
def Fits (d : Nat) : Json → Prop
  | .num text => isNumber text = true
  | .arr es => 0 < d ∧ FitsElems (d - 1) es
  | .obj ms => 0 < d ∧ FitsMembers (d - 1) ms
  | _ => True
termination_by structural v => v

def FitsElems (d : Nat) : List Json → Prop
  | [] => True
  | v :: vs => Fits d v ∧ FitsElems d vs
termination_by structural vs => vs

def FitsMembers (d : Nat) : List (Bytes × Json) → Prop
  | [] => True
  | (_, v) :: ms => Fits d v ∧ FitsMembers d ms
termination_by structural ms => ms
end

theorem numStep_delim {n : NumState} {b : UInt8} (hb : b = 0x2C ∨ b = 0x5D ∨ b = 0x7D) :
    n.step b = none := by
  rcases hb with rfl | rfl | rfl <;> cases n <;> decide

/-- A comma or a closing bracket completes the value in front of it. -/
theorem step_settled {s : Scan} {v : Json} {st : List Frame} {b : UInt8}
    (hs : s.settled = some (v, st)) (hb : b = 0x2C ∨ b = 0x5D ∨ b = 0x7D) :
    step s b = afterValue v st b := by
  cases s with
  | done v' st' =>
    simp only [Scan.settled, Option.some.injEq, Prod.mk.injEq] at hs
    rw [step, hs.1, hs.2]
  | num n text st' =>
    simp only [Scan.settled] at hs
    split at hs
    · next hf =>
      simp only [Option.some.injEq, Prod.mk.injEq] at hs
      simp only [step, numStep_delim hb, hf, if_true, hs.1, hs.2]
    · simp at hs
  | _ => simp [Scan.settled] at hs

theorem step_value {b : UInt8} (first : Bool) (st : List Frame) (hs : isSpace b = false)
    (hb : b ≠ 0x5D) : step (.value first st) b = beginValue b st := by
  simp [step, hs, hb]

theorem run_word {w : Bytes} (hw : w ≠ []) (v : Json) (st : List Frame) :
    run (.word w v st) w = some (.done v st) := by
  induction w with
  | nil => exact absurd rfl hw
  | cons c w ih =>
    cases w with
    | nil => simp [run_cons, step]
    | cons d w =>
      have hc : step (.word (c :: d :: w) v st) c = some (.word (d :: w) v st) := by simp [step]
      rw [run_cons_of_step hc]
      exact ih (by simp)

theorem run_num {n n' : NumState} {text : Bytes} (h : text.foldlM NumState.step n = some n')
    (acc : Bytes) (st : List Frame) :
    run (.num n acc st) text = some (.num n' (text.reverse ++ acc) st) := by
  induction text generalizing n acc with
  | nil =>
    simp only [List.foldlM_nil, Option.pure_def, Option.some.injEq] at h
    simp [h]
  | cons b text ih =>
    rw [List.foldlM_cons] at h
    cases hb : n.step b with
    | none => simp [hb] at h
    | some m =>
      simp only [hb, Option.bind_eq_bind, Option.bind_some] at h
      have hs : step (.num n acc st) b = some (.num m (b :: acc) st) := by simp [step, hb]
      rw [run_cons_of_step hs, ih h]
      simp

theorem first_not_punct {b : UInt8} {n : NumState} (h : NumState.first b = some n) :
    isSpace b = false ∧ b ≠ 0x5D ∧ ∀ st, beginValue b st = some (.num n [b] st) := by
  have hb : b ≠ 0x22 ∧ b ≠ 0x7B ∧ b ≠ 0x5B ∧ b ≠ 0x6E ∧ b ≠ 0x74 ∧ b ≠ 0x66 ∧ b ≠ 0x5D ∧
      b ≠ 0x20 ∧ b ≠ 0x09 ∧ b ≠ 0x0D ∧ b ≠ 0x0A := by
    refine ⟨?_, ?_, ?_, ?_, ?_, ?_, ?_, ?_, ?_, ?_, ?_⟩ <;>
      (rintro rfl; exact absurd h (by simp [NumState.first, isDigit]))
  obtain ⟨h1, h2, h3, h4, h5, h6, h7, h8, h9, h10, h11⟩ := hb
  refine ⟨by simp [isSpace, h8, h9, h10, h11], h7, fun st => ?_⟩
  simp [beginValue, h1, h2, h3, h4, h5, h6, h]

/-- Reading a key and its colon. -/
theorem run_key (first : Bool) (ms : List (Bytes × Json)) (st : List Frame) (k rest : Bytes) :
    run (.key first ms st) (quote k ++ 0x3A :: rest) =
      run (.value false (.obj ms (Utf8.toValid k) :: st)) rest := by
  obtain ⟨ps, hps, hlit⟩ := run_quote (reads_inKey ms st) k
  have hs : step (.key first ms st) 0x22 = some (.inKey ms st [] .plain) := by
    simp [step, isSpace]
  rw [quote, List.cons_append, run_cons_of_step hs, List.append_assoc, run_append_of_run hps]
  have hq : step (.inKey ms st ps .plain) 0x22 = some (.colon ms (Utf8.toValid k) st) := by
    simp [step, strStep, hlit]
  have hc : step (.colon ms (Utf8.toValid k) st) 0x3A =
      some (.value false (.obj ms (Utf8.toValid k) :: st)) := by
    simp [step, isSpace]
  rw [List.singleton_append, run_cons_of_step hq, run_cons_of_step hc]

mutual
/-- The scanner takes the encoding of a value for that value, at any place
where a value may stand. -/
theorem run_render : ∀ (v : Json) (first : Bool) (st : List Frame),
    Fits (maxNestingDepth - st.length) v →
    ∃ s, run (.value first st) (render v) = some s ∧ s.settled = some (toValid v, st)
  | .null, first, st, _ => by
    refine ⟨.done .null st, ?_, rfl⟩
    rw [show render .null = 0x6E :: ascii "ull" from rfl,
      run_cons_of_step (step_value first st (by decide) (by decide))]
    exact run_word (by decide) _ _
  | .bool true, first, st, _ => by
    refine ⟨.done (.bool true) st, ?_, rfl⟩
    rw [show render (.bool true) = 0x74 :: ascii "rue" from rfl,
      run_cons_of_step (step_value first st (by decide) (by decide))]
    exact run_word (by decide) _ _
  | .bool false, first, st, _ => by
    refine ⟨.done (.bool false) st, ?_, rfl⟩
    rw [show render (.bool false) = 0x66 :: ascii "alse" from rfl,
      run_cons_of_step (step_value first st (by decide) (by decide))]
    exact run_word (by decide) _ _
  | .num text, first, st, h => by
    simp only [Fits, isNumber] at h
    cases text with
    | nil => simp at h
    | cons b rest =>
      cases hf : NumState.first b with
      | none => simp [hf] at h
      | some n =>
        cases hr : rest.foldlM NumState.step n with
        | none => simp [hf, hr] at h
        | some n' =>
          simp only [hf, hr, Option.bind_some] at h
          obtain ⟨hsp, hb, hbv⟩ := first_not_punct hf
          refine ⟨.num n' (rest.reverse ++ [b]) st, ?_, by simp [Scan.settled, h, toValid]⟩
          rw [render, run_cons_of_step ((step_value first st hsp hb).trans (hbv st)), run_num hr]
  | .str s, first, st, _ => by
    obtain ⟨ps, hps, hlit⟩ := run_quote (reads_inStr st) s
    refine ⟨.done (.str (Utf8.toValid s)) st, ?_, rfl⟩
    rw [render, quote, run_cons_of_step (step_value first st (by decide) (by decide)),
      run_append_of_run hps, run_cons]
    simp [step, strStep, hlit]
  | .arr [], first, st, h => by
    have hd : st.length < maxNestingDepth := by simp only [Fits] at h; omega
    have hb : step (.value first st) 0x5B = some (.value true (.arr [] :: st)) := by
      rw [step_value first st (by decide) (by decide)]
      simp [beginValue, hd]
    refine ⟨.done (.arr []) st, ?_, rfl⟩
    rw [render, run_cons_of_step hb]
    simp [run_cons, step, isSpace]
  | .arr (v :: vs), first, st, h => by
    simp only [Fits, FitsElems] at h
    have hd : st.length < maxNestingDepth := by omega
    have hb : step (.value first st) 0x5B = some (.value true (.arr [] :: st)) := by
      rw [step_value first st (by decide) (by decide)]
      simp [beginValue, hd]
    have hfit : maxNestingDepth - (Frame.arr [] :: st).length = maxNestingDepth - st.length - 1 := by
      simp only [List.length_cons]
      omega
    obtain ⟨s, hs, hset⟩ := run_render v true (.arr [] :: st) (hfit ▸ h.2.1)
    refine ⟨.done (.arr (toValidElems (v :: vs))) st, ?_, rfl⟩
    rw [render, run_cons_of_step hb, run_append_of_run hs, run_renderElems vs hset h.2.2]
    rfl
  | .obj [], first, st, h => by
    have hd : st.length < maxNestingDepth := by simp only [Fits] at h; omega
    have hb : step (.value first st) 0x7B = some (.key true [] st) := by
      rw [step_value first st (by decide) (by decide)]
      simp [beginValue, hd]
    refine ⟨.done (.obj []) st, ?_, rfl⟩
    rw [render, run_cons_of_step hb]
    simp [run_cons, step, isSpace]
  | .obj ((k, v) :: ms), first, st, h => by
    simp only [Fits, FitsMembers] at h
    have hd : st.length < maxNestingDepth := by omega
    have hb : step (.value first st) 0x7B = some (.key true [] st) := by
      rw [step_value first st (by decide) (by decide)]
      simp [beginValue, hd]
    have hfit : maxNestingDepth - (Frame.obj [] (Utf8.toValid k) :: st).length =
        maxNestingDepth - st.length - 1 := by
      simp only [List.length_cons]
      omega
    obtain ⟨s, hs, hset⟩ :=
      run_render v false (.obj [] (Utf8.toValid k) :: st) (hfit ▸ h.2.1)
    refine ⟨.done (.obj (toValidMembers ((k, v) :: ms))) st, ?_, rfl⟩
    rw [render, run_cons_of_step hb, run_key, run_append_of_run hs,
      run_renderMembers ms hset h.2.2]
    rfl

/-- The rest of an array, behind a complete element. -/
theorem run_renderElems : ∀ (vs : List Json) {s : Scan} {v : Json} {es : List Json}
    {st : List Frame}, s.settled = some (v, .arr es :: st) →
    FitsElems (maxNestingDepth - st.length - 1) vs →
    run s (renderElems vs) = some (.done (.arr ((v :: es).reverse ++ toValidElems vs)) st)
  | [], s, v, es, st, hs, _ => by
    rw [renderElems, run_cons, step_settled hs (by decide)]
    simp [afterValue, isSpace, toValidElems]
  | w :: vs, s, v, es, st, hs, h => by
    simp only [FitsElems] at h
    have hb : step s 0x2C = some (.value false (.arr (v :: es) :: st)) := by
      rw [step_settled hs (by decide)]
      simp [afterValue, isSpace]
    have hfit : maxNestingDepth - (Frame.arr (v :: es) :: st).length =
        maxNestingDepth - st.length - 1 := by
      simp only [List.length_cons]
      omega
    obtain ⟨s', hs', hset⟩ := run_render w false (.arr (v :: es) :: st) (hfit ▸ h.1)
    rw [renderElems, run_cons_of_step hb, run_append_of_run hs', run_renderElems vs hset h.2]
    simp [toValidElems]

/-- The rest of an object, behind a complete member. -/
theorem run_renderMembers : ∀ (ms : List (Bytes × Json)) {s : Scan} {v : Json}
    {done : List (Bytes × Json)} {k : Bytes} {st : List Frame},
    s.settled = some (v, .obj done k :: st) →
    FitsMembers (maxNestingDepth - st.length - 1) ms →
    run s (renderMembers ms) =
      some (.done (.obj (((k, v) :: done).reverse ++ toValidMembers ms)) st)
  | [], s, v, done, k, st, hs, _ => by
    rw [renderMembers, run_cons, step_settled hs (by decide)]
    simp [afterValue, isSpace, toValidMembers]
  | (k', w) :: ms, s, v, done, k, st, hs, h => by
    simp only [FitsMembers] at h
    have hb : step s 0x2C = some (.key false ((k, v) :: done) st) := by
      rw [step_settled hs (by decide)]
      simp [afterValue, isSpace]
    have hfit : maxNestingDepth -
        (Frame.obj ((k, v) :: done) (Utf8.toValid k') :: st).length =
        maxNestingDepth - st.length - 1 := by
      simp only [List.length_cons]
      omega
    obtain ⟨s', hs', hset⟩ :=
      run_render w false (.obj ((k, v) :: done) (Utf8.toValid k') :: st) (hfit ▸ h.1)
    rw [renderMembers, run_cons_of_step hb, run_key,
      run_append_of_run hs', run_renderMembers ms hset h.2]
    simp [toValidMembers]
end

/-- Decoding inverts encoding, up to the coercion of strings to valid UTF-8. -/
theorem parse_render {v : Json} (h : Fits maxNestingDepth v) :
    parse (render v) = some (toValid v) := by
  obtain ⟨s, hs, hset⟩ := run_render v false [] h
  simp [parse, hs, hset]

/-! ## 4. Scanned strings are valid UTF-8 -/

theorem toValidElems_eq_map (vs : List Json) : toValidElems vs = vs.map toValid := by
  induction vs with
  | nil => rfl
  | cons v vs ih => rw [toValidElems, ih, List.map_cons]

theorem toValidMembers_eq_map (ms : List (Bytes × Json)) :
    toValidMembers ms = ms.map fun m => (Utf8.toValid m.1, toValid m.2) := by
  induction ms with
  | nil => rfl
  | cons m ms ih => rw [toValidMembers, ih, List.map_cons]

def Frame.Valid : Frame → Prop
  | .arr es => toValidElems es = es
  | .obj ms k => toValidMembers ms = ms ∧ Utf8.Valid k

/-- Every string the scanner has completed is valid. -/
def Scan.Valid : Scan → Prop
  | .value _ st => ∀ f ∈ st, f.Valid
  | .key _ ms st => toValidMembers ms = ms ∧ ∀ f ∈ st, f.Valid
  | .inKey ms st _ _ => toValidMembers ms = ms ∧ ∀ f ∈ st, f.Valid
  | .colon ms k st => (toValidMembers ms = ms ∧ Utf8.Valid k) ∧ ∀ f ∈ st, f.Valid
  | .inStr st _ _ => ∀ f ∈ st, f.Valid
  | .word _ v st => toValid v = v ∧ ∀ f ∈ st, f.Valid
  | .num _ _ st => ∀ f ∈ st, f.Valid
  | .done v st => toValid v = v ∧ ∀ f ∈ st, f.Valid

theorem toValid_arr_reverse {es : List Json} (h : toValidElems es = es) :
    toValid (.arr es.reverse) = .arr es.reverse := by
  rw [toValidElems_eq_map] at h
  rw [toValid, toValidElems_eq_map, List.map_reverse, h]

theorem toValid_obj_reverse {ms : List (Bytes × Json)} (h : toValidMembers ms = ms) :
    toValid (.obj ms.reverse) = .obj ms.reverse := by
  rw [toValidMembers_eq_map] at h
  rw [toValid, toValidMembers_eq_map, List.map_reverse, h]

theorem toValidMembers_cons {k : Bytes} {v : Json} {ms : List (Bytes × Json)}
    (hk : Utf8.Valid k) (hv : toValid v = v) (hms : toValidMembers ms = ms) :
    toValidMembers ((k, v) :: ms) = (k, v) :: ms := by
  rw [toValidMembers, hk, hv, hms]

theorem valid_literal (ps : List Piece) : Utf8.Valid (literal ps) := valid_toValid _

theorem beginValue_valid {b : UInt8} {st : List Frame} {s' : Scan} (hst : ∀ f ∈ st, f.Valid)
    (h : beginValue b st = some s') : s'.Valid := by
  unfold beginValue at h
  split at h
  · cases h; exact hst
  split at h
  · split at h
    · cases h; exact ⟨rfl, hst⟩
    · cases h
  split at h
  · split at h
    · cases h
      intro f hf
      rcases List.mem_cons.mp hf with rfl | hf
      · rfl
      · exact hst f hf
    · cases h
  split at h
  · cases h; exact ⟨rfl, hst⟩
  split at h
  · cases h; exact ⟨rfl, hst⟩
  split at h
  · cases h; exact ⟨rfl, hst⟩
  · obtain ⟨n, _, rfl⟩ := Option.map_eq_some_iff.mp h
    exact hst

theorem afterValue_valid {v : Json} {st : List Frame} {b : UInt8} {s' : Scan}
    (hv : toValid v = v) (hst : ∀ f ∈ st, f.Valid) (h : afterValue v st b = some s') :
    s'.Valid := by
  unfold afterValue at h
  split at h
  · cases h; exact ⟨hv, hst⟩
  split at h
  · cases h
  · next es st' =>
    have hes : toValidElems (v :: es) = v :: es := by
      rw [toValidElems, hv, hst (.arr es) List.mem_cons_self]
    have hst' : ∀ f ∈ st', f.Valid := fun f hf => hst f (List.mem_cons_of_mem _ hf)
    split at h
    · cases h
      intro f hf
      rcases List.mem_cons.mp hf with rfl | hf
      · exact hes
      · exact hst' f hf
    split at h
    · cases h; exact ⟨toValid_arr_reverse hes, hst'⟩
    · cases h
  · next ms k st' =>
    obtain ⟨hms, hk⟩ := hst (.obj ms k) List.mem_cons_self
    have hms' := toValidMembers_cons hk hv hms
    have hst' : ∀ f ∈ st', f.Valid := fun f hf => hst f (List.mem_cons_of_mem _ hf)
    split at h
    · cases h; exact ⟨hms', hst'⟩
    split at h
    · cases h; exact ⟨toValid_obj_reverse hms', hst'⟩
    · cases h

theorem step_valid {s s' : Scan} {b : UInt8} (hs : s.Valid) (h : step s b = some s') :
    s'.Valid := by
  cases s with
  | value first st =>
    simp only [step] at h
    split at h
    · cases h; exact hs
    split at h
    · split at h
      · next es st' =>
        cases h
        exact ⟨toValid_arr_reverse (hs (.arr es) List.mem_cons_self),
          fun f hf => hs f (List.mem_cons_of_mem _ hf)⟩
      · cases h
    · exact beginValue_valid hs h
  | key first ms st =>
    simp only [step] at h
    split at h
    · cases h; exact hs
    split at h
    · cases h; exact hs
    split at h
    · cases h; exact ⟨toValid_obj_reverse hs.1, hs.2⟩
    · cases h
  | inKey ms st ps e =>
    simp only [step] at h
    split at h
    · cases h
    · cases h; exact ⟨⟨hs.1, valid_literal ps⟩, hs.2⟩
    · cases h; exact hs
  | colon ms k st =>
    simp only [step] at h
    split at h
    · cases h; exact hs
    split at h
    · cases h
      intro f hf
      rcases List.mem_cons.mp hf with rfl | hf
      · exact hs.1
      · exact hs.2 f hf
    · cases h
  | inStr st ps e =>
    simp only [step] at h
    split at h
    · cases h
    · cases h
      refine ⟨?_, hs⟩
      rw [toValid, valid_literal ps]
    · cases h; exact hs
  | word rest v st =>
    simp only [step] at h
    split at h
    · cases h
    split at h
    · split at h
      · cases h; exact hs
      · cases h; exact hs
    · cases h
  | num n text st =>
    simp only [step] at h
    split at h
    · cases h; exact hs
    split at h
    · exact afterValue_valid rfl hs h
    · cases h
  | done v st => exact afterValue_valid hs.1 hs.2 h

theorem run_valid {s s' : Scan} {bs : Bytes} (hs : s.Valid) (h : run s bs = some s') :
    s'.Valid := by
  induction bs generalizing s with
  | nil => cases h; exact hs
  | cons b bs ih =>
    rw [run_cons] at h
    obtain ⟨m, hm, hrest⟩ := Option.bind_eq_some_iff.mp h
    exact ih (step_valid hs hm) hrest

theorem settled_valid {s : Scan} {v : Json} {st : List Frame} (hs : s.Valid)
    (h : s.settled = some (v, st)) : toValid v = v := by
  cases s with
  | done v' st' => cases h; exact hs.1
  | num n text st' =>
    simp only [Scan.settled] at h
    split at h
    · cases h; rfl
    · cases h
  | _ => cases h

/-- Every string and key of a scanned text is valid UTF-8. -/
theorem parse_valid {bs : Bytes} {v : Json} (h : parse bs = some v) : toValid v = v := by
  unfold parse at h
  split at h
  · next w hw =>
    cases h
    obtain ⟨s, hs, hset⟩ := Option.bind_eq_some_iff.mp hw
    exact settled_valid (run_valid (s := .value false []) (by simp [Scan.Valid]) hs) hset
  · cases h

/-! ## 5. No NUL byte -/

/-- What is left of a word the scanner is in has no NUL byte. -/
def Scan.Regular : Scan → Prop
  | .word rest _ _ => 0 ∉ rest
  | _ => True

theorem beginValue_regular {b : UInt8} {st : List Frame} {s : Scan}
    (h : beginValue b st = some s) : s.Regular := by
  have hword : ∀ {w : Bytes} {v : Json}, (0 : UInt8) ∉ w → some (Scan.word w v st) = some s →
      s.Regular := fun hw h => Option.some.inj h ▸ hw
  unfold beginValue at h
  split at h
  · cases h
    trivial
  split at h
  · split at h
    · cases h
      trivial
    · cases h
  split at h
  · split at h
    · cases h
      trivial
    · cases h
  split at h
  · exact hword (by decide) h
  split at h
  · exact hword (by decide) h
  split at h
  · exact hword (by decide) h
  · obtain ⟨n, -, rfl⟩ := Option.map_eq_some_iff.mp h
    trivial

theorem afterValue_regular {v : Json} {st : List Frame} {b : UInt8} {s : Scan}
    (h : afterValue v st b = some s) : s.Regular := by
  unfold afterValue at h
  repeat' split at h
  all_goals cases h
  all_goals trivial

theorem step_regular {s s' : Scan} {b : UInt8} (hs : s.Regular) (h : step s b = some s') :
    s'.Regular := by
  cases s with
  | value first st =>
    simp only [step] at h
    split at h
    · cases h
      trivial
    · split at h
      · split at h
        · cases h
          trivial
        · cases h
      · exact beginValue_regular h
  | word rest v st =>
    simp only [step] at h
    repeat' split at h
    all_goals cases h
    · trivial
    · exact fun hm => hs (List.mem_cons_of_mem _ hm)
  | num n text st =>
    simp only [step] at h
    split at h
    · cases h
      trivial
    · split at h
      · exact afterValue_regular h
      · cases h
  | done v st => exact afterValue_regular h
  | key first ms st =>
    simp only [step] at h
    repeat' split at h
    all_goals cases h
    all_goals trivial
  | inKey ms st ps e =>
    simp only [step] at h
    split at h
    all_goals cases h
    all_goals trivial
  | colon ms k st =>
    simp only [step] at h
    repeat' split at h
    all_goals cases h
    all_goals trivial
  | inStr st ps e =>
    simp only [step] at h
    split at h
    all_goals cases h
    all_goals trivial

theorem afterValue_nul (v : Json) (st : List Frame) : afterValue v st 0 = none := by
  unfold afterValue
  rw [if_neg (by decide)]
  split <;> rfl

theorem strStep_nul (ps : List Piece) (e : Esc) : strStep ps e 0 = none := by
  cases e <;> rfl

theorem step_nul {s : Scan} (hs : s.Regular) : step s 0 = none := by
  cases s with
  | value first st =>
    cases first <;> rfl
  | key first ms st =>
    cases first <;> rfl
  | inKey ms st ps e => simp only [step, strStep_nul]
  | colon ms k st => rfl
  | inStr st ps e => simp only [step, strStep_nul]
  | word rest v st =>
    cases rest with
    | nil => rfl
    | cons c rest =>
      have hc : (0 : UInt8) ≠ c := fun h => hs (h ▸ List.mem_cons_self)
      simp only [step, if_neg hc]
  | num n text st =>
    have hn : n.step 0 = none := by cases n <;> rfl
    simp only [step, hn, afterValue_nul, ite_self]
  | done v st => exact afterValue_nul v st

/-- A NUL byte is nowhere in a JSON text. -/
theorem parse_nul (xs ys : Bytes) : parse (xs ++ 0 :: ys) = none := by
  have hrun : ∀ (xs : Bytes) {s : Scan}, s.Regular → run s (xs ++ 0 :: ys) = none := by
    intro xs
    induction xs with
    | nil =>
      intro s hs
      rw [List.nil_append, run_cons, step_nul hs]
      rfl
    | cons b xs ih =>
      intro s hs
      rw [List.cons_append, run_cons]
      cases hb : step s b with
      | none => rfl
      | some s' => exact ih (step_regular hs hb)
  rw [parse, hrun xs (s := .value false []) trivial]
  rfl

end Go.Json
