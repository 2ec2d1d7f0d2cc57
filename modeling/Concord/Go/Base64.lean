import Concord.Go.Utf8

/-!
# `encoding/base64`, standard alphabet with padding

* `encode` is `StdEncoding.EncodeToString`.
* `decode` is `StdEncoding.DecodeString`: carriage returns and line feeds are
  skipped wherever they stand, padding is required and ends the text, and
  leftover bits of the last group are not checked.
* `decode_encode`: decoding inverts encoding.
-/

namespace Go.Base64

/-- The character of a sextet. -/
def encodeSextet (n : Nat) : UInt8 :=
  if n < 26 then UInt8.ofNat (0x41 + n)
  else if n < 52 then UInt8.ofNat (0x61 + (n - 26))
  else if n < 62 then UInt8.ofNat (0x30 + (n - 52))
  else if n = 62 then 0x2B
  else 0x2F

/-- The sextet of a character. -/
def decodeSextet (b : UInt8) : Option Nat :=
  if 0x41 ≤ b ∧ b ≤ 0x5A then some (b.toNat - 0x41)
  else if 0x61 ≤ b ∧ b ≤ 0x7A then some (b.toNat - 0x61 + 26)
  else if 0x30 ≤ b ∧ b ≤ 0x39 then some (b.toNat - 0x30 + 52)
  else if b = 0x2B then some 62
  else if b = 0x2F then some 63
  else none

def pad : UInt8 := 0x3D

def encode : Bytes → Bytes
  | [] => []
  | [a] => [encodeSextet (a.toNat / 4), encodeSextet (a.toNat % 4 * 16), pad, pad]
  | [a, b] =>
    [encodeSextet (a.toNat / 4), encodeSextet (a.toNat % 4 * 16 + b.toNat / 16),
      encodeSextet (b.toNat % 16 * 4), pad]
  | a :: b :: c :: rest =>
    encodeSextet (a.toNat / 4) :: encodeSextet (a.toNat % 4 * 16 + b.toNat / 16) ::
      encodeSextet (b.toNat % 16 * 4 + c.toNat / 64) :: encodeSextet (c.toNat % 64) :: encode rest

/-- Groups of four characters, without line breaks. -/
def decodeGroups : Bytes → Option Bytes
  | [] => some []
  | w :: x :: y :: z :: rest =>
    match decodeSextet w, decodeSextet x with
    | some p, some q =>
      if y = pad then
        if z = pad ∧ rest = [] then some [UInt8.ofNat (p * 4 + q / 16)] else none
      else
        match decodeSextet y with
        | none => none
        | some r =>
          if z = pad then
            if rest = [] then
              some [UInt8.ofNat (p * 4 + q / 16), UInt8.ofNat (q % 16 * 16 + r / 4)]
            else none
          else
            match decodeSextet z with
            | none => none
            | some s =>
              (decodeGroups rest).map fun tail =>
                UInt8.ofNat (p * 4 + q / 16) :: UInt8.ofNat (q % 16 * 16 + r / 4) ::
                  UInt8.ofNat (r % 4 * 64 + s) :: tail
    | _, _ => none
  | _ => none

def isBreak (b : UInt8) : Bool := b = 0x0A || b = 0x0D

def decode (s : Bytes) : Option Bytes := decodeGroups (s.filter fun b => !isBreak b)

/-! ## Decoding inverts encoding -/

theorem sextet_all : ∀ n, n < 64 → decodeSextet (encodeSextet n) = some n ∧
    encodeSextet n ≠ pad ∧ isBreak (encodeSextet n) = false := by decide

theorem decodeSextet_encodeSextet {n : Nat} (h : n < 64) :
    decodeSextet (encodeSextet n) = some n := (sextet_all n h).1

theorem encodeSextet_ne_pad {n : Nat} (h : n < 64) : encodeSextet n ≠ pad := (sextet_all n h).2.1

theorem encodeSextet_lt : ∀ n, n < 64 → encodeSextet n < 0x80 := by decide

theorem isBreak_encodeSextet {n : Nat} (h : n < 64) : isBreak (encodeSextet n) = false :=
  (sextet_all n h).2.2

theorem ofNat_of_eq {a : UInt8} {n : Nat} (h : n = a.toNat) : UInt8.ofNat n = a := by
  rw [h, UInt8.ofNat_toNat]

theorem decodeGroups_encode (bs : Bytes) : decodeGroups (encode bs) = some bs := by
  induction bs using encode.induct with
  | case1 => rfl
  | case2 a =>
    have ha : a.toNat < 256 := a.toNat_lt
    rw [encode, decodeGroups, decodeSextet_encodeSextet (by omega),
      decodeSextet_encodeSextet (by omega)]
    simp only [if_true, and_self, Option.some.injEq, List.cons.injEq, and_true]
    exact ofNat_of_eq (by omega)
  | case3 a b =>
    have ha : a.toNat < 256 := a.toNat_lt
    have hb : b.toNat < 256 := b.toNat_lt
    rw [encode, decodeGroups, decodeSextet_encodeSextet (by omega),
      decodeSextet_encodeSextet (by omega)]
    have hy : encodeSextet (b.toNat % 16 * 4) ≠ pad := encodeSextet_ne_pad (by omega)
    simp only [hy, if_false, if_true, decodeSextet_encodeSextet (show b.toNat % 16 * 4 < 64 by omega),
      Option.some.injEq, List.cons.injEq, and_true]
    exact ⟨ofNat_of_eq (by omega), ofNat_of_eq (by omega)⟩
  | case4 a b c rest ih =>
    have ha : a.toNat < 256 := a.toNat_lt
    have hb : b.toNat < 256 := b.toNat_lt
    have hc : c.toNat < 256 := c.toNat_lt
    rw [encode, decodeGroups, decodeSextet_encodeSextet (by omega),
      decodeSextet_encodeSextet (by omega)]
    have hy : encodeSextet (b.toNat % 16 * 4 + c.toNat / 64) ≠ pad :=
      encodeSextet_ne_pad (by omega)
    have hz : encodeSextet (c.toNat % 64) ≠ pad := encodeSextet_ne_pad (by omega)
    simp only [hy, hz, if_false, ih, Option.map_some,
      decodeSextet_encodeSextet (show b.toNat % 16 * 4 + c.toNat / 64 < 64 by omega),
      decodeSextet_encodeSextet (show c.toNat % 64 < 64 by omega),
      Option.some.injEq, List.cons.injEq, and_true]
    exact ⟨ofNat_of_eq (by omega), ofNat_of_eq (by omega), ofNat_of_eq (by omega)⟩

/-- The characters of an encoding. -/
theorem encode_chars (bs : Bytes) : ∀ c ∈ encode bs, (∃ n < 64, c = encodeSextet n) ∨ c = pad := by
  induction bs using encode.induct with
  | case1 => simp [encode]
  | case2 a =>
    have ha : a.toNat < 256 := a.toNat_lt
    simp only [encode, List.mem_cons, List.not_mem_nil, or_false]
    rintro c (rfl | rfl | rfl | rfl)
    · exact .inl ⟨_, by omega, rfl⟩
    · exact .inl ⟨_, by omega, rfl⟩
    · exact .inr rfl
    · exact .inr rfl
  | case3 a b =>
    have ha : a.toNat < 256 := a.toNat_lt
    have hb : b.toNat < 256 := b.toNat_lt
    simp only [encode, List.mem_cons, List.not_mem_nil, or_false]
    rintro c (rfl | rfl | rfl | rfl)
    · exact .inl ⟨_, by omega, rfl⟩
    · exact .inl ⟨_, by omega, rfl⟩
    · exact .inl ⟨_, by omega, rfl⟩
    · exact .inr rfl
  | case4 a b c rest ih =>
    have ha : a.toNat < 256 := a.toNat_lt
    have hb : b.toNat < 256 := b.toNat_lt
    have hc : c.toNat < 256 := c.toNat_lt
    simp only [encode, List.mem_cons]
    rintro d (rfl | rfl | rfl | rfl | hd)
    · exact .inl ⟨_, by omega, rfl⟩
    · exact .inl ⟨_, by omega, rfl⟩
    · exact .inl ⟨_, by omega, rfl⟩
    · exact .inl ⟨_, by omega, rfl⟩
    · exact ih d hd

theorem encode_no_break (bs : Bytes) : ∀ c ∈ encode bs, isBreak c = false := by
  intro c hc
  rcases encode_chars bs c hc with ⟨n, hn, rfl⟩ | rfl
  · exact isBreak_encodeSextet hn
  · rfl

/-- An encoding is an ASCII text. -/
theorem encode_valid (bs : Bytes) : Utf8.Valid (encode bs) := by
  refine Utf8.valid_of_ascii fun c hc => ?_
  rcases encode_chars bs c hc with ⟨n, hn, rfl⟩ | rfl
  · exact encodeSextet_lt n hn
  · decide

theorem decode_encode (bs : Bytes) : decode (encode bs) = some bs := by
  have hf : (encode bs).filter (fun b => !isBreak b) = encode bs :=
    List.filter_eq_self.mpr fun c hc => by simp [encode_no_break bs c hc]
  rw [decode, hf, decodeGroups_encode]

theorem encode_inj {bs cs : Bytes} (h : encode bs = encode cs) : bs = cs := by
  have hdec := congrArg decode h
  rw [decode_encode, decode_encode] at hdec
  exact Option.some.inj hdec

@[simp] theorem decode_nil : decode [] = some [] := rfl

end Go.Base64
