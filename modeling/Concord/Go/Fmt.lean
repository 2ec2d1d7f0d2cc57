import Concord.Go.Utf8
import Mathlib.Data.List.TakeDrop

/-!
# `fmt.Errorf` without operands

`errorf` is the message of `fmt.Errorf(format)`: the format's directives find no
operand and are replaced by the package's complaints, and `%%` by one percent
sign. `errorf_eq_iff`: a text is kept exactly if it has no percent sign.

A complaint has a percent sign of its own, so that a text with directives could
come out as it was. It does not: `weight` counts the bytes that can give rise
to percent signs, and a complaint moves what is behind it.
-/

namespace Go.Fmt

def percent : UInt8 := 0x25

def isFlag (b : UInt8) : Bool := b = 0x23 || b = 0x30 || b = 0x2B || b = 0x2D || b = 0x20

def isDigit (b : UInt8) : Bool := 0x30 ≤ b && b ≤ 0x39

/-- `parsenum` from the start of a text: whether there was a number, and what is
left. A number above a million takes the whole text with it. -/
def parsenum (num : Nat) (isnum : Bool) : Bytes → Bool × Bytes
  | [] => (isnum, [])
  | b :: s =>
    if isDigit b then
      if num > 1000000 then (false, []) else parsenum (num * 10 + (b.toNat - 0x30)) true s
    else (isnum, b :: s)

/-- `argNumber` when there are no arguments: the rest, whether the argument number
is still good, and whether an index was found. -/
def argNumber (s : Bytes) (good : Bool) : Bytes × Bool × Bool :=
  match s with
  | 0x5B :: t =>
    if s.length < 3 then (t, false, false)
    else
      match t.span (fun b => b ≠ 0x5D) with
      | (inner, _ :: rest) =>
        match parsenum 0 false inner with
        | (true, []) => (rest, false, true)
        | _ => (rest, false, false)
      | (_, []) => (t, false, false)
  | _ => (s, good, false)

/-- The verb's text: its rune, or U+FFFD for an ill-formed byte. -/
def takeVerb (b : UInt8) (s : Bytes) : Bytes × Bytes :=
  match Utf8.runeLen b s with
  | 0 => (Utf8.runeError, s)
  | n + 1 => (b :: s.take n, s.drop n)

/-- What is printed for the directive after a percent sign, and what is left. -/
def directive (s : Bytes) : Bytes × Bytes :=
  let s := s.dropWhile isFlag
  let (s, good, afterIndex) := argNumber s true
  let (out, s, good, afterIndex) :=
    match s with
    | 0x2A :: s => (ascii "%!(BADWIDTH)", s, good, false)
    | _ =>
      let (isnum, s) := parsenum 0 false s
      ([], s, good && !(afterIndex && isnum), afterIndex)
  let (out, s, good, afterIndex) :=
    match s with
    | 0x2E :: s =>
      let (s, good, afterIndex) := argNumber s (good && !afterIndex)
      match s with
      | 0x2A :: s => (out ++ ascii "%!(BADPREC)", s, good, false)
      | _ => (out, (parsenum 0 false s).2, good, afterIndex)
    | _ => (out, s, good, afterIndex)
  let (s, good, _) := if afterIndex then (s, good, true) else argNumber s good
  match s with
  | [] => (out ++ ascii "%!(NOVERB)", [])
  | b :: s =>
    if b = percent then (out ++ [percent], s)
    else
      let (verb, s) := takeVerb b s
      (out ++ ascii "%!" ++ verb ++ (if good then ascii "(MISSING)" else ascii "(BADINDEX)"), s)

def errorfFrom : Nat → Bytes → Bytes
  | _, [] => []
  | 0, s => s
  | n + 1, b :: s =>
    if b = percent then
      let (out, s) := directive s
      out ++ errorfFrom n s
    else b :: errorfFrom n s

/-- Each round takes at least one byte of the format, so its length is fuel
enough. -/
def errorf (format : Bytes) : Bytes := errorfFrom format.length format

theorem errorfFrom_of_no_percent {s : Bytes} (n : Nat) (h : percent ∉ s) : errorfFrom n s = s := by
  induction n generalizing s with
  | zero => cases s <;> rfl
  | succ n ih =>
    cases s with
    | nil => rfl
    | cons b s =>
      rw [List.mem_cons, not_or] at h
      rw [errorfFrom, if_neg (Ne.symm h.1), ih h.2]

theorem errorf_of_no_percent {s : Bytes} (h : percent ∉ s) : errorf s = s :=
  errorfFrom_of_no_percent s.length h

example : errorf (ascii "100% done, 5%%, %-5.3[2]x, %") =
    ascii "100%!d(MISSING)one, 5%, %!x(BADINDEX), %!(NOVERB)" := by decide

theorem errorfFrom_percent (n : Nat) (s : Bytes) :
    errorfFrom (n + 1) (percent :: s) = (directive s).1 ++ errorfFrom n (directive s).2 := by
  rw [errorfFrom, if_pos rfl]

/-! ## Texts that are kept -/

/-- The bytes a directive can make percent signs from: percent signs, and the stars that are
complained about. -/
def isHot (b : UInt8) : Bool := b = percent || b = 0x2A

def weight (s : Bytes) : Nat := s.countP isHot

theorem weight_append (s t : Bytes) : weight (s ++ t) = weight s + weight t := List.countP_append

theorem weight_cons_percent (s : Bytes) : weight (percent :: s) = weight s + 1 :=
  List.countP_cons_of_pos rfl

theorem parsenum_sublist (num : Nat) (isnum : Bool) (s : Bytes) :
    (parsenum num isnum s).2.Sublist s := by
  induction s generalizing num isnum with
  | nil => exact List.Sublist.refl _
  | cons b s ih =>
    rw [parsenum]
    split
    · split
      · exact List.nil_sublist _
      · exact (ih _ _).cons b
    · exact List.Sublist.refl _

theorem argNumber_sublist (s : Bytes) (good : Bool) : (argNumber s good).1.Sublist s := by
  unfold argNumber
  split
  · next t =>
    split
    · exact List.sublist_cons_self _ t
    · split
      · next inner c rest hspan =>
        have hdrop : t.dropWhile (fun b => b ≠ 0x5D) = c :: rest := by
          rw [List.span_eq_takeWhile_dropWhile] at hspan
          exact (Prod.mk.inj hspan).2
        have hrest : rest.Sublist (0x5B :: t) :=
          ((List.sublist_cons_self c rest).trans (hdrop ▸ List.dropWhile_sublist _)).cons _
        split
        · exact hrest
        · exact hrest
      · exact List.sublist_cons_self _ t
  · exact List.Sublist.refl s

/-- The width of a directive. -/
def width (s : Bytes) (good afterIndex : Bool) : Bytes × Bytes × Bool × Bool :=
  match s with
  | 0x2A :: s => (ascii "%!(BADWIDTH)", s, good, false)
  | _ =>
    let (isnum, s) := parsenum 0 false s
    ([], s, good && !(afterIndex && isnum), afterIndex)

/-- The precision, behind what was printed for the width. -/
def precision (out s : Bytes) (good afterIndex : Bool) : Bytes × Bytes × Bool × Bool :=
  match s with
  | 0x2E :: s =>
    let (s, good, afterIndex) := argNumber s (good && !afterIndex)
    match s with
    | 0x2A :: s => (out ++ ascii "%!(BADPREC)", s, good, false)
    | _ => (out, (parsenum 0 false s).2, good, afterIndex)
  | _ => (out, s, good, afterIndex)

/-- The verb, behind what was printed before. -/
def verb (out s : Bytes) (good : Bool) : Bytes × Bytes :=
  match s with
  | [] => (out ++ ascii "%!(NOVERB)", [])
  | b :: s =>
    if b = percent then (out ++ [percent], s)
    else
      let (verb, s) := takeVerb b s
      (out ++ ascii "%!" ++ verb ++ (if good then ascii "(MISSING)" else ascii "(BADINDEX)"), s)

theorem directive_eq (s : Bytes) :
    directive s =
      let a := argNumber (s.dropWhile isFlag) true
      let w := width a.1 a.2.1 a.2.2
      let p := precision w.1 w.2.1 w.2.2.1 w.2.2.2
      let i := if p.2.2.2 then (p.2.1, p.2.2.1, true) else argNumber p.2.1 p.2.2.1
      verb p.1 i.1 i.2.1 := rfl

/-- A text that is empty or starts with a complaint. -/
def Complains (out : Bytes) : Prop := out = [] ∨ ∃ rest, out = ascii "%!" ++ rest

theorem Complains.append {out out' : Bytes} (h : Complains out) (h' : Complains out') :
    Complains (out ++ out') := by
  rcases h with rfl | ⟨rest, rfl⟩
  · exact h'
  · exact .inr ⟨rest ++ out', List.append_assoc _ _ _⟩

theorem width_weight (s : Bytes) (good afterIndex : Bool) :
    Complains (width s good afterIndex).1 ∧
      weight (width s good afterIndex).1 + weight (width s good afterIndex).2.1 ≤ weight s := by
  unfold width
  split
  · next t =>
    refine ⟨.inr ⟨_, rfl⟩, ?_⟩
    have hstar : weight (0x2A :: t) = weight t + 1 := List.countP_cons_of_pos rfl
    have hout : weight (ascii "%!(BADWIDTH)") = 1 := by decide
    rw [hstar, hout]
    exact (Nat.add_comm _ _).le
  · refine ⟨.inl rfl, ?_⟩
    rw [show weight [] = 0 from rfl, Nat.zero_add]
    exact (parsenum_sublist 0 false s).countP_le

theorem precision_weight (out s : Bytes) (good afterIndex : Bool) (hout : Complains out) :
    Complains (precision out s good afterIndex).1 ∧
      weight (precision out s good afterIndex).1 + weight (precision out s good afterIndex).2.1 ≤
        weight out + weight s := by
  unfold precision
  split
  · next t =>
    have harg : weight (argNumber t (good && !afterIndex)).1 ≤ weight (0x2E :: t) :=
      ((argNumber_sublist t _).cons _).countP_le
    generalize argNumber t (good && !afterIndex) = a at harg
    obtain ⟨t', good', afterIndex'⟩ := a
    simp only
    split
    · next u =>
      refine ⟨hout.append (.inr ⟨_, rfl⟩), ?_⟩
      have hstar : weight (0x2A :: u) = weight u + 1 := List.countP_cons_of_pos rfl
      have hprec : weight (ascii "%!(BADPREC)") = 1 := by decide
      simp only [weight_append, hprec, hstar] at harg ⊢
      omega
    · refine ⟨hout, Nat.add_le_add_left ?_ _⟩
      exact (parsenum_sublist 0 false t').countP_le.trans harg
  · exact ⟨hout, Nat.le_refl _⟩

theorem takeVerb_weight (b : UInt8) (s : Bytes) :
    weight (takeVerb b s).1 + weight (takeVerb b s).2 ≤ weight (b :: s) := by
  unfold takeVerb
  split
  · have hrune : weight Utf8.runeError = 0 := by decide
    rw [hrune, Nat.zero_add]
    exact (List.sublist_cons_self b s).countP_le
  · next n _ =>
    rw [← weight_append, List.cons_append, List.take_append_drop]

/-- Either the verb was a percent sign, which costs one, or the output is a complaint. -/
theorem verb_weight (out s : Bytes) (good : Bool) (hout : Complains out) :
    weight (verb out s good).1 + weight (verb out s good).2 ≤ weight out + weight s ∨
    (∃ rest, (verb out s good).1 = ascii "%!" ++ rest) ∧
      weight (verb out s good).1 + weight (verb out s good).2 ≤ weight out + weight s + 1 := by
  have hcomplains : ∀ rest, ∃ rest', out ++ ascii "%!" ++ rest = ascii "%!" ++ rest' := by
    intro rest
    rcases hout with rfl | ⟨o, rfl⟩
    · exact ⟨rest, rfl⟩
    · exact ⟨o ++ ascii "%!" ++ rest, by simp only [List.append_assoc]⟩
  unfold verb
  split
  · refine .inr ⟨?_, ?_⟩
    · obtain ⟨rest, hrest⟩ := hcomplains (ascii "(NOVERB)")
      exact ⟨rest, by rw [← hrest, List.append_assoc]; rfl⟩
    · have hnoverb : weight (ascii "%!(NOVERB)") = 1 := by decide
      rw [weight_append, hnoverb]
      rfl
  · next b t =>
    split
    · next hb =>
      refine .inl ?_
      simp only [hb, weight_append, weight_cons_percent]
      rw [show weight [] = 0 from rfl]
      omega
    · refine .inr ⟨?_, ?_⟩
      · obtain ⟨rest, hrest⟩ := hcomplains
          ((takeVerb b t).1 ++ if good then ascii "(MISSING)" else ascii "(BADINDEX)")
        exact ⟨rest, by rw [← hrest]; simp only [List.append_assoc]⟩
      · have htake := takeVerb_weight b t
        have hmark : weight (ascii "%!") = 1 := by decide
        have hmissing : weight (if good then ascii "(MISSING)" else ascii "(BADINDEX)") = 0 := by
          cases good <;> decide
        simp only [weight_append, hmark, hmissing]
        omega

theorem directive_weight (s : Bytes) :
    weight (directive s).1 + weight (directive s).2 ≤ weight s ∨
    (∃ rest, (directive s).1 = ascii "%!" ++ rest) ∧
      weight (directive s).1 + weight (directive s).2 ≤ weight s + 1 := by
  rw [directive_eq]
  dsimp only
  have hflags : weight (s.dropWhile isFlag) ≤ weight s := (List.dropWhile_sublist _).countP_le
  have harg : weight (argNumber (s.dropWhile isFlag) true).1 ≤ weight (s.dropWhile isFlag) :=
    (argNumber_sublist _ _).countP_le
  generalize argNumber (s.dropWhile isFlag) true = a at harg
  obtain ⟨hw, hweight⟩ := width_weight a.1 a.2.1 a.2.2
  generalize width a.1 a.2.1 a.2.2 = w at hw hweight
  obtain ⟨hp, hprec⟩ := precision_weight w.1 w.2.1 w.2.2.1 w.2.2.2 hw
  generalize precision w.1 w.2.1 w.2.2.1 w.2.2.2 = p at hp hprec
  have hindex : weight (if p.2.2.2 then (p.2.1, p.2.2.1, true) else argNumber p.2.1 p.2.2.1).1 ≤
      weight p.2.1 := by
    split
    · exact Nat.le_refl _
    · exact (argNumber_sublist _ _).countP_le
  generalize (if p.2.2.2 then (p.2.1, p.2.2.1, true) else argNumber p.2.1 p.2.2.1) = i at hindex
  rcases verb_weight p.1 i.1 i.2.1 hp with h | ⟨hrest, h⟩
  · exact .inl (by omega)
  · exact .inr ⟨hrest, by omega⟩

/-- Formatting makes no percent signs but from percent signs and stars. -/
theorem weight_errorfFrom_le (n : Nat) (s : Bytes) : weight (errorfFrom n s) ≤ weight s := by
  induction n generalizing s with
  | zero =>
    cases s <;> exact Nat.le_refl _
  | succ n ih =>
    cases s with
    | nil => exact Nat.le_refl _
    | cons b s =>
      rw [errorfFrom]
      split
      · next hb =>
        have hrest := ih (directive s).2
        simp only [hb, weight_append, weight_cons_percent]
        rcases directive_weight s with h | ⟨-, h⟩
        · omega
        · omega
      · have hrest := ih s
        rw [weight, weight, List.countP_cons, List.countP_cons]
        exact Nat.add_le_add_right hrest _

/-- Up to the first percent sign. -/
theorem errorfFrom_append {u : Bytes} (n : Nat) (s : Bytes) (h : percent ∉ u) :
    errorfFrom (u.length + n) (u ++ s) = u ++ errorfFrom n s := by
  induction u with
  | nil => rw [List.length_nil, Nat.zero_add, List.nil_append, List.nil_append]
  | cons b u ih =>
    rw [List.mem_cons, not_or] at h
    rw [List.length_cons, Nat.add_right_comm, List.cons_append, errorfFrom, if_neg (Ne.symm h.1),
      ih h.2, List.cons_append]

/-- Nothing is kept behind a text without percent signs. -/
theorem ne_append_errorfFrom {w r : Bytes} {n : Nat} (hn : r.length ≤ n) (hw : w ≠ [])
    (hpercent : percent ∉ w) : r ≠ w ++ errorfFrom n r := by
  intro h
  by_cases hr : percent ∈ r
  · -- the first percent sign of `r` is where `w` and what is before it still go on
    obtain ⟨u, t, rfl, hu⟩ := List.eq_append_cons_of_mem hr
    obtain ⟨m, rfl⟩ : ∃ m, n = u.length + m := Nat.exists_eq_add_of_le (by
      rw [List.length_append] at hn
      omega)
    rw [errorfFrom_append m _ hu, ← List.append_assoc] at h
    have hlt : u.length < (w ++ u).length := by
      rw [List.length_append]
      have hpos := List.length_pos_of_ne_nil hw
      omega
    have hat : (w ++ u)[u.length]? = some percent := by
      have hget := congrArg (·[u.length]?) h
      simp only [List.getElem?_append_left hlt, List.getElem?_append_right (Nat.le_refl _),
        Nat.sub_self, List.getElem?_cons_zero] at hget
      exact hget.symm
    rcases List.mem_append.mp (List.mem_of_getElem? hat) with hmem | hmem
    · exact hpercent hmem
    · exact hu hmem
  · rw [errorfFrom_of_no_percent n hr] at h
    exact hw (List.self_eq_append_left.mp h)

theorem directive_bang (r : Bytes) : directive (0x21 :: r) = (ascii "%!!(MISSING)", r) := rfl

/-- A message is kept exactly if there is no percent sign in it. -/
theorem errorf_eq_iff (s : Bytes) : errorf s = s ↔ percent ∉ s := by
  refine ⟨fun h hs => ?_, errorf_of_no_percent⟩
  obtain ⟨u, t, rfl, hu⟩ := List.eq_append_cons_of_mem hs
  -- the text before the first directive is kept
  have hfirst : errorfFrom (t.length + 1) (percent :: t) = percent :: t := by
    rw [errorf, List.length_append, List.length_cons, errorfFrom_append _ _ hu] at h
    exact List.append_cancel_left h
  rw [errorfFrom_percent] at hfirst
  have hrest := weight_errorfFrom_le t.length (directive t).2
  have hweight : weight (directive t).1 + weight (errorfFrom t.length (directive t).2) =
      weight t + 1 := by
    rw [← weight_append, ← weight_cons_percent]
    exact congrArg weight hfirst
  rcases directive_weight t with hle | ⟨⟨rest, hout⟩, -⟩
  · omega
  · -- the output is a complaint, so the directive was one about an exclamation mark
    obtain ⟨r, rfl⟩ : ∃ r, t = 0x21 :: r := by
      rw [hout] at hfirst
      exact ⟨_, (List.cons.inj hfirst).2.symm⟩
    rw [directive_bang] at hfirst
    have htail : ascii "!(MISSING)" ++ errorfFrom (r.length + 1) r = r :=
      (List.cons.inj (List.cons.inj hfirst).2).2
    exact ne_append_errorfFrom (Nat.le_succ _) (by decide) (by decide) htail.symm

end Go.Fmt
