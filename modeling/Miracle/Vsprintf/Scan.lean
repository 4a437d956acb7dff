import Miracle.Vsprintf.Decode

/-! # Scanning

`vsscanf` walks a format and a string and stores what it reads through its arguments in turn.  One
round of its loop handles white space, a character or a conversion.
-/

namespace Miracle.Vsprintf

open Strtox

/-! ## Parsing of numbers -/

/-- `simple_strtoull`: the value and the end of the text. -/
def simpleStrtoull (cp : List Char) (base : Nat) : Nat × List Char :=
  let (cp, base) := fixupRadix cp base
  let (rv, result) := parseInteger cp base
  (result, cp.drop (rv &&& (2 ^ 31 - 1)))

def simpleStrtoul (cp : List Char) (base : Nat) : Nat × List Char := simpleStrtoull cp base

def simpleStrtol (cp : List Char) (base : Nat) : Int × List Char :=
  if charAt cp 0 = '-' then
    let (result, endp) := simpleStrtoul (cp.drop 1) base
    (s64 (-result), endp)
  else
    let (result, endp) := simpleStrtoul cp base
    (s64 result, endp)

def simpleStrtoll (cp : List Char) (base : Nat) : Int × List Char :=
  if charAt cp 0 = '-' then
    let (result, endp) := simpleStrtoull (cp.drop 1) base
    (s64 (-result), endp)
  else
    let (result, endp) := simpleStrtoull cp base
    (s64 result, endp)

def skipSpaces (s : List Char) : List Char := s.dropWhile isspace

/-! ## Arguments -/

/-- The types that an integer is stored as. -/
structure IntType where
  bits : Nat
  signed : Bool
  deriving DecidableEq

/-- Conversion to a type. -/
def IntType.cast (type : IntType) (v : Int) : Int := if type.signed then v.bmod (2 ^ type.bits) else v % 2 ^ type.bits

/-- What is stored through an argument. -/
inductive Arg where
  | integer (type : IntType) (v : Int)
  | chars (cs : List Char)
  | string (cs : List Char)
  | position (n : Nat)
  deriving DecidableEq

/-- The qualifier of a conversion, if it has one. -/
def scanQualifier (fmt : List Char) : Option Char × List Char :=
  let c := charAt fmt 0
  if c = 'h' ∨ tolower c = 'l'.toNat ∨ tolower c = 'z'.toNat then
    let fmt := fmt.drop 1
    if c = charAt fmt 0 then
      if c = 'h' then (some 'H', fmt.drop 1)
      else if c = 'l' then (some 'L', fmt.drop 1)
      else (some c, fmt)
    else (some c, fmt)
  else (none, fmt)

/-- The type of the argument of an integer conversion. -/
def argType (qualifier : Option Char) (isSign : Bool) : IntType :=
  match qualifier with
  | some 'H' => ⟨8, isSign⟩
  | some 'h' => ⟨16, isSign⟩
  | some 'l' => ⟨64, isSign⟩
  | some 'L' => ⟨64, isSign⟩
  | some 'Z' => ⟨64, false⟩
  | some 'z' => ⟨64, false⟩
  | _ => ⟨32, isSign⟩

/-! ## The loop -/

/-- The rest of the format and of the string, and what has been stored. -/
structure ScanState where
  fmt : List Char
  str : List Char
  num : Nat
  args : List Arg
  deriving DecidableEq

/-- How a round ends. -/
inductive Round where
  | stop (st : ScanState)
  | next (st : ScanState)
  deriving DecidableEq

def ScanState.store (st : ScanState) (arg : Arg) : ScanState := { st with num := st.num + 1, args := st.args ++ [arg] }

/-- The loop that takes the digits beyond the field width off again: the value and the characters that are left. -/
def cutWidth (isSign : Bool) (base : Nat) (fieldWidth : Int) : Nat → Int → Int × Nat
  | 0, val => (val, 0)
  | n + 1, val =>
      if (n + 1 : Nat) > fieldWidth then cutWidth isSign base fieldWidth n (if isSign then val.tdiv base else val / base)
      else (val, n + 1)

/-- What an integer conversion needs to see first. -/
def startsNumber (base : Nat) (digit : Char) : Bool :=
  ¬ (digit = nul ∨ (base = 16 ∧ ¬ isxdigit digit) ∨ (base = 10 ∧ ¬ isdigit digit) ∨ (base = 8 ∧ (¬ isdigit digit ∨ digit > '7')) ∨
    (base = 0 ∧ ¬ isdigit digit))

/-- The whole run of digits: its value and the end. -/
def parseWhole (str : List Char) (qualifier : Option Char) (base : Nat) (isSign : Bool) : Int × List Char :=
  if isSign then if qualifier ≠ some 'L' then simpleStrtol str base else simpleStrtoll str base
  else
    let (val, next) := if qualifier ≠ some 'L' then simpleStrtoul str base else simpleStrtoull str base
    (val, next)

/-- The digits inside the field width: their value and the characters used. -/
def parseField (str : List Char) (qualifier : Option Char) (fieldWidth : Int) (base : Nat) (isSign : Bool) : Int × Nat :=
  let (val, next) := parseWhole str qualifier base isSign
  let length := str.length - next.length
  if fieldWidth > 0 ∧ length > fieldWidth then
    let base := if base = 0 then (fixupRadix str base).2 else base
    cutWidth isSign base fieldWidth length val
  else (val, length)

/-- An integer conversion, after the switch. -/
def scanInteger (st : ScanState) (qualifier : Option Char) (fieldWidth : Int) (base : Nat) (isSign : Bool) : Round :=
  let str := skipSpaces st.str
  let digit := if isSign ∧ charAt str 0 = '-' then charAt str 1 else charAt str 0
  if startsNumber base digit then
    let (val, length) := parseField str qualifier fieldWidth base isSign
    let type := argType qualifier isSign
    .next ({ st with str := str.drop length }.store (.integer type (type.cast val)))
  else .stop { st with str := str }

/-- The switch over the conversion, which is not at the end of the format or of the string. -/
def convert (st : ScanState) (qualifier : Option Char) (fieldWidth : Int) : Round :=
  let c := charAt st.fmt 0
  let st := { st with fmt := st.fmt.drop 1 }
  match c with
  | 'c' =>
      let count := if fieldWidth = -1 then 1 else fieldWidth.toNat
      .next ({ st with str := st.str.drop count }.store (.chars (st.str.take count)))
  | 's' =>
      let fieldWidth := if fieldWidth = -1 then 2 ^ 15 - 1 else fieldWidth
      let str := skipSpaces st.str
      let cs := (str.takeWhile fun c => ¬ isspace c).take fieldWidth.toNat
      .next ({ st with str := str.drop cs.length }.store (.string cs))
  | 'o' => scanInteger st qualifier fieldWidth 8 false
  | 'x' => scanInteger st qualifier fieldWidth 16 false
  | 'X' => scanInteger st qualifier fieldWidth 16 false
  | 'i' => scanInteger st qualifier fieldWidth 0 true
  | 'd' => scanInteger st qualifier fieldWidth 10 true
  | 'u' => scanInteger st qualifier fieldWidth 10 false
  | '%' => if charAt st.str 0 ≠ '%' then .stop st else .next { st with str := st.str.drop 1 }
  | _ => .stop st

/-- What follows a `%` that does not suppress its conversion.  `length` is the length of the whole string. -/
def directive (length : Nat) (st : ScanState) : Round :=
  let (fieldWidth, fmt) := if isdigit (charAt st.fmt 0) then
      let (i, fmt) := skipAtoi st.fmt 0
      (s16 i, fmt)
    else (-1, st.fmt)
  if isdigit (charAt st.fmt 0) ∧ fieldWidth ≤ 0 then .stop { st with fmt := fmt }
  else
    let (qualifier, fmt) := scanQualifier fmt
    let st := { st with fmt := fmt }
    if charAt fmt 0 = nul then .stop st
    else if charAt fmt 0 = 'n' then .next { st with fmt := fmt.drop 1, args := st.args ++ [.position (length - st.str.length)] }
    else if charAt st.str 0 = nul then .stop st
    else convert st qualifier fieldWidth

/-- The round after white space of the format. -/
def formatRound (length : Nat) (st : ScanState) : Round :=
  let c := charAt st.fmt 0
  if c ≠ '%' ∧ c ≠ nul then
    if c ≠ charAt st.str 0 then .stop st else .next { st with fmt := st.fmt.drop 1, str := st.str.drop 1 }
  else if c = nul then .stop st
  else
    let st := { st with fmt := st.fmt.drop 1 }
    if charAt st.fmt 0 = '*' then
      if charAt st.str 0 = nul then .stop st
      else .next { st with
        fmt := st.fmt.dropWhile fun c => ¬ isspace c ∧ c ≠ '%'
        str := st.str.dropWhile fun c => ¬ isspace c }
    else directive length st

/-- White space in the format matches any amount of it in the string. -/
def ScanState.skipWhite (st : ScanState) : ScanState :=
  if isspace (charAt st.fmt 0) then { st with fmt := skipSpaces (st.fmt.drop 1), str := skipSpaces st.str } else st

/-- A round of the loop of `vsscanf`. -/
def scanRound (length : Nat) (st : ScanState) : Round := formatRound length st.skipWhite

/-! ## Every round uses up a character of the format -/

theorem scanQualifier_length (fmt : List Char) : (scanQualifier fmt).2.length ≤ fmt.length := by
  have drop (n : Nat) : (fmt.drop n).length ≤ fmt.length := (List.length_drop ..).trans_le (Nat.sub_le _ _)
  unfold scanQualifier
  simp only [List.drop_drop]
  split
  · split
    · split
      · exact drop _
      · split
        · exact drop _
        · exact drop _
    · exact drop _
  · exact le_rfl

theorem scanInteger_fmt {st st' : ScanState} {qualifier : Option Char} {fieldWidth : Int} {base : Nat} {isSign : Bool}
    (next : scanInteger st qualifier fieldWidth base isSign = .next st') : st'.fmt = st.fmt := by
  unfold scanInteger at next
  simp only at next
  split_ifs at next <;> cases next <;> rfl

theorem convert_fmt {st st' : ScanState} {qualifier : Option Char} {fieldWidth : Int} (next : convert st qualifier fieldWidth = .next st') :
    st'.fmt = st.fmt.drop 1 := by
  unfold convert at next
  simp only at next
  split at next
  · cases next
    rfl
  · cases next
    rfl
  · exact scanInteger_fmt next
  · exact scanInteger_fmt next
  · exact scanInteger_fmt next
  · exact scanInteger_fmt next
  · exact scanInteger_fmt next
  · exact scanInteger_fmt next
  · split at next
    · cases next
    · cases next
      rfl
  · cases next

theorem directive_fmt {length : Nat} {st st' : ScanState} (next : directive length st = .next st') : st'.fmt.length ≤ st.fmt.length := by
  have after : (if isdigit (charAt st.fmt 0) then (s16 (skipAtoi st.fmt 0).1, (skipAtoi st.fmt 0).2) else (-1, st.fmt)).2.length ≤ st.fmt.length := by
    split
    · exact skipAtoi_length _ _
    · exact le_rfl
  unfold directive at next
  simp only at next
  generalize (if isdigit (charAt st.fmt 0) then (s16 (skipAtoi st.fmt 0).1, (skipAtoi st.fmt 0).2) else (-1, st.fmt)) = width at *
  have rest := (scanQualifier_length width.2).trans after
  have drop : ((scanQualifier width.2).2.drop 1).length ≤ (scanQualifier width.2).2.length := (List.length_drop ..).trans_le (Nat.sub_le _ _)
  split at next
  · cases next
  · split at next
    · cases next
    · split at next
      · cases next
        exact drop.trans rest
      · split at next
        · cases next
        · rw [convert_fmt next]
          exact drop.trans rest

theorem formatRound_fmt {length : Nat} {st st' : ScanState} (next : formatRound length st = .next st') :
    st'.fmt.length ≤ (st.fmt.drop 1).length := by
  unfold formatRound at next
  simp only at next
  split_ifs at next
  · cases next
    exact le_rfl
  · cases next
    exact List.length_dropWhile_le _ _
  · exact directive_fmt next

theorem scanRound_fmt {length : Nat} {st st' : ScanState} (more : charAt st.fmt 0 ≠ nul) (next : scanRound length st = .next st') :
    st'.fmt.length < st.fmt.length := by
  have shorter : (st.fmt.drop 1).length < st.fmt.length := by
    cases eq : st.fmt with
    | nil => exact absurd (by rw [eq]; rfl) more
    | cons c fmt => exact Nat.lt_succ_self _
  refine (formatRound_fmt next).trans_lt ?_
  unfold ScanState.skipWhite
  split
  · refine lt_of_le_of_lt ?_ shorter
    exact (List.length_drop ..).trans_le ((Nat.sub_le _ _).trans (List.length_dropWhile_le _ _))
  · exact shorter

/-- The loop of `vsscanf`. -/
def scanLoop (length : Nat) (st : ScanState) : ScanState :=
  if _more : charAt st.fmt 0 = nul then st
  else match _round : scanRound length st with
    | .stop st => st
    | .next st' => scanLoop length st'
termination_by st.fmt.length
decreasing_by exact scanRound_fmt ‹_› ‹_›

/-- `vsscanf`: the number of conversions and what is stored. -/
def vsscanf (buf fmt : CString) : Nat × List Arg :=
  let st := scanLoop buf.chars.length ⟨fmt.chars, buf.chars, 0, []⟩
  (st.num, st.args)

theorem scanLoop_next {length : Nat} {st st' : ScanState} (more : charAt st.fmt 0 ≠ nul) (round : scanRound length st = .next st') :
    scanLoop length st = scanLoop length st' := by
  rw [scanLoop, dif_neg more]
  split
  · rename_i stop
    cases round.symm.trans stop
  · rename_i next
    cases round.symm.trans next
    rfl

end Miracle.Vsprintf
