import Miracle.Vsprintf.Decode

/-! # Conversions

What the conversions of a format write.  Most of them put one character after the other into the
output and count beyond its end.  The string of hexadecimal bytes stops there, and a nested format
terminates its own part of the output; both are passed to `pointer`.
-/

namespace Miracle.Vsprintf

open Strtox

def pageSize : Nat := 4096

abbrev Byte := Fin 256

scoped instance byteCount : NeZero 256 := ⟨by decide⟩

def Byte.char (x : Byte) : Char := Char.ofNat x

/-- `struct resource`, as far as it is printed. -/
structure Resource where
  start : BitVec 64
  stop : BitVec 64
  flags : BitVec 64

/-- What a pointer refers to; zeros follow the bytes.  A nested format comes with its own arguments. -/
inductive Target (A : Type) where
  | bytes (bs : List Byte)
  | address (num : BitVec 64)
  | resource (res : Resource)
  | vaFormat (fmt : CString) (args : List A)

structure Pointer (A : Type) where
  addr : BitVec 64
  target : Target A

/-- The first bytes that a pointer refers to, if there are that many. -/
def Pointer.read {A : Type} (p : Pointer A) (n : Nat) : Option (List Byte) :=
  match p.target with
  | .bytes bs => if n ≤ bs.length then some (bs.take n) else none
  | _ => none

/-- The string that a pointer refers to: `none` inside for one below the first page.  The last page holds no object. -/
def Pointer.text {A : Type} (p : Pointer A) : Option (Option (List Char)) :=
  if p.addr.toNat < pageSize then some none
  else if 2 ^ 64 - pageSize < p.addr.toNat then none
  else match p.target with
    | .bytes bs => some (some ((bs.takeWhile (· ≠ 0)).map Byte.char))
    | _ => none

/-! ## Characters and strings -/

/-- `while (len < field_width--) put(' ')`, for an `s16`: at most `2 ^ 15` rounds. -/
def fillWhile (b : Bound) (len : Nat) : Nat → Out → Int → Out × Int
  | 0, o, w => (o, w)
  | fuel + 1, o, w => if len < w then fillWhile b len fuel (put b o ' ') (s16 (w - 1)) else (o, s16 (w - 1))

def fill (b : Bound) (len : Nat) (o : Out) (w : Int) : Out × Int := fillWhile b len (2 ^ 15 + 1) o w

def nullText : List Char := "(null)".toList

/-- `string`; without a string the address is below the first page. -/
def string (b : Bound) (o : Out) (s : Option (List Char)) (spec : PrintfSpec) : Out :=
  let s := s.getD nullText
  -- the precision becomes a `size_t`
  let len := min s.length (spec.precision % 2 ^ 64).toNat
  let (o, w) := if spec.flags.left then (o, spec.fieldWidth) else fill b len o spec.fieldWidth
  let o := emit b o (s.take len)
  (fill b len o w).1

/-- `while (--field_width > 0) put(' ')`, for an `s16`: at most `2 ^ 15` rounds. -/
def charWhile (b : Bound) : Nat → Out → Int → Out × Int
  | 0, o, w => (o, w)
  | fuel + 1, o, w =>
      let w := s16 (w - 1)
      if 0 < w then charWhile b fuel (put b o ' ') w else (o, w)

/-- The case of a character in `vsnprintf` and `bstr_printf`. -/
def character (b : Bound) (o : Out) (c : Char) (spec : PrintfSpec) : Out :=
  let (o, w) := if spec.flags.left then (o, spec.fieldWidth) else charWhile b (2 ^ 15 + 1) o spec.fieldWidth
  let o := put b o c
  (charWhile b (2 ^ 15 + 1) o w).1

/-! ## Extensions of `%p` -/

/-- The text of a buffer on the stack that holds a string. -/
def Out.localText (o : Out) : List Char := ((List.range (o.pos + 1)).map o.mem).takeWhile (· ≠ nul)

def Out.empty : Out := ⟨0, fun _ => nul⟩

def symbolString (b : Bound) (o : Out) (addr : BitVec 64) (spec : PrintfSpec) : Out :=
  number b o addr.toNat { spec with
    fieldWidth := 16, base := 16, flags := { spec.flags with special := true, small := true, zeropad := true } }

def ioSpec : PrintfSpec :=
  { PrintfSpec.zero with base := 16, fieldWidth := 6, precision := -1, flags := { Flags.zero with special := true, small := true, zeropad := true } }

def memSpec : PrintfSpec :=
  { PrintfSpec.zero with base := 16, fieldWidth := 10, precision := -1, flags := { Flags.zero with special := true, small := true, zeropad := true } }

def busSpec : PrintfSpec :=
  { PrintfSpec.zero with base := 16, fieldWidth := 2, precision := -1, flags := { Flags.zero with small := true, zeropad := true } }

def decSpec : PrintfSpec := { PrintfSpec.zero with base := 10, precision := -1 }

def strSpec : PrintfSpec := { PrintfSpec.zero with fieldWidth := -1, precision := 10, flags := { Flags.zero with left := true } }

def flagSpec : PrintfSpec :=
  { PrintfSpec.zero with base := 16, precision := -1, flags := { Flags.zero with special := true, small := true } }

/-- The size of `sym` in `resource_string`. -/
def symSize : Nat := max (2 * 20 + 35) (2 * 20 + 16 + 17)

/-- The contents of `sym`; the brackets and the dash are written without a look at its end. -/
def resourceText (res : Resource) (fmt : List Char) : List Char :=
  let pend : Bound := some symSize
  let has (flag : Nat) : Bool := res.flags.toNat &&& flag ≠ 0
  let text (p : Out) (s : String) := string pend p (some s.toList) strSpec
  let (name, specp, known) :=
    if has 0x100 then ("io  ", ioSpec, true)
    else if has 0x200 then ("mem ", memSpec, true)
    else if has 0x400 then ("irq ", decSpec, true)
    else if has 0x800 then ("dma ", decSpec, true)
    else if has 0x1000 then ("bus ", busSpec, true)
    else ("??? ", memSpec, false)
  let decode := charAt fmt 0 = 'R' ∧ known
  let p := text (put none .empty '[') name
  let p :=
    if decode ∧ has 0x20000000 then number pend (text p "size ") (res.stop - res.start + 1).toNat specp
    else
      let p := number pend p res.start.toNat specp
      if res.start ≠ res.stop then number pend (put none p '-') res.stop.toNat specp else p
  let p :=
    if decode then
      let p := if has 0x100000 then text p " 64bit" else p
      let p := if has 0x2000 then text p " pref" else p
      let p := if has 0x200000 then text p " window" else p
      if has 0x10000000 then text p " disabled" else p
    else number pend (text p " flags ") res.flags.toNat flagSpec
  (put none (put none p ']') nul).localText

def hexAsc (d : Nat) : Char := "0123456789abcdef".toList.getD d '0'

/-- `hex_byte_pack`. -/
def hexBytePack (x : Byte) : List Char := [hexAsc ((x &&& 0xf0) >>> 4 : Nat), hexAsc (x &&& 0x0f : Nat)]

/-- The loop of `hex_string` over the bytes that are left. -/
def hexLoop (b : Bound) (separator : Char) : List Byte → Out → Out
  | [], o => o
  | x :: addr, o =>
      if before (o.pos + 1) b then
        let o := emit none o (hexBytePack x)
        hexLoop b separator addr (if before o.pos b ∧ separator ≠ nul ∧ addr ≠ [] then put none o separator else o)
      else o

def hexSeparator (c : Char) : Char :=
  match c with
  | 'C' => ':'
  | 'D' => '-'
  | 'N' => nul
  | _ => ' '

/-- The bytes that `hex_string` prints. -/
def hexLength (spec : PrintfSpec) : Nat := if 0 < spec.fieldWidth then (min spec.fieldWidth 64).toNat else 1

/-- `hex_string`, with the loop that writes the bytes. -/
def hexString {A : Type} (loop : Bound → Char → List Byte → Out → Option Out) (b : Bound) (o : Out) (p : Pointer A) (spec : PrintfSpec)
    (fmt : List Char) : Option Out :=
  if spec.fieldWidth = 0 then some o
  else if p.addr.toNat ≤ 16 then some (string b o none spec)
  else do loop b (hexSeparator (charAt fmt 1)) (← p.read (hexLength spec)) o

def macText (addr : List Byte) (fmt : List Char) : List Char :=
  let separator := if charAt fmt 1 = 'F' then '-' else ':'
  let addr := if charAt fmt 1 = 'R' then addr.reverse else addr
  if charAt fmt 0 = 'M' then [separator].intercalate (addr.map hexBytePack) else addr.flatMap hexBytePack

/-- A part of an address in `ip4_string`. -/
def ip4Quad (leadingZeros : Bool) (x : Byte) : List Char :=
  let temp := putDecTrunc8 x
  (if leadingZeros then List.replicate (3 - temp.length) '0' else []) ++ temp.reverse

def ip4Text (addr : List Byte) (fmt : List Char) : List Char :=
  let addr := if charAt fmt 2 = 'h' ∨ charAt fmt 2 = 'l' then addr.reverse else addr
  ['.'].intercalate (addr.map (ip4Quad (charAt fmt 0 = 'i')))

/-- `ip6_string`: a colon after every second byte. -/
def ip6Text (addr : List Byte) (fmt : List Char) : List Char :=
  addr.zipIdx.flatMap fun (x, i) => hexBytePack x ++ if charAt fmt 0 = 'I' ∧ i % 2 = 1 ∧ i ≠ 15 then [':'] else []

/-- `toupper`, for the characters of a hexadecimal numeral. -/
def toupper (c : Char) : Char := if 'a' ≤ c ∧ c ≤ 'z' then Char.ofNat (c.toNat - 32) else c

def uuidText (addr : List Byte) (fmt : List Char) : List Char :=
  let be := [0, 1, 2, 3, 4, 5, 6, 7, 8, 9, 10, 11, 12, 13, 14, 15]
  let le := [3, 2, 1, 0, 5, 4, 7, 6, 8, 9, 10, 11, 12, 13, 14, 15]
  let c := charAt fmt 1
  let index := if c = 'L' ∨ c = 'l' then le else be
  let uuid := index.zipIdx.flatMap fun (j, i) =>
    hexBytePack (addr.getD j 0) ++ if i = 3 ∨ i = 5 ∨ i = 7 ∨ i = 9 then ['-'] else []
  if c = 'L' ∨ c = 'B' then uuid.map toupper else uuid

/-! ## Escaped buffers -/

/-- The flags of `string_escape_mem`. -/
structure Escape where
  space : Bool
  special : Bool
  null : Bool
  octal : Bool
  np : Bool
  hex : Bool

def isprint (c : Nat) : Bool := (32 ≤ c ∧ c ≤ 126) ∨ 160 ≤ c

/-- A backslash and a letter. -/
def escapeTo (c : Byte) (table : List (Nat × Char)) : Option (List Char) := (table.lookup c.val).map fun c => ['\\', c]

def escapeSpace (c : Byte) : Option (List Char) := escapeTo c [(10, 'n'), (13, 'r'), (9, 't'), (11, 'v'), (12, 'f')]

def escapeSpecial (c : Byte) : Option (List Char) := escapeTo c [(92, '\\'), (7, 'a'), (27, 'e')]

def escapeNull (c : Byte) : Option (List Char) := escapeTo c [(0, '0')]

def escapeOctal (c : Byte) : List Char :=
  ['\\', Char.ofNat ((c.val >>> 6 &&& 0x07) + 48), Char.ofNat ((c.val >>> 3 &&& 0x07) + 48), Char.ofNat ((c.val &&& 0x07) + 48)]

def escapeHex (c : Byte) : List Char := ['\\', 'x'] ++ hexBytePack c

/-- What `string_escape_mem` writes for a character; no set of characters limits it. -/
def escapeChar (flags : Escape) (c : Byte) : List Char :=
  if flags.np ∧ isprint c then [Byte.char c]
  else ((if flags.space then escapeSpace c else none) <|> (if flags.special then escapeSpecial c else none) <|>
    (if flags.null then escapeNull c else none) <|> (if flags.octal then some (escapeOctal c) else none) <|>
    (if flags.hex then some (escapeHex c) else none)).getD [Byte.char c]

/-- The flags that follow `%pE`. -/
def escapeFlags : List Char → Escape → Escape
  | [], flags => flags
  | c :: fmt, flags =>
      match c with
      | 'a' => escapeFlags fmt { flags with space := true, octal := true, special := true, null := true }
      | 'c' => escapeFlags fmt { flags with special := true }
      | 'h' => escapeFlags fmt { flags with hex := true }
      | 'n' => escapeFlags fmt { flags with null := true }
      | 'o' => escapeFlags fmt { flags with octal := true }
      | 'p' => escapeFlags fmt { flags with np := true }
      | 's' => escapeFlags fmt { flags with space := true }
      | _ => flags

def escapedString {A : Type} (b : Bound) (o : Out) (p : Pointer A) (spec : PrintfSpec) (fmt : List Char) : Option Out :=
  if spec.fieldWidth = 0 then some o
  else if p.addr.toNat ≤ 16 then some (string b o none spec)
  else do
    let flags := escapeFlags (fmt.drop 1) ⟨false, false, false, false, false, false⟩
    let flags := if flags.space ∨ flags.special ∨ flags.null ∨ flags.octal ∨ flags.np ∨ flags.hex then flags
      else ⟨true, true, true, true, true, false⟩
    let addr ← p.read (if spec.fieldWidth < 0 then 1 else spec.fieldWidth.toNat)
    some (emit b o (addr.flatMap (escapeChar flags)))

def addressVal {A : Type} (b : Bound) (o : Out) (p : Pointer A) (spec : PrintfSpec) : Option Out :=
  match p.target with
  | .address num => some (number b o num.toNat { spec with
      fieldWidth := 18, base := 16, flags := { spec.flags with special := true, small := true, zeropad := true } })
  | _ => none

end Miracle.Vsprintf
