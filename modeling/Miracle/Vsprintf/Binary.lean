import Miracle.Vsprintf.Printf

/-! # Binary arguments

`vbin_printf` walks a format and stores the arguments that it takes into an array of words, and
`bstr_printf` formats from there.  Bytes are counted from the start of the array, which is aligned
to its words; numbers are stored with their least significant byte first.
-/

namespace Miracle.Vsprintf

open Strtox

/-- `PTR_ALIGN`. -/
def ptrAlign (p a : Nat) : Nat := (p + a - 1) / a * a

/-- A number in memory. -/
def leBytes : Nat → Nat → List Byte
  | 0, _ => []
  | n + 1, value => Fin.ofNat 256 value :: leBytes n (value / 256)

def leValue : List Byte → Nat
  | [] => 0
  | x :: bs => x.val + 256 * leValue bs

/-- The sizes of the types that integers are stored as. -/
inductive IntSize where
  | one | two | four | eight
  deriving DecidableEq

def IntSize.bytes : IntSize → Nat
  | one => 1
  | two => 2
  | four => 4
  | eight => 8

/-- Words of 64 bits are aligned to 32 bits. -/
def IntSize.align : IntSize → Nat
  | one => 1
  | two => 2
  | four => 4
  | eight => 4

/-- A string without its null. -/
abbrev ByteText := { bs : List Byte // 0 ∉ bs }

/-- What a round of `vbin_printf` stores. -/
inductive Saved where
  | arg (size : IntSize) (value : Nat)
  | str (text : ByteText)

def Saved.bytes : Saved → List Byte
  | arg size value => leBytes size.bytes value
  | str text => text.val ++ [0]

/-- Where a value starts that is stored behind `p`; strings are not aligned. -/
def Saved.start (p : Nat) : Saved → Nat
  | arg size _ => ptrAlign p size.align
  | str _ => p

def Saved.stop (p : Nat) (x : Saved) : Nat := x.start p + x.bytes.length

/-! ## `vbin_printf` -/

section

variable {A σ : Type}

/-- The bytes of a string up to its null. -/
def upToNull (bs : List Byte) : ByteText :=
  ⟨bs.takeWhile (· ≠ 0), fun member => by simpa using List.mem_takeWhile_imp member⟩

/-- The string that is stored for a pointer. -/
def Pointer.saved (p : Pointer A) : Option ByteText :=
  if 2 ^ 64 - pageSize < p.addr.toNat ∨ p.addr.toNat < pageSize then some ⟨[0x28, 0x6e, 0x75, 0x6c, 0x6c, 0x29], by decide⟩
  else match p.target with
    | .bytes bs => some (upToNull bs)
    | _ => none

/-- The size of the type that a number is stored as. -/
def saveSize (type : FormatType) : IntSize :=
  match type with
  | .longLong => .eight
  | .ulong => .eight
  | .long => .eight
  | .sizeT => .eight
  | .ptrdiff => .eight
  | .ubyte => .one
  | .byte => .one
  | .ushort => .two
  | .short => .two
  | _ => .four

/-- `save_arg`, for a type of this size: what is stored, and the arguments that are left. -/
def saveArg (size : IntSize) (args : List (ArgOf A)) : Option (Saved × List (ArgOf A)) :=
  match size with
  | .eight => (vaLong args).map fun (value, args) => (.arg size value.toNat, args)
  | _ => (vaInt args).map fun (value, args) => (.arg size value.toNat, args)

/-- The rest of the format, the specification and the arguments, and what has been stored. -/
structure BinState (σ A : Type) where
  fmt : List Char
  spec : PrintfSpec
  args : List (ArgOf A)
  out : σ

/-- A round of the loop; `save` stores a value. -/
def binStep (save : Saved → σ → σ) (st : BinState σ A) : Option (BinState σ A) :=
  let (fmt, spec) := formatDecode st.fmt st.spec
  let st := { st with fmt := fmt, spec := spec }
  let stored (got : Saved × List (ArgOf A)) : BinState σ A := { st with args := got.2, out := save got.1 st.out }
  match spec.type with
  | .none => some st
  | .invalid => some st
  | .percentChar => some st
  | .width => (saveArg .four st.args).map stored
  | .precision => (saveArg .four st.args).map stored
  | .char => (saveArg .one st.args).map stored
  | .str => do
      let (p, args) ← vaPtr st.args
      some (stored (.str (← p.saved), args))
  | .ptr => do
      let (p, args) ← vaPtr st.args
      some { stored (.arg .eight p.addr.toNat, args) with fmt := fmt.dropWhile isalnum }
  | type => (saveArg (saveSize type) st.args).map stored

theorem binStep_todo {save : Saved → σ → σ} {st st' : BinState σ A} (more : charAt st.fmt 0 ≠ nul)
    (step : binStep save st = some st') : todo st'.fmt st'.spec < todo st.fmt st.spec := by
  have decoded := formatDecode_todo st.spec more
  unfold binStep at step
  simp only at step
  split at step
  case h_1 | h_2 | h_3 => cases step; exact decoded
  case h_7 =>
    obtain ⟨_, -, step⟩ := Option.bind_eq_some_iff.mp step
    obtain ⟨_, -, step⟩ := Option.bind_eq_some_iff.mp step
    cases step
    exact decoded
  case h_8 =>
    obtain ⟨_, -, step⟩ := Option.bind_eq_some_iff.mp step
    cases step
    refine lt_of_le_of_lt ?_ decoded
    have shorter := List.length_dropWhile_le isalnum (formatDecode st.fmt st.spec).1
    simp only [todo]
    omega
  all_goals
    obtain ⟨_, -, step⟩ := Option.map_eq_some_iff.mp step
    cases step
    exact decoded

/-- The loop. -/
def binLoop (save : Saved → σ → σ) (st : BinState σ A) : Option σ :=
  if _more : charAt st.fmt 0 = nul then some st.out
  else match _step : binStep save st with
    | none => none
    | some st' => binLoop save st'
termination_by todo st.fmt st.spec
decreasing_by exact binStep_todo ‹_› ‹_›

theorem binLoop_end {save : Saved → σ → σ} {st : BinState σ A} (ends : charAt st.fmt 0 = nul) : binLoop save st = some st.out := by
  rw [binLoop, dif_pos ends]

theorem binLoop_step {save : Saved → σ → σ} {st : BinState σ A} (more : charAt st.fmt 0 ≠ nul) :
    binLoop save st = (binStep save st).bind (binLoop save) := by
  rw [binLoop, dif_neg more]
  split
  · rename_i none
    rw [none]
    rfl
  · rename_i step
    rw [step]
    rfl

end

/-- The cursor and the memory of `bin_buf`. -/
structure BinOut where
  str : Nat
  mem : Nat → Byte

def writeBytes (mem : Nat → Byte) (p : Nat) (bs : List Byte) : Nat → Byte := fun i => if p ≤ i then bs.getD (i - p) (mem i) else mem i

/-- A string has to end before the end of the array, other values may end there. -/
def Saved.inside (e p : Nat) (x : Saved) : Bool :=
  match x with
  | arg .. => x.stop p ≤ e
  | str _ => x.stop p < e

def save (e : Nat) (x : Saved) (o : BinOut) : BinOut :=
  ⟨x.stop o.str, if x.inside e o.str then writeBytes o.mem (x.start o.str) x.bytes else o.mem⟩

/-- `vbin_printf`: the number of words and the memory. -/
def vbinPrintf {d : Nat} (bin : Nat → Byte) (size : Nat) (fmt : CString) (args : List (VArg d)) : Option (Nat × (Nat → Byte)) :=
  (binLoop (save (4 * size)) ⟨fmt.chars, .zero, args, ⟨0, bin⟩⟩).map fun o => (ptrAlign o.str 4 / 4, o.mem)

/-! ## `bstr_printf` -/

/-- Memory that can be read up to its limit. -/
structure BinBuf where
  bytes : Nat → Byte
  limit : Nat

def BinBuf.read (bin : BinBuf) (p n : Nat) : List Byte := (List.range n).map fun i => bin.bytes (p + i)

/-- `get_arg`, for a type of this size. -/
def getArg (bin : BinBuf) (size : IntSize) (p : Nat) : Option (Nat × Nat) :=
  let p := ptrAlign p size.align
  if p + size.bytes ≤ bin.limit then some (leValue (bin.read p size.bytes), p + size.bytes) else none

/-- A string in the array. -/
def getStr (bin : BinBuf) (p : Nat) : Option (ByteText × Nat) :=
  let text := upToNull (bin.read p (bin.limit - p))
  if p + text.val.length < bin.limit then some (text, p + text.val.length + 1) else none

/-- The inner switch of `bstr_printf`. -/
def binNumber (bin : BinBuf) (type : FormatType) (p : Nat) : Option (BitVec 64 × Nat) :=
  let get (size : IntSize) (cast : Nat → BitVec 64) := (getArg bin size p).map fun (v, p) => (cast v, p)
  match type with
  | .longLong => get .eight fun v => BitVec.ofNat 64 v
  | .ulong => get .eight fun v => BitVec.ofNat 64 v
  | .long => get .eight fun v => BitVec.ofNat 64 v
  | .sizeT => get .eight fun v => BitVec.ofNat 64 v
  | .ptrdiff => get .eight fun v => BitVec.ofNat 64 v
  | .ubyte => get .one fun v => (BitVec.ofNat 8 v).setWidth 64
  | .byte => get .one fun v => (BitVec.ofNat 8 v).signExtend 64
  | .ushort => get .two fun v => (BitVec.ofNat 16 v).setWidth 64
  | .short => get .two fun v => (BitVec.ofNat 16 v).signExtend 64
  | .uint => get .four fun v => (BitVec.ofNat 32 v).setWidth 64
  | _ => get .four fun v => (BitVec.ofNat 32 v).signExtend 64

/-- The arguments of `bstr_printf`; `objects` is what addresses refer to. -/
def binArgs {A : Type} (bin : BinBuf) (objects : BitVec 64 → Target A) : ArgSource Nat A where
  int p := (getArg bin .four p).map fun (v, p) => ((BitVec.ofNat 32 v).toInt, p)
  char p := (getArg bin .one p).map fun (v, p) => (Char.ofNat v, p)
  str p := (getStr bin p).map fun (text, p) => (some (text.val.map Byte.char), p)
  ptr p := (getArg bin .eight p).map fun (v, p) => (⟨BitVec.ofNat 64 v, objects (BitVec.ofNat 64 v)⟩, p)
  number type _ p := (binNumber bin type p).map fun (num, p) => (num.toNat, p)

/-- `bstr_printf`. -/
def bstrPrintf {d : Nat} (objects : BitVec 64 → Target (Nested d)) (mem : Nat → Char) (size : Bound) (fmt : CString) (bin : BinBuf) :
    Option Out :=
  printf (binArgs bin objects) (callees d) size ⟨0, mem⟩ fmt 0

end Miracle.Vsprintf
