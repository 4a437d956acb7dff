import Miracle.Vsprintf.Convert

/-! # Formatted output

The loop that `vsnprintf` and `bstr_printf` share.  They differ in where the arguments come from.
A fault is an argument that is missing or of another type, or memory that is not there.  Positions
are counted from the start of the buffer, which lies inside the address space; the count that is
returned is not reduced to an `int`.
-/

namespace Miracle.Vsprintf

open Strtox

/-! ## Arguments -/

/-- An argument: an `int`, a word of 64 bits or a pointer.  `A` is the type of the arguments of nested formats. -/
inductive ArgOf (A : Type) where
  | int (v : BitVec 32)
  | long (v : BitVec 64)
  | ptr (p : Pointer A)

/-- The arguments of nested formats, when formats are nested at most `d` times. -/
def Nested : Nat → Type
  | 0 => Empty
  | d + 1 => ArgOf (Nested d)

abbrev VArg (d : Nat) : Type := ArgOf (Nested d)

/-- Where arguments come from. -/
structure ArgSource (σ A : Type) where
  int : σ → Option (Int × σ)
  char : σ → Option (Char × σ)
  str : σ → Option (Option (List Char) × σ)
  ptr : σ → Option (Pointer A × σ)
  number : FormatType → Flags → σ → Option (Nat × σ)

section

variable {A : Type}

/-- `va_arg(args, int)`. -/
def vaInt : List (ArgOf A) → Option (BitVec 32 × List (ArgOf A))
  | .int v :: args => some (v, args)
  | _ => none

/-- `va_arg(args, u64)`, and the other types of this size. -/
def vaLong : List (ArgOf A) → Option (BitVec 64 × List (ArgOf A))
  | .long v :: args => some (v, args)
  | _ => none

def vaPtr : List (ArgOf A) → Option (Pointer A × List (ArgOf A))
  | .ptr p :: args => some (p, args)
  | _ => none

/-- The inner switch of `vsnprintf`. -/
def vaNumber (type : FormatType) (args : List (ArgOf A)) : Option (BitVec 64 × List (ArgOf A)) :=
  let int (cast : BitVec 32 → BitVec 64) := (vaInt args).map fun (v, args) => (cast v, args)
  match type with
  | .longLong => vaLong args
  | .ulong => vaLong args
  | .long => vaLong args
  | .sizeT => vaLong args
  | .ptrdiff => vaLong args
  | .ubyte => int fun v => (v.setWidth 8).setWidth 64
  | .byte => int fun v => (v.setWidth 8).signExtend 64
  | .ushort => int fun v => (v.setWidth 16).setWidth 64
  | .short => int fun v => (v.setWidth 16).signExtend 64
  | .int => int fun v => v.signExtend 64
  | _ => int fun v => v.setWidth 64

/-- The arguments of `vsnprintf`. -/
def vaArgs : ArgSource (List (ArgOf A)) A where
  int args := (vaInt args).map fun (v, args) => (v.toInt, args)
  char args := (vaInt args).map fun (v, args) => (Char.ofNat (v.setWidth 8).toNat, args)
  str args := do
    let (p, args) ← vaPtr args
    some (← p.text, args)
  ptr := vaPtr
  number type _ args := (vaNumber type args).map fun (num, args) => (num.toNat, args)

end

/-! ## The loop -/

/-- The functions that `pointer` calls and that look at the end of the output in their own way. -/
structure Callees (A : Type) where
  hexLoop : Bound → Char → List Byte → Out → Option Out
  vsnprintf : Bound → Out → CString → List A → Option Out

/-- `end > buf ? end - buf : 0`, as an end. -/
def shrunk (b : Bound) (o : Out) : Bound := b.map (max · o.pos)

/-- `pointer`, from the character after the `p`. -/
def pointer {A : Type} (callees : Callees A) (fmt : List Char) (b : Bound) (o : Out) (ptr : Pointer A) (spec : PrintfSpec) : Option Out :=
  let defaultWidth := if spec.flags.special then 18 else 16
  let value : Option Out := some (number b o ptr.addr.toNat (
    let spec := { spec with base := 16, flags := { spec.flags with small := true } }
    if spec.fieldWidth = -1 then { spec with fieldWidth := defaultWidth, flags := { spec.flags with zeropad := true } } else spec))
  if ptr.addr = 0 ∧ charAt fmt 0 ≠ 'K' then
    some (string b o (some nullText) (if spec.fieldWidth = -1 then { spec with fieldWidth := defaultWidth } else spec))
  else
    let text (cs : List Char) : Option Out := some (string b o (some cs) spec)
    match charAt fmt 0 with
    | 'F' => some (symbolString b o ptr.addr spec)
    | 'f' => some (symbolString b o ptr.addr spec)
    | 'S' => some (symbolString b o ptr.addr spec)
    | 's' => some (symbolString b o ptr.addr spec)
    | 'B' => some (symbolString b o ptr.addr spec)
    | 'R' => match ptr.target with
      | .resource res => text (resourceText res fmt)
      | _ => none
    | 'r' => match ptr.target with
      | .resource res => text (resourceText res fmt)
      | _ => none
    | 'h' => hexString callees.hexLoop b o ptr spec fmt
    | 'M' => do text (macText (← ptr.read 6) fmt)
    | 'm' => do text (macText (← ptr.read 6) fmt)
    | 'I' => match charAt fmt 1 with
      | '6' =>
          -- the compressed form prints a buffer that nothing was written to
          if charAt fmt 2 = 'c' then none else do text (ip6Text (← ptr.read 16) fmt)
      | '4' => do text (ip4Text (← ptr.read 4) fmt)
      | _ => value
    | 'i' => match charAt fmt 1 with
      | '6' => do text (ip6Text (← ptr.read 16) fmt)
      | '4' => do text (ip4Text (← ptr.read 4) fmt)
      | _ => value
    | 'E' => escapedString b o ptr spec fmt
    | 'U' => do text (uuidText (← ptr.read 16) fmt)
    | 'V' => match ptr.target with
      | .vaFormat fmt args => callees.vsnprintf (shrunk b o) o fmt args
      | _ => none
    | 'a' => addressVal b o ptr spec
    | _ => value

/-- The rest of the format, the specification, the arguments that are left and the output. -/
structure PrintState (σ : Type) where
  fmt : List Char
  spec : PrintfSpec
  args : σ
  out : Out

variable {σ A : Type}

/-- A round of the loop. -/
def printStep (source : ArgSource σ A) (callees : Callees A) (b : Bound) (st : PrintState σ) : Option (PrintState σ) :=
  let oldFmt := st.fmt
  let (fmt, spec) := formatDecode st.fmt st.spec
  let st := { st with fmt := fmt, spec := spec }
  match spec.type with
  | .none => some { st with out := emit b st.out (oldFmt.take (oldFmt.length - fmt.length)) }
  | .width => do
      let (v, args) ← source.int st.args
      some { st with spec := { spec with fieldWidth := s16 v }, args := args }
  | .precision => do
      let (v, args) ← source.int st.args
      some { st with spec := { spec with precision := s16 v }, args := args }
  | .char => do
      let (c, args) ← source.char st.args
      some { st with args := args, out := character b st.out c spec }
  | .str => do
      let (s, args) ← source.str st.args
      some { st with args := args, out := string b st.out s spec }
  | .ptr => do
      let (p, args) ← source.ptr st.args
      let out ← pointer callees (fmt.drop 1) b st.out p spec
      some { st with fmt := fmt.dropWhile isalnum, args := args, out := out }
  | .percentChar => some { st with out := put b st.out '%' }
  | .invalid => some { st with out := put b st.out '%' }
  | type => do
      let (num, args) ← source.number type spec.flags st.args
      some { st with args := args, out := number b st.out num spec }

theorem printStep_todo {source : ArgSource σ A} {callees : Callees A} {b : Bound} {st st' : PrintState σ} (more : charAt st.fmt 0 ≠ nul)
    (step : printStep source callees b st = some st') : todo st'.fmt st'.spec < todo st.fmt st.spec := by
  have decoded := formatDecode_todo st.spec more
  have same {fmt : List Char} {spec : PrintfSpec} (le : fmt.length ≤ (formatDecode st.fmt st.spec).1.length)
      (type : spec.type = (formatDecode st.fmt st.spec).2.type) : todo fmt spec < todo st.fmt st.spec := by
    refine lt_of_le_of_lt ?_ decoded
    rw [todo, todo, type]
    omega
  unfold printStep at step
  simp only at step
  split at step
  case h_1 => cases step; exact decoded
  case h_7 => cases step; exact decoded
  case h_8 => cases step; exact decoded
  all_goals simp only [Option.bind_eq_bind, Option.bind_eq_some_iff] at step
  case h_6 =>
    obtain ⟨_, -, _, -, step⟩ := step
    cases step
    exact same (List.length_dropWhile_le _ _) rfl
  all_goals
    obtain ⟨_, -, step⟩ := step
    cases step
    exact same le_rfl rfl

/-- The loop. -/
def printLoop (source : ArgSource σ A) (callees : Callees A) (b : Bound) (st : PrintState σ) : Option Out :=
  if _more : charAt st.fmt 0 = nul then some st.out
  else match _step : printStep source callees b st with
    | none => none
    | some st' => printLoop source callees b st'
termination_by todo st.fmt st.spec
decreasing_by exact printStep_todo ‹_› ‹_›

theorem printLoop_end {source : ArgSource σ A} {callees : Callees A} {b : Bound} {st : PrintState σ} (ends : charAt st.fmt 0 = nul) :
    printLoop source callees b st = some st.out := by
  rw [printLoop, dif_pos ends]

theorem printLoop_step {source : ArgSource σ A} {callees : Callees A} {b : Bound} {st : PrintState σ} (more : charAt st.fmt 0 ≠ nul) :
    printLoop source callees b st = (printStep source callees b st).bind (printLoop source callees b) := by
  rw [printLoop, dif_neg more]
  split
  · rename_i none
    rw [none]
    rfl
  · rename_i step
    rw [step]
    rfl

/-- The null character behind the output of a call that started at `start`. -/
def terminate (b : Bound) (start : Nat) (o : Out) : Out :=
  match b with
  | none => { o with mem := Function.update o.mem o.pos nul }
  | some e =>
      if 0 < e - start then { o with mem := Function.update o.mem (if o.pos < e then o.pos else e - 1) nul } else o

/-- `vsnprintf` and `bstr_printf`: the output up to the end `b`, from the position of `o`. -/
def printf (source : ArgSource σ A) (callees : Callees A) (b : Bound) (o : Out) (fmt : CString) (args : σ) : Option Out :=
  -- a size that is negative as an `int`
  if ∃ e ∈ b, 2 ^ 31 ≤ (e - o.pos) % 2 ^ 32 then some o
  else (printLoop source callees b ⟨fmt.chars, .zero, args, o⟩).map (terminate b o.pos)

/-- What a format calls that others are nested in; `hexLoop` writes the bytes of a string of hexadecimal bytes. -/
def nestedCallees (hexLoop : Bound → Char → List Byte → Out → Option Out) : (d : Nat) → Callees (Nested d)
  | 0 => ⟨hexLoop, fun _ _ _ _ => none⟩
  | d + 1 => ⟨hexLoop, fun b o fmt args => printf vaArgs (nestedCallees hexLoop d) b o fmt args⟩

def callees (d : Nat) : Callees (Nested d) := nestedCallees (fun b separator addr o => some (hexLoop b separator addr o)) d

/-- `vsnprintf`; without an end the buffer is unbounded. -/
def vsnprintf {d : Nat} (mem : Nat → Char) (size : Bound) (fmt : CString) (args : List (VArg d)) : Option Out :=
  printf vaArgs (callees d) size ⟨0, mem⟩ fmt args

end Miracle.Vsprintf
