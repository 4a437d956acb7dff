import Miracle.Memblock.Ops

/-! # Memory nodes of the device tree

A memory node lists its ranges as pairs of big-endian 64 bit numbers, each in two cells
of four bytes.  The scan reads the pairs one after another and hands the whole pages of
each range to `memblock_add`.
-/

namespace Miracle.Fdt

open Memblock

/-- `MIN_MEMBLOCK_ADDR` and `MAX_MEMBLOCK_ADDR` of the arm64 port. -/
def minMemblockAddr : Nat := 0
def maxMemblockAddr : Nat := 2 ^ 64 - 1

/-- `PAGE_MASK` as a 64 bit value. -/
def pageMask : Nat := 2 ^ 64 - pageSize

/-- What cuts a scan short: a read behind the property, a stop of the memblock code, and a
    loop of the model that runs out of rounds. -/
inductive Fault where
  | outside
  | memblock (bug : Bug)
  | outOfFuel
  deriving DecidableEq, Repr

/-- `be32_to_cpu` of the cell with the given index. -/
def be32 (prop : List UInt8) (cell : Nat) : Except Fault Nat :=
  match prop[4 * cell]?, prop[4 * cell + 1]?, prop[4 * cell + 2]?, prop[4 * cell + 3]? with
  | some a, some b, some c, some d =>
      .ok (a.toNat * 2 ^ 24 + b.toNat * 2 ^ 16 + c.toNat * 2 ^ 8 + d.toNat)
  | _, _, _, _ => .error .outside

/-- The loop of `of_read_number` with `r` read so far. -/
def ofReadNumberLoop (prop : List UInt8) (cell : Nat) : Nat → Nat → Except Fault Nat
  | 0, r => .ok r
  | size + 1, r => do
      let c ← be32 prop cell
      ofReadNumberLoop prop (cell + 1) size (u64 (r <<< 32) ||| c)

def ofReadNumber (prop : List UInt8) (cell size : Nat) : Except Fault Nat :=
  ofReadNumberLoop prop cell size 0

/-- The number and the cell behind it. -/
def dtMemNextCell (s : Nat) (prop : List UInt8) (cellp : Nat) : Except Fault (Nat × Nat) := do
  let r ← ofReadNumber prop cellp s
  return (r, cellp + s)

/-- The range that `early_init_dt_add_memory_arch` passes on, none where it returns early. -/
def dtAddRange (base size : Nat) : Option (Nat × Nat) :=
  let offset := base &&& (pageSize - 1)
  if size < pageSize - offset then none
  else
    let size := if offset = 0 then size else u64Sub size (pageSize - offset)
    let base := if offset = 0 then base else alignWord 64 base pageSize
    let size := size &&& pageMask
    if base > maxMemblockAddr then none
    else
      let size :=
        if u64Sub (u64 (base + size)) 1 > maxMemblockAddr then
          u64 (u64Sub maxMemblockAddr base + 1)
        else size
      if u64 (base + size) < minMemblockAddr then none
      else if base < minMemblockAddr then
        some (minMemblockAddr, u64Sub size (minMemblockAddr - base))
      else some (base, size)

/-- The result of `memblock_add` is dropped, as in the source. -/
def earlyInitDtAddMemoryArch (env : Env) (mb : State) (base size : Nat) : Except Bug State :=
  match dtAddRange base size with
  | none => .ok mb
  | some (base, size) => Memblock.discard (memblockAdd env mb base size)

/-- The properties of a node that the scan looks at. -/
structure Node where
  deviceType : Option String
  usableMemory : Option (List UInt8)
  reg : Option (List UInt8)

/-- `while ((endp - reg) >= (2 + 2))` with the number of rounds left.  The marking of
    hotpluggable ranges that would end a round is commented out in the source. -/
def scanLoop (env : Env) (prop : List UInt8) (endp : Nat) : Nat → Nat → State → Except Fault State
  | 0, _, _ => .error .outOfFuel
  | fuel + 1, reg, mb =>
      if endp - reg ≥ 2 + 2 then do
        let (base, reg) ← dtMemNextCell 2 prop reg
        let (size, reg) ← dtMemNextCell 2 prop reg
        if size = 0 then scanLoop env prop endp fuel reg mb
        else
          let mb ← (earlyInitDtAddMemoryArch env mb base size).mapError .memblock
          scanLoop env prop endp fuel reg mb
      else .ok mb

def earlyInitDtScanMemory (env : Env) (mb : State) (node : Node) : Except Fault (State × Int) :=
  if node.deviceType ≠ some "memory" then .ok (mb, 0)
  else
    match node.usableMemory.or node.reg with
    | none => .ok (mb, 0)
    | some prop => do
        let endp := prop.length / 4
        let mb ← scanLoop env prop endp (endp + 1) 0 mb
        return (mb, 0)

/-! ## What a node describes -/

/-- A big-endian number. -/
def beNumber (bytes : List UInt8) : Nat := bytes.foldl (fun r b => r * 256 + b.toNat) 0

/-- The pair of base and size in the sixteen bytes of an entry. -/
def entry (prop : List UInt8) (i : Nat) : Nat × Nat :=
  (beNumber ((prop.drop (16 * i)).take 8), beNumber ((prop.drop (16 * i + 8)).take 8))

/-- The whole entries of a property; bytes behind the last one describe nothing. -/
def entries (prop : List UInt8) : List (Nat × Nat) := (List.range (prop.length / 16)).map (entry prop)

/-- The entries of a memory node; other nodes have none. -/
def Node.entries (node : Node) : List (Nat × Nat) :=
  if node.deviceType ≠ some "memory" then []
  else
    match node.usableMemory.or node.reg with
    | none => []
    | some prop => Fdt.entries prop

/-- The byte belongs to a whole page inside `[base, base + size)` that memblock may hold. -/
def InPages (base size a : Nat) : Prop :=
  (∃ p, base ≤ p * pageSize ∧ (p + 1) * pageSize ≤ base + size ∧
    p * pageSize ≤ a ∧ a < (p + 1) * pageSize) ∧ minMemblockAddr ≤ a ∧ a ≤ maxMemblockAddr

/-- The first page boundary from an address on. -/
def pageUp (a : Nat) : Nat := (a + (pageSize - 1)) / pageSize * pageSize

/-- The last page boundary up to an address. -/
def pageDown (a : Nat) : Nat := a / pageSize * pageSize

end Miracle.Fdt
