import Mathlib.Logic.Function.Iterate
import Mathlib.Tactic

/-! # Cyclic redundancy checks

The functions of `crc32.c` for every configuration, and the tables that `gen_crc32table.c` writes
for them.  A buffer is its bytes and the address of the first one.
-/

namespace Miracle.Crc32

abbrev U32 := BitVec 32

abbrev Byte := BitVec 8

/-- `CRC_LE_BITS` and `CRC_BE_BITS`, which are the same. -/
inductive CrcBits where
  | one | two | four | eight | thirtyTwo | sixtyFour
  deriving DecidableEq

def CrcBits.toNat : CrcBits → Nat
  | one => 1
  | two => 2
  | four => 4
  | eight => 8
  | thirtyTwo => 32
  | sixtyFour => 64

/-- The order of bytes of the machine. -/
inductive Endian where
  | little | big

def crc32PolyLe : U32 := 0xedb88320

def crc32PolyBe : U32 := 0x04c11db7

def crc32cPolyLe : U32 := 0x82F63B78

/-! ## One bit at a time -/

def stepLe (polynomial crc : U32) : U32 := (crc >>> 1) ^^^ (if crc &&& 1 ≠ 0 then polynomial else 0)

def stepBe (polynomial crc : U32) : U32 := (crc <<< 1) ^^^ (if crc &&& 0x80000000 ≠ 0 then polynomial else 0)

/-- The loop of `crc32_le_generic` for `CRC_LE_BITS == 1`. -/
def bitwiseLe (polynomial crc : U32) (p : List Byte) : U32 :=
  p.foldl (fun crc x => (stepLe polynomial)^[8] (crc ^^^ x.setWidth 32)) crc

/-- `*p << 24`. -/
def topByte (x : Byte) : U32 := x.setWidth 32 <<< 24

/-- The loop of `crc32_be_generic` for `CRC_BE_BITS == 1`. -/
def bitwiseBe (polynomial crc : U32) (p : List Byte) : U32 :=
  p.foldl (fun crc x => (stepBe polynomial)^[8] (crc ^^^ topByte x)) crc

/-! ## Tables -/

abbrev Row := Nat → U32

abbrev Table := Nat → Row

/-- `LE_TABLE_ROWS` and `BE_TABLE_ROWS`. -/
def tableRows (bits : CrcBits) : Nat := if bits.toNat > 8 then bits.toNat / 8 else 1

/-- `LE_TABLE_SIZE` and `BE_TABLE_SIZE`. -/
def tableSize (bits : CrcBits) : Nat := if bits.toNat > 8 then 256 else 1 <<< bits.toNat

/-- The loop over `j` for one `i`. -/
def fillLe (size i : Nat) (crc : U32) (tab : Row) : Row :=
  (List.range ((size + 2 * i - 1) / (2 * i))).foldl
    (fun tab t =>
      let j := 2 * i * t
      Function.update tab (i + j) (crc ^^^ tab j))
    tab

/-- The loop over `i`. -/
def initLe (polynomial : U32) (size i : Nat) (crc : U32) (tab : Row) : Row :=
  if i = 0 then tab
  else
    let crc := stepLe polynomial crc
    initLe polynomial size (i / 2) crc (fillLe size i crc tab)
termination_by i
decreasing_by omega

def fillBe (i : Nat) (crc : U32) (tab : Row) : Row :=
  (List.range i).foldl (fun tab j => Function.update tab (i + j) (crc ^^^ tab j)) tab

def initBe (polynomial : U32) (size i : Nat) (crc : U32) (tab : Row) : Row :=
  if 0 < i ∧ i < size then
    let crc := stepBe polynomial crc
    initBe polynomial size (2 * i) crc (fillBe i crc tab)
  else tab
termination_by size - i
decreasing_by omega

/-- What follows the first entry of a column. -/
def columnLe (tab0 : Row) : Nat → U32 → List U32
  | 0, _ => []
  | n + 1, crc =>
      let crc := tab0 (crc &&& 0xff).toNat ^^^ (crc >>> 8)
      crc :: columnLe tab0 n crc

def columnBe (tab0 : Row) : Nat → U32 → List U32
  | 0, _ => []
  | n + 1, crc =>
      let crc := tab0 ((crc >>> 24) &&& 0xff).toNat ^^^ (crc <<< 8)
      crc :: columnBe tab0 n crc

/-- `crc32init_le_generic`. -/
def crc32initLeGeneric (bits : CrcBits) (polynomial : U32) : Table :=
  let tab0 := initLe polynomial (tableSize bits) (tableSize bits / 2) 1 fun _ => 0
  fun j i => (tab0 i :: columnLe tab0 (tableRows bits - 1) (tab0 i)).getD j 0

/-- `crc32init_be`. -/
def crc32initBe (bits : CrcBits) : Table :=
  let tab0 := initBe crc32PolyBe (tableSize bits) 1 0x80000000 fun _ => 0
  fun j i => (tab0 i :: columnBe tab0 (tableRows bits - 1) (tab0 i)).getD j 0

/-! ## Slicing -/

def bswap (x : U32) : U32 := x.extractLsb' 0 8 ++ x.extractLsb' 8 8 ++ x.extractLsb' 16 8 ++ x.extractLsb' 24 8

/-- `cpu_to_le32` and `le32_to_cpu`. -/
def cpuToLe32 (cpu : Endian) (x : U32) : U32 :=
  match cpu with
  | .little => x
  | .big => bswap x

/-- `cpu_to_be32` and `be32_to_cpu`. -/
def cpuToBe32 (cpu : Endian) (x : U32) : U32 :=
  match cpu with
  | .little => bswap x
  | .big => x

/-- A word of memory. -/
def readWord (cpu : Endian) (b0 b1 b2 b3 : Byte) : U32 :=
  match cpu with
  | .little => b3 ++ b2 ++ b1 ++ b0
  | .big => b0 ++ b1 ++ b2 ++ b3

/-- `DO_CRC`. -/
def doCrc (cpu : Endian) (t0 : Row) (crc : U32) (x : Byte) : U32 :=
  match cpu with
  | .little => t0 ((crc ^^^ x.setWidth 32) &&& 255).toNat ^^^ (crc >>> 8)
  | .big => t0 (((crc >>> 24) ^^^ x.setWidth 32) &&& 255).toNat ^^^ (crc <<< 8)

/-- `DO_CRC4` and `DO_CRC8`, which start at the rows 0 and 4. -/
def doCrcWord (cpu : Endian) (tab : Table) (first : Nat) (q : U32) : U32 :=
  match cpu with
  | .little =>
      tab (first + 3) (q &&& 255).toNat ^^^ tab (first + 2) ((q >>> 8) &&& 255).toNat ^^^
        tab (first + 1) ((q >>> 16) &&& 255).toNat ^^^ tab first ((q >>> 24) &&& 255).toNat
  | .big =>
      tab first (q &&& 255).toNat ^^^ tab (first + 1) ((q >>> 8) &&& 255).toNat ^^^
        tab (first + 2) ((q >>> 16) &&& 255).toNat ^^^ tab (first + 3) ((q >>> 24) &&& 255).toNat

/-- The bytes up to an aligned address, and what is left behind them. -/
def alignIt (cpu : Endian) (t0 : Row) : Nat → U32 → List Byte → U32 × List Byte
  | _, crc, [] => (crc, [])
  | addr, crc, x :: buf => if addr % 4 ≠ 0 then alignIt cpu t0 (addr + 1) (doCrc cpu t0 crc x) buf else (crc, x :: buf)

/-- The loop over words for `CRC_LE_BITS == 32`. -/
def sliceBy4 (cpu : Endian) (tab : Table) : U32 → List Byte → U32 × List Byte
  | crc, b0 :: b1 :: b2 :: b3 :: buf => sliceBy4 cpu tab (doCrcWord cpu tab 0 (crc ^^^ readWord cpu b0 b1 b2 b3)) buf
  | crc, buf => (crc, buf)

/-- The loop over pairs of words. -/
def sliceBy8 (cpu : Endian) (tab : Table) : U32 → List Byte → U32 × List Byte
  | crc, b0 :: b1 :: b2 :: b3 :: b4 :: b5 :: b6 :: b7 :: buf =>
      let crc := doCrcWord cpu tab 4 (crc ^^^ readWord cpu b0 b1 b2 b3)
      sliceBy8 cpu tab (crc ^^^ doCrcWord cpu tab 0 (readWord cpu b4 b5 b6 b7)) buf
  | crc, buf => (crc, buf)

/-- `crc32_body`. -/
def crc32Body (cpu : Endian) (bits : CrcBits) (crc : U32) (addr : Nat) (buf : List Byte) (tab : Table) : U32 :=
  let (crc, buf) := alignIt cpu (tab 0) addr crc buf
  let (crc, buf) := if bits = .thirtyTwo then sliceBy4 cpu tab crc buf else sliceBy8 cpu tab crc buf
  buf.foldl (doCrc cpu (tab 0)) crc

/-! ## The checks -/

/-- `crc = (crc >> n) ^ tab[0][crc & (2 ^ n - 1)]`. -/
def lookupLe (n : Nat) (tab : Table) (crc : U32) : U32 := (crc >>> n) ^^^ tab 0 (crc &&& BitVec.ofNat 32 (2 ^ n - 1)).toNat

/-- `crc = (crc << n) ^ tab[0][crc >> (32 - n)]`. -/
def lookupBe (n : Nat) (tab : Table) (crc : U32) : U32 := (crc <<< n) ^^^ tab 0 (crc >>> (32 - n)).toNat

/-- `crc32_le_generic`. -/
def crc32LeGeneric (cpu : Endian) (bits : CrcBits) (crc : U32) (addr : Nat) (p : List Byte) (tab : Table) (polynomial : U32) : U32 :=
  match bits with
  | .one => bitwiseLe polynomial crc p
  | .two => p.foldl (fun crc x => (lookupLe 2 tab)^[4] (crc ^^^ x.setWidth 32)) crc
  | .four => p.foldl (fun crc x => (lookupLe 4 tab)^[2] (crc ^^^ x.setWidth 32)) crc
  | .eight => p.foldl (fun crc x => lookupLe 8 tab (crc ^^^ x.setWidth 32)) crc
  | bits => cpuToLe32 cpu (crc32Body cpu bits (cpuToLe32 cpu crc) addr p tab)

/-- `crc32_be_generic`. -/
def crc32BeGeneric (cpu : Endian) (bits : CrcBits) (crc : U32) (addr : Nat) (p : List Byte) (tab : Table) (polynomial : U32) : U32 :=
  match bits with
  | .one => bitwiseBe polynomial crc p
  | .two => p.foldl (fun crc x => (lookupBe 2 tab)^[4] (crc ^^^ topByte x)) crc
  | .four => p.foldl (fun crc x => (lookupBe 4 tab)^[2] (crc ^^^ topByte x)) crc
  | .eight => p.foldl (fun crc x => lookupBe 8 tab (crc ^^^ topByte x)) crc
  | bits => cpuToBe32 cpu (crc32Body cpu bits (cpuToBe32 cpu crc) addr p tab)

/-- `crc32table_le` and `crc32ctable_le`; `tole` is applied when the rows are read as words. -/
def crc32tableLe (cpu : Endian) (bits : CrcBits) (polynomial : U32) : Table := fun j i =>
  let entry := crc32initLeGeneric bits polynomial j i
  if bits.toNat > 8 then cpuToLe32 cpu entry else entry

/-- `crc32table_be`. -/
def crc32tableBe (cpu : Endian) (bits : CrcBits) : Table := fun j i =>
  let entry := crc32initBe bits j i
  if bits.toNat > 8 then cpuToBe32 cpu entry else entry

/-- `crc32_le`. -/
def crc32Le (cpu : Endian) (bits : CrcBits) (crc : U32) (addr : Nat) (p : List Byte) : U32 :=
  crc32LeGeneric cpu bits crc addr p (crc32tableLe cpu bits crc32PolyLe) crc32PolyLe

/-- `__crc32c_le`. -/
def crc32cLe (cpu : Endian) (bits : CrcBits) (crc : U32) (addr : Nat) (p : List Byte) : U32 :=
  crc32LeGeneric cpu bits crc addr p (crc32tableLe cpu bits crc32cPolyLe) crc32cPolyLe

/-- `crc32_be`. -/
def crc32Be (cpu : Endian) (bits : CrcBits) (crc : U32) (addr : Nat) (p : List Byte) : U32 :=
  crc32BeGeneric cpu bits crc addr p (crc32tableBe cpu bits) crc32PolyBe

end Miracle.Crc32
