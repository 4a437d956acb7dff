import Miracle.Vsprintf.Binary

/-! # Binary arguments read back

Encoder and decoder walk the format on their own.  They see the same conversions, although the
encoder does not know the widths and precisions, and every value lies where the decoder looks for
it, unless the last one is a string that ends with the array.
-/

namespace Miracle.Vsprintf

open Strtox

/-! ## Both walk the format alike -/

/-- What the walk over a format depends on. -/
structure Alike (s s' : PrintfSpec) : Prop where
  type : s.type = s'.type
  sign : s.flags.sign = s'.flags.sign

theorem decodeConversion_alike (fmt : List Char) {s s' : PrintfSpec} (alike : Alike s s') (qualifier : s.qualifier = s'.qualifier) :
    (decodeConversion fmt s).1 = (decodeConversion fmt s').1 ∧ Alike (decodeConversion fmt s).2 (decodeConversion fmt s').2 := by
  obtain ⟨-, sign⟩ := alike
  unfold decodeConversion
  simp only [qualifier, sign]
  split
  all_goals exact ⟨rfl, rfl, by first | exact sign | rfl⟩

theorem decodeQualifier_alike (fmt : List Char) {s s' : PrintfSpec} (alike : Alike s s') :
    (decodeQualifier fmt s).1 = (decodeQualifier fmt s').1 ∧ Alike (decodeQualifier fmt s).2 (decodeQualifier fmt s').2 := by
  have conversion (rest : List Char) (c : Char) := @decodeConversion_alike rest { s with qualifier := c } { s' with qualifier := c }
    ⟨alike.type, alike.sign⟩ rfl
  unfold decodeQualifier
  simp only
  split_ifs
  all_goals exact conversion _ _

theorem decodePrecision_alike (fmt : List Char) {s s' : PrintfSpec} (alike : Alike s s') :
    (decodePrecision fmt s).1 = (decodePrecision fmt s').1 ∧ Alike (decodePrecision fmt s).2 (decodePrecision fmt s').2 := by
  have qualifier (rest : List Char) (v : Int) := @decodeQualifier_alike rest { s with precision := v } { s' with precision := v }
    ⟨alike.type, alike.sign⟩
  unfold decodePrecision
  split
  · simp only
    split
    · exact qualifier _ _
    · split
      · exact ⟨rfl, rfl, alike.sign⟩
      · exact qualifier _ _
  · exact qualifier _ _

theorem decodeWidth_alike (fmt : List Char) {s s' : PrintfSpec} (alike : Alike s s') :
    (decodeWidth fmt s).1 = (decodeWidth fmt s').1 ∧ Alike (decodeWidth fmt s).2 (decodeWidth fmt s').2 := by
  have precision (rest : List Char) (v : Int) := @decodePrecision_alike rest { s with fieldWidth := v } { s' with fieldWidth := v }
    ⟨alike.type, alike.sign⟩
  unfold decodeWidth
  split
  · exact precision _ _
  · split
    · exact ⟨rfl, rfl, alike.sign⟩
    · exact precision _ _

theorem formatDecode_alike (fmt : List Char) {s s' : PrintfSpec} (alike : Alike s s') :
    (formatDecode fmt s).1 = (formatDecode fmt s').1 ∧ Alike (formatDecode fmt s).2 (formatDecode fmt s').2 := by
  unfold formatDecode
  rw [alike.type]
  split
  · refine decodePrecision_alike fmt ⟨?_, ?_⟩
    · split <;> split <;> rfl
    · split <;> split <;> exact alike.sign
  · split
    · refine decodeQualifier_alike fmt ⟨?_, ?_⟩
      · split <;> split <;> rfl
      · split <;> split <;> exact alike.sign
    · simp only
      split
      · exact ⟨rfl, rfl, alike.sign⟩
      · exact decodeWidth_alike _ ⟨rfl, rfl⟩

/-! ## The values that are stored -/

section

variable {A σ τ : Type}

/-- How values are stored does not matter to the walk. -/
theorem binStep_natural {save : Saved → σ → σ} {save' : Saved → τ → τ} {f : σ → τ} (natural : ∀ x s, f (save x s) = save' x (f s))
    (fmt : List Char) (spec : PrintfSpec) (args : List (ArgOf A)) (s : σ) :
    binStep save' ⟨fmt, spec, args, f s⟩ = (binStep save ⟨fmt, spec, args, s⟩).map fun st => ⟨st.fmt, st.spec, st.args, f st.out⟩ := by
  unfold binStep
  simp only
  generalize (formatDecode fmt spec).1 = fmt'
  generalize (formatDecode fmt spec).2 = spec'
  split
  case h_7 =>
    cases vaPtr args with
    | none => rfl
    | some got =>
        cases eq : got.1.saved with
        | none => simp [eq]
        | some bs => simp [eq, natural]
  case h_8 =>
    cases vaPtr args with
    | none => rfl
    | some got => simp [natural]
  all_goals first | rfl | simp [natural, Function.comp_def]

theorem binLoop_natural {save : Saved → σ → σ} {save' : Saved → τ → τ} {f : σ → τ} (natural : ∀ x s, f (save x s) = save' x (f s))
    (fmt : List Char) (spec : PrintfSpec) (args : List (ArgOf A)) (s : σ) :
    binLoop save' ⟨fmt, spec, args, f s⟩ = (binLoop save ⟨fmt, spec, args, s⟩).map f := by
  induction left : todo fmt spec using Nat.strongRecOn generalizing fmt spec args s with
  | ind n ih =>
      by_cases more : charAt fmt 0 = nul
      · rw [binLoop_end more, binLoop_end more]
        rfl
      · rw [binLoop_step more, binLoop_step more, binStep_natural natural, Option.bind_map, Option.map_bind]
        cases step : binStep save ⟨fmt, spec, args, s⟩ with
        | none => rfl
        | some st => exact ih _ (left ▸ binStep_todo more step) st.fmt st.spec st.args st.out rfl

/-- The values in their order. -/
def collect (x : Saved) (xs : List Saved) : List Saved := xs ++ [x]

/-- All values that are stored. -/
def storedArgs (fmt : List Char) (spec : PrintfSpec) (args : List (ArgOf A)) : Option (List Saved) :=
  binLoop collect ⟨fmt, spec, args, []⟩

theorem binLoop_stored (save : Saved → σ → σ) (fmt : List Char) (spec : PrintfSpec) (args : List (ArgOf A)) (s : σ) :
    binLoop save ⟨fmt, spec, args, s⟩ = (storedArgs fmt spec args).map fun xs => xs.foldl (fun s x => save x s) s :=
  @binLoop_natural A (List Saved) σ collect save (fun xs => xs.foldl (fun s x => save x s) s)
    (fun _ _ => List.foldl_append) fmt spec args []

theorem storedArgs_step {fmt : List Char} {spec : PrintfSpec} {args : List (ArgOf A)} (more : charAt fmt 0 ≠ nul) :
    storedArgs fmt spec args = (binStep collect ⟨fmt, spec, args, []⟩).bind fun st =>
      (storedArgs st.fmt st.spec st.args).map (st.out ++ ·) := by
  rw [storedArgs, binLoop_step more]
  congr 1
  funext st
  have prepend := @binLoop_natural A _ _ collect collect (st.out ++ ·) (fun x xs => (List.append_assoc ..).symm) st.fmt st.spec st.args []
  rw [List.append_nil] at prepend
  exact prepend

end

/-! ## Memory -/

theorem le_ptrAlign (p : Nat) {a : Nat} (pos : 0 < a) : p ≤ ptrAlign p a := by
  have floor := Nat.div_add_mod (p + a - 1) a
  have rest := Nat.mod_lt (p + a - 1) pos
  rw [ptrAlign, Nat.mul_comm]
  omega

theorem IntSize.align_pos (size : IntSize) : 0 < size.align := by cases size <;> decide

theorem Saved.le_start (p : Nat) (x : Saved) : p ≤ x.start p := by
  cases x with
  | arg size value => exact le_ptrAlign p size.align_pos
  | str text => exact le_rfl

theorem leBytes_length (n value : Nat) : (leBytes n value).length = n := by
  induction n generalizing value with
  | zero => rfl
  | succ n ih => rw [leBytes, List.length_cons, ih]

theorem Saved.lt_stop (p : Nat) (x : Saved) : p < x.stop p := by
  have start := x.le_start p
  have some : 0 < x.bytes.length := by
    cases x with
    | arg size value =>
        rw [bytes, leBytes_length]
        cases size <;> decide
    | str text => simp [bytes]
  rw [stop]
  omega

/-- Where the values end. -/
def stopAll (p : Nat) (xs : List Saved) : Nat := xs.foldl (fun p x => x.stop p) p

theorem le_stopAll (p : Nat) (xs : List Saved) : p ≤ stopAll p xs := by
  induction xs generalizing p with
  | nil => exact le_rfl
  | cons x xs ih => exact (x.lt_stop p).le.trans (ih _)

theorem stopAll_append (p : Nat) (xs ys : List Saved) : stopAll p (xs ++ ys) = stopAll (stopAll p xs) ys := List.foldl_append

/-- The values lie in memory one behind the other. -/
def Holds (bin : BinBuf) : Nat → List Saved → Prop
  | _, [] => True
  | p, x :: xs => bin.read (x.start p) x.bytes.length = x.bytes ∧ x.stop p ≤ bin.limit ∧ Holds bin (x.stop p) xs

/-- Every value is written. -/
def AllInside (e : Nat) : Nat → List Saved → Prop
  | _, [] => True
  | p, x :: xs => x.inside e p = true ∧ AllInside e (x.stop p) xs

def saveAll (e : Nat) (xs : List Saved) (o : BinOut) : BinOut := xs.foldl (fun o x => save e x o) o

theorem saveAll_str (e : Nat) (xs : List Saved) (o : BinOut) : (saveAll e xs o).str = stopAll o.str xs := by
  induction xs generalizing o with
  | nil => rfl
  | cons x xs ih => exact ih _

theorem save_mem (e : Nat) (x : Saved) (o : BinOut) {i : Nat} (outside : i < o.str ∨ x.stop o.str ≤ i) : (save e x o).mem i = o.mem i := by
  have start := x.le_start o.str
  have stop : x.stop o.str = x.start o.str + x.bytes.length := rfl
  unfold save
  simp only
  split
  · unfold writeBytes
    split
    · rw [List.getD_eq_default]
      omega
    · rfl
  · rfl

/-- Memory outside the values keeps its contents. -/
theorem saveAll_mem (e : Nat) (xs : List Saved) (o : BinOut) {i : Nat} (outside : i < o.str ∨ stopAll o.str xs ≤ i) :
    (saveAll e xs o).mem i = o.mem i := by
  induction xs generalizing o with
  | nil => rfl
  | cons x xs ih =>
      have stop := x.lt_stop o.str
      have rest := le_stopAll (x.stop o.str) xs
      have all : stopAll o.str (x :: xs) = stopAll (x.stop o.str) xs := rfl
      have next : (save e x o).str = x.stop o.str := rfl
      refine (ih (save e x o) ?_).trans (save_mem e x o ?_)
      · rw [next]
        omega
      · omega

theorem saveAll_holds {e limit : Nat} {xs : List Saved} {o : BinOut} (inside : AllInside e o.str xs) (room : stopAll o.str xs ≤ limit) :
    Holds ⟨(saveAll e xs o).mem, limit⟩ o.str xs := by
  induction xs generalizing o with
  | nil => trivial
  | cons x xs ih =>
      obtain ⟨here, inside⟩ := inside
      have stop : x.stop o.str = x.start o.str + x.bytes.length := rfl
      have rest := le_stopAll (x.stop o.str) xs
      refine ⟨?_, rest.trans room, ih inside room⟩
      refine List.ext_getElem (by simp [BinBuf.read]) fun i low high => ?_
      have kept := saveAll_mem e xs (save e x o) (i := x.start o.str + i) (.inl (by change _ < x.stop o.str; omega))
      simp only [BinBuf.read, List.getElem_map, List.getElem_range]
      change (saveAll e xs (save e x o)).mem (x.start o.str + i) = _
      rw [kept]
      simp only [save, if_pos here, writeBytes, if_pos (Nat.le_add_right _ _), Nat.add_sub_cancel_left]
      exact (List.getElem_eq_getD _).symm

/-! ## Reading a value back -/

theorem leValue_leBytes (n value : Nat) : leValue (leBytes n value) = value % 256 ^ n := by
  induction n generalizing value with
  | zero => simp [leBytes, leValue, Nat.mod_one]
  | succ n ih =>
      rw [leBytes, leValue, ih, pow_succ', Nat.mod_mul]
      rfl

/-- One value at its place. -/
def Lies (bin : BinBuf) (p : Nat) (x : Saved) : Prop := bin.read (x.start p) x.bytes.length = x.bytes ∧ x.stop p ≤ bin.limit

theorem getArg_lies {bin : BinBuf} {p value : Nat} {size : IntSize} (lies : Lies bin p (.arg size value)) :
    getArg bin size p = some (value % 256 ^ size.bytes, (Saved.arg size value).stop p) := by
  obtain ⟨read, room⟩ := lies
  have length : (Saved.arg size value).bytes.length = size.bytes := leBytes_length _ _
  rw [length] at read
  rw [Saved.stop, length] at room ⊢
  have start : ptrAlign p size.align = (Saved.arg size value).start p := rfl
  unfold getArg
  simp only [start, if_pos room, read, Saved.bytes, leValue_leBytes]

theorem upToNull_append (text : ByteText) (rest : List Byte) : upToNull (text.val ++ 0 :: rest) = text := by
  refine Subtype.ext ?_
  have all : ∀ x ∈ text.val, decide (x ≠ 0) = true := fun x member => decide_eq_true fun zero => text.property (zero ▸ member)
  change (text.val ++ 0 :: rest).takeWhile (· ≠ 0) = text.val
  rw [List.takeWhile_append_of_pos all]
  simp

theorem read_append (bin : BinBuf) (p m n : Nat) : bin.read p (m + n) = bin.read p m ++ bin.read (p + m) n := by
  simp only [BinBuf.read, List.range_add, List.map_append, List.map_map, Function.comp_def, Nat.add_assoc]

theorem getStr_lies {bin : BinBuf} {p : Nat} {text : ByteText} (lies : Lies bin p (.str text)) :
    getStr bin p = some (text, (Saved.str text).stop p) := by
  obtain ⟨read, room⟩ := lies
  have length : (Saved.str text).bytes.length = text.val.length + 1 := by simp [Saved.bytes]
  rw [length] at read
  rw [Saved.stop, length] at room ⊢
  change p + (text.val.length + 1) ≤ bin.limit at room
  have split : bin.limit - p = text.val.length + 1 + (bin.limit - p - (text.val.length + 1)) := by omega
  have found : upToNull (bin.read p (bin.limit - p)) = text := by
    rw [split, read_append]
    change bin.read p (text.val.length + 1) = text.val ++ [0] at read
    rw [read, List.append_assoc]
    exact upToNull_append text _
  unfold getStr
  simp only [found]
  exact if_pos (by omega)

theorem getStr_none {bin : BinBuf} {p : Nat} (full : ∀ i, p ≤ i → i < bin.limit → bin.bytes i ≠ 0) (inside : p ≤ bin.limit) : getStr bin p = none := by
  have all : (bin.read p (bin.limit - p)).takeWhile (· ≠ 0) = bin.read p (bin.limit - p) := by
    rw [List.takeWhile_eq_self_iff]
    intro x member
    obtain ⟨i, within, rfl⟩ := List.mem_map.mp member
    rw [List.mem_range] at within
    exact decide_eq_true (full (p + i) (by omega) (by omega))
  unfold getStr upToNull
  simp only [all]
  refine if_neg ?_
  simp only [BinBuf.read, List.length_map, List.length_range]
  omega

/-! ## Both loops -/

/-- The format takes no pointers to be printed. -/
inductive Plain : List Char → PrintfSpec → Prop where
  | done {fmt : List Char} {spec : PrintfSpec} (ends : charAt fmt 0 = nul) : Plain fmt spec
  | next {fmt : List Char} {spec : PrintfSpec} (notPtr : (formatDecode fmt spec).2.type ≠ .ptr)
      (rest : Plain (formatDecode fmt spec).1 (formatDecode fmt spec).2) : Plain fmt spec

/-- No pointer is into the last page. -/
def Addresses {A : Type} (args : List (ArgOf A)) : Prop := ∀ p, .ptr p ∈ args → p.addr.toNat ≤ 2 ^ 64 - pageSize

section

variable {A : Type}

theorem saveArg_int {size : IntSize} (small : size ≠ .eight) {args args' : List (ArgOf A)} {x : Saved} (saved : saveArg size args = some (x, args')) :
    ∃ v, vaInt args = some (v, args') ∧ x = .arg size v.toNat := by
  have is : (vaInt args).map (fun got => (Saved.arg size got.1.toNat, got.2)) = some (x, args') := by
    cases size with
    | eight => exact absurd rfl small
    | one | two | four => exact saved
  obtain ⟨⟨v, rest⟩, got, eq⟩ := Option.map_eq_some_iff.mp is
  cases eq
  exact ⟨v, got, rfl⟩

theorem saveArg_long {args args' : List (ArgOf A)} {x : Saved} (saved : saveArg .eight args = some (x, args')) :
    ∃ v, vaLong args = some (v, args') ∧ x = .arg .eight v.toNat := by
  obtain ⟨⟨v, rest⟩, got, eq⟩ := Option.map_eq_some_iff.mp saved
  cases eq
  exact ⟨v, got, rfl⟩

/-- The bytes of a number make up the number again, as far as they go. -/
theorem ofNat_bytes {w k : Nat} (v : BitVec w) (n : Nat) (size : 256 ^ n = 2 ^ k) : BitVec.ofNat k (v.toNat % 256 ^ n) = v.setWidth k := by
  apply BitVec.eq_of_toNat_eq
  rw [BitVec.toNat_ofNat, BitVec.toNat_setWidth, size, Nat.mod_mod]

/-- A number is read back as it was passed. -/
theorem number_back {type : FormatType} {args args' : List (ArgOf A)} {x : Saved} (number : type = .uint ∨ type = .int ∨ saveSize type ≠ .four)
    (saved : saveArg (saveSize type) args = some (x, args')) :
    ∃ num, vaNumber type args = some (num, args') ∧ ∀ bin p, Lies bin p x → binNumber bin type p = some (num, x.stop p) := by
  have int (size : IntSize) (cast : Nat → BitVec 64) (cast' : BitVec 32 → BitVec 64) (small : size ≠ .eight) (saved : saveArg size args = some (x, args'))
      (same : ∀ v : BitVec 32, cast (v.toNat % 256 ^ size.bytes) = cast' v) :
      ∃ num, (vaInt args).map (fun got => (cast' got.1, got.2)) = some (num, args') ∧
        ∀ bin p, Lies bin p x → (getArg bin size p).map (fun got => (cast got.1, got.2)) = some (num, x.stop p) := by
    obtain ⟨v, got, rfl⟩ := saveArg_int small saved
    exact ⟨cast' v, by rw [got]; rfl, fun bin p lies => by rw [getArg_lies lies, ← same]; rfl⟩
  have long (saved : saveArg .eight args = some (x, args')) :
      ∃ num, vaLong args = some (num, args') ∧
        ∀ bin p, Lies bin p x → (getArg bin .eight p).map (fun got => (BitVec.ofNat 64 got.1, got.2)) = some (num, x.stop p) := by
    obtain ⟨v, got, rfl⟩ := saveArg_long saved
    have same := @ofNat_bytes 64 64 v IntSize.eight.bytes (by decide)
    rw [BitVec.setWidth_eq] at same
    refine ⟨v, got, fun bin p lies => ?_⟩
    rw [getArg_lies lies]
    exact congrArg some (Prod.ext same rfl)
  cases type with
  | longLong | ulong | long | sizeT | ptrdiff => exact long saved
  | ubyte =>
      exact int .one (fun v => (BitVec.ofNat 8 v).setWidth 64) (fun v => (v.setWidth 8).setWidth 64) (by decide) saved fun v => by
        rw [@ofNat_bytes 32 8 v IntSize.one.bytes (by decide)]
  | byte =>
      exact int .one (fun v => (BitVec.ofNat 8 v).signExtend 64) (fun v => (v.setWidth 8).signExtend 64) (by decide) saved fun v => by
        rw [@ofNat_bytes 32 8 v IntSize.one.bytes (by decide)]
  | ushort =>
      exact int .two (fun v => (BitVec.ofNat 16 v).setWidth 64) (fun v => (v.setWidth 16).setWidth 64) (by decide) saved fun v => by
        rw [@ofNat_bytes 32 16 v IntSize.two.bytes (by decide)]
  | short =>
      exact int .two (fun v => (BitVec.ofNat 16 v).signExtend 64) (fun v => (v.setWidth 16).signExtend 64) (by decide) saved fun v => by
        rw [@ofNat_bytes 32 16 v IntSize.two.bytes (by decide)]
  | uint =>
      exact int .four (fun v => (BitVec.ofNat 32 v).setWidth 64) (fun v => v.setWidth 64) (by decide) saved fun v => by
        rw [@ofNat_bytes 32 32 v IntSize.four.bytes (by decide), BitVec.setWidth_eq]
  | int =>
      exact int .four (fun v => (BitVec.ofNat 32 v).signExtend 64) (fun v => v.signExtend 64) (by decide) saved fun v => by
        rw [@ofNat_bytes 32 32 v IntSize.four.bytes (by decide), BitVec.setWidth_eq]
  | _ => simp [saveSize] at number

theorem vaInt_cons {args args' : List (ArgOf A)} {v : BitVec 32} (got : vaInt args = some (v, args')) : args = .int v :: args' := by
  unfold vaInt at got
  split at got
  · cases got
    rfl
  · cases got

theorem vaLong_cons {args args' : List (ArgOf A)} {v : BitVec 64} (got : vaLong args = some (v, args')) : args = .long v :: args' := by
  unfold vaLong at got
  split at got
  · cases got
    rfl
  · cases got

theorem vaPtr_cons {args args' : List (ArgOf A)} {p : Pointer A} (got : vaPtr args = some (p, args')) : args = .ptr p :: args' := by
  unfold vaPtr at got
  split at got
  · cases got
    rfl
  · cases got

theorem Addresses.tail {arg : ArgOf A} {args : List (ArgOf A)} (addresses : Addresses (arg :: args)) : Addresses args :=
  fun p member => addresses p (List.mem_cons_of_mem _ member)

theorem Addresses.saved {size : IntSize} {args args' : List (ArgOf A)} {x : Saved} (addresses : Addresses args)
    (saved : saveArg size args = some (x, args')) : Addresses args' := by
  by_cases long : size = .eight
  · subst long
    obtain ⟨v, got, -⟩ := saveArg_long saved
    rw [vaLong_cons got] at addresses
    exact addresses.tail
  · obtain ⟨v, got, -⟩ := saveArg_int long saved
    rw [vaInt_cons got] at addresses
    exact addresses.tail

/-- A string is printed as it is stored. -/
theorem text_back {p : Pointer A} {text : ByteText} (address : p.addr.toNat ≤ 2 ^ 64 - pageSize) (saved : p.saved = some text) :
    ∃ s, p.text = some s ∧ s.getD nullText = text.val.map Byte.char := by
  unfold Pointer.saved at saved
  unfold Pointer.text
  by_cases low : p.addr.toNat < pageSize
  · rw [if_pos (.inr low)] at saved
    cases saved
    exact ⟨none, if_pos low, by decide⟩
  · have inside : ¬ (2 ^ 64 - pageSize < p.addr.toNat ∨ p.addr.toNat < pageSize) := by omega
    rw [if_neg inside] at saved
    rw [if_neg low, if_neg (Nat.not_lt.mpr address)]
    cases target : p.target with
    | bytes bs =>
        rw [target] at saved
        cases saved
        exact ⟨_, rfl, rfl⟩
    | _ =>
        rw [target] at saved
        cases saved

theorem string_getD (b : Bound) (o : Out) {s s' : Option (List Char)} (same : s.getD nullText = s'.getD nullText) (spec : PrintfSpec) :
    string b o s spec = string b o s' spec := by
  unfold string
  rw [same]

/-- A width or a precision is read back. -/
theorem int_back {args args' : List (ArgOf A)} {x : Saved} (saved : saveArg .four args = some (x, args')) :
    ∃ v, vaArgs.int args = some (v, args') ∧ ∀ bin objects p, Lies bin p x → (binArgs (A := A) bin objects).int p = some (v, x.stop p) := by
  obtain ⟨v, got, rfl⟩ := saveArg_int (by decide) saved
  have same := @ofNat_bytes 32 32 v IntSize.four.bytes (by decide)
  rw [BitVec.setWidth_eq] at same
  refine ⟨v.toInt, congrArg (Option.map _) got, fun bin objects p lies => ?_⟩
  refine (congrArg (Option.map _) (getArg_lies lies)).trans (congrArg some (Prod.ext ?_ rfl))
  exact congrArg BitVec.toInt same

theorem char_back {args args' : List (ArgOf A)} {x : Saved} (saved : saveArg .one args = some (x, args')) :
    ∃ c, vaArgs.char args = some (c, args') ∧ ∀ bin objects p, Lies bin p x → (binArgs (A := A) bin objects).char p = some (c, x.stop p) := by
  obtain ⟨v, got, rfl⟩ := saveArg_int (by decide) saved
  refine ⟨Char.ofNat (v.setWidth 8).toNat, congrArg (Option.map _) got, fun bin objects p lies => ?_⟩
  refine (congrArg (Option.map _) (getArg_lies lies)).trans (congrArg some (Prod.ext ?_ rfl))
  have byte : v.toNat % 256 ^ IntSize.one.bytes = (v.setWidth 8).toNat := by
    rw [BitVec.toNat_setWidth]
    rfl
  exact congrArg Char.ofNat byte

theorem str_back {args args' : List (ArgOf A)} {p : Pointer A} {text : ByteText} (addresses : Addresses args) (got : vaPtr args = some (p, args'))
    (saved : p.saved = some text) : ∃ s s', s.getD nullText = s'.getD nullText ∧ vaArgs.str args = some (s, args') ∧
      ∀ bin objects q, Lies bin q (.str text) → (binArgs (A := A) bin objects).str q = some (s', (Saved.str text).stop q) := by
  rw [vaPtr_cons got] at addresses
  obtain ⟨s, found, same⟩ := text_back (addresses p List.mem_cons_self) saved
  refine ⟨s, some (text.val.map Byte.char), same, ?_, fun bin objects q lies => congrArg (Option.map _) (getStr_lies lies)⟩
  simp only [vaArgs, got, Option.bind_eq_bind, Option.bind_some, found]

/-- A round of the encoder, and the rounds of both printers that belong to it. -/
theorem step_back {fmt : List Char} {spec spec' : PrintfSpec} {args : List (ArgOf A)} {st : BinState (List Saved) A} (alike : Alike spec spec')
    (notPtr : (formatDecode fmt spec').2.type ≠ .ptr) (addresses : Addresses args)
    (step : binStep collect ⟨fmt, spec', args, []⟩ = some st) :
    st.fmt = (formatDecode fmt spec').1 ∧ st.spec = (formatDecode fmt spec').2 ∧ Addresses st.args ∧ ∃ next, Alike next st.spec ∧
      ∀ (callees : Callees A) b o, ∃ o', printStep vaArgs callees b ⟨fmt, spec, args, o⟩ = some ⟨st.fmt, next, st.args, o'⟩ ∧
        ∀ bin objects p, Holds bin p st.out →
          printStep (binArgs bin objects) callees b ⟨fmt, spec, p, o⟩ = some ⟨st.fmt, next, stopAll p st.out, o'⟩ := by
  obtain ⟨same, alike⟩ := formatDecode_alike fmt alike
  unfold binStep at step
  unfold printStep
  simp only at step ⊢
  rw [same]
  generalize (formatDecode fmt spec').1 = rest at *
  generalize (formatDecode fmt spec').2 = decoded' at *
  generalize (formatDecode fmt spec).2 = decoded at *
  have type := alike.type
  cases is : decoded'.type with
  | ptr => exact absurd is notPtr
  | none | percentChar | invalid =>
      rw [is] at type step
      simp only [type]
      cases step
      exact ⟨rfl, rfl, addresses, decoded, alike, fun _ _ _ => ⟨_, rfl, fun _ _ _ _ => rfl⟩⟩
  | width =>
      rw [is] at type step
      simp only [type]
      obtain ⟨⟨x, args'⟩, saved, rfl⟩ := Option.map_eq_some_iff.mp step
      obtain ⟨v, got, back⟩ := int_back saved
      refine ⟨rfl, rfl, addresses.saved saved, { decoded with fieldWidth := s16 v }, ⟨alike.type, alike.sign⟩, fun _ b o => ⟨o, ?_, ?_⟩⟩
      · simp only [type, got, Option.bind_eq_bind, Option.bind_some]
      · intro bin objects p ⟨read, room, _⟩
        simp only [type, back bin objects p ⟨read, room⟩, Option.bind_eq_bind, Option.bind_some]
        rfl
  | precision =>
      rw [is] at type step
      simp only [type]
      obtain ⟨⟨x, args'⟩, saved, rfl⟩ := Option.map_eq_some_iff.mp step
      obtain ⟨v, got, back⟩ := int_back saved
      refine ⟨rfl, rfl, addresses.saved saved, { decoded with precision := s16 v }, ⟨alike.type, alike.sign⟩, fun _ b o => ⟨o, ?_, ?_⟩⟩
      · simp only [type, got, Option.bind_eq_bind, Option.bind_some]
      · intro bin objects p ⟨read, room, _⟩
        simp only [type, back bin objects p ⟨read, room⟩, Option.bind_eq_bind, Option.bind_some]
        rfl
  | char =>
      rw [is] at type step
      simp only [type]
      obtain ⟨⟨x, args'⟩, saved, rfl⟩ := Option.map_eq_some_iff.mp step
      obtain ⟨c, got, back⟩ := char_back saved
      refine ⟨rfl, rfl, addresses.saved saved, decoded, alike, fun _ b o => ⟨character b o c decoded, ?_, ?_⟩⟩
      · simp only [got, Option.bind_eq_bind, Option.bind_some]
      · intro bin objects p ⟨read, room, _⟩
        simp only [back bin objects p ⟨read, room⟩, Option.bind_eq_bind, Option.bind_some]
        rfl
  | str =>
      rw [is] at type step
      simp only [type]
      obtain ⟨⟨p, args'⟩, got, step⟩ := Option.bind_eq_some_iff.mp step
      obtain ⟨text, saved, step⟩ := Option.bind_eq_some_iff.mp step
      cases step
      obtain ⟨s, s', same, got', back⟩ := str_back addresses got saved
      rw [vaPtr_cons got] at addresses
      refine ⟨rfl, rfl, addresses.tail, decoded, alike, fun _ b o => ⟨string b o s decoded, ?_, ?_⟩⟩
      · simp only [got', Option.bind_eq_bind, Option.bind_some]
      · intro bin objects q ⟨read, room, _⟩
        simp only [back bin objects q ⟨read, room⟩, Option.bind_eq_bind, Option.bind_some, string_getD b o same]
        rfl
  | _ =>
      rw [is] at type step
      simp only [type]
      obtain ⟨⟨x, args'⟩, saved, rfl⟩ := Option.map_eq_some_iff.mp step
      obtain ⟨num, got, back⟩ := number_back (by decide) saved
      refine ⟨rfl, rfl, addresses.saved saved, decoded, alike, fun _ b o => ⟨number b o num.toNat decoded, ?_, ?_⟩⟩
      · simp only [vaArgs, got, Option.map_some, Option.bind_eq_bind, Option.bind_some]
      · intro bin objects p ⟨read, room, _⟩
        simp only [binArgs, back bin p ⟨read, room⟩, Option.map_some, Option.bind_eq_bind, Option.bind_some]
        rfl

end

end Miracle.Vsprintf
