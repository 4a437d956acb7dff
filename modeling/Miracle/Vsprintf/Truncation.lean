import Miracle.Vsprintf.Printf

/-! # Truncation

A call with an end runs along with a call without one.  As long as every character is counted the
cursors agree, and so does the memory before the end.  Only a string of hexadecimal bytes that is
cut by the end makes the cursor fall behind, and nothing makes up for that.
-/

namespace Miracle.Vsprintf

open Strtox

/-! ## Converters that count every character -/

/-- The output is one text, whatever the end. -/
def Emits (f : Bound → Out → Out) : Prop := ∃ text, ∀ b o, f b o = emit b o text

theorem zeros_emits (i : Int) (fuel : Nat) (p : Int) : Emits fun b o => zeros b i fuel o p := by
  induction fuel generalizing p with
  | zero => exact ⟨[], fun _ _ => rfl⟩
  | succ fuel ih =>
      obtain ⟨text, eq⟩ := ih (s16 (p - 1))
      by_cases more : i ≤ s16 (p - 1)
      · exact ⟨'0' :: text, fun b o => (if_pos more).trans (eq b _)⟩
      · exact ⟨[], fun b o => if_neg more⟩

theorem number_emits (num : Nat) (spec : PrintfSpec) : Emits fun b o => number b o num spec := by
  unfold Emits number
  cases numberSign spec.flags num spec.fieldWidth with
  | mk sign rest =>
      simp only [padIf_eq, putIf_eq, pad_eq]
      generalize numberDigits spec.base _ _ = tmp
      obtain ⟨fill, eq⟩ := zeros_emits tmp.length (2 ^ 15 + 1) (if (tmp.length : Int) > spec.precision then tmp.length else spec.precision)
      simp only at eq
      simp only [eq, ← emit_append]
      exact ⟨_, fun _ _ => rfl⟩

theorem fillWhile_emits (len fuel : Nat) (w : Int) : ∃ text w', ∀ b o, fillWhile b len fuel o w = (emit b o text, w') := by
  induction fuel generalizing w with
  | zero => exact ⟨[], w, fun _ _ => rfl⟩
  | succ fuel ih =>
      by_cases more : len < w
      · obtain ⟨text, w', eq⟩ := ih (s16 (w - 1))
        exact ⟨' ' :: text, w', fun b o => (if_pos more).trans (eq b _)⟩
      · exact ⟨[], s16 (w - 1), fun _ _ => if_neg more⟩

theorem charWhile_emits (fuel : Nat) (w : Int) : ∃ text w', ∀ b o, charWhile b fuel o w = (emit b o text, w') := by
  induction fuel generalizing w with
  | zero => exact ⟨[], w, fun _ _ => rfl⟩
  | succ fuel ih =>
      by_cases more : 0 < s16 (w - 1)
      · obtain ⟨text, w', eq⟩ := ih (s16 (w - 1))
        exact ⟨' ' :: text, w', fun b o => (if_pos more).trans (eq b _)⟩
      · exact ⟨[], s16 (w - 1), fun _ _ => if_neg more⟩

theorem string_emits (s : Option (List Char)) (spec : PrintfSpec) : Emits fun b o => string b o s spec := by
  unfold Emits string fill
  cases spec.flags.left with
  | true =>
      obtain ⟨after, _, eq⟩ := fillWhile_emits (min (s.getD nullText).length (spec.precision % 2 ^ 64).toNat) (2 ^ 15 + 1) spec.fieldWidth
      simp only [if_true, eq, ← emit_append]
      exact ⟨_, fun _ _ => rfl⟩
  | false =>
      obtain ⟨front, w, eq⟩ := fillWhile_emits (min (s.getD nullText).length (spec.precision % 2 ^ 64).toNat) (2 ^ 15 + 1) spec.fieldWidth
      obtain ⟨after, _, eq'⟩ := fillWhile_emits (min (s.getD nullText).length (spec.precision % 2 ^ 64).toNat) (2 ^ 15 + 1) w
      simp only [Bool.false_eq_true, if_false, eq, eq', ← emit_append]
      exact ⟨_, fun _ _ => rfl⟩

theorem put_eq (b : Bound) (o : Out) (c : Char) : put b o c = emit b o [c] := rfl

theorem character_emits (c : Char) (spec : PrintfSpec) : Emits fun b o => character b o c spec := by
  unfold Emits character
  cases spec.flags.left with
  | true =>
      obtain ⟨after, _, eq⟩ := charWhile_emits (2 ^ 15 + 1) spec.fieldWidth
      simp only [if_true, eq, put_eq, ← emit_append]
      exact ⟨_, fun _ _ => rfl⟩
  | false =>
      obtain ⟨front, w, eq⟩ := charWhile_emits (2 ^ 15 + 1) spec.fieldWidth
      obtain ⟨after, _, eq'⟩ := charWhile_emits (2 ^ 15 + 1) w
      simp only [Bool.false_eq_true, if_false, eq, eq', put_eq, ← emit_append]
      exact ⟨_, fun _ _ => rfl⟩

/-! ## Strings of hexadecimal bytes -/

/-- The text of `hex_string`. -/
def hexText (separator : Char) : List Byte → List Char
  | [] => []
  | x :: addr => hexBytePack x ++ ((if separator ≠ nul ∧ addr ≠ [] then [separator] else []) ++ hexText separator addr)

theorem hexLoop_unbounded (separator : Char) (addr : List Byte) (o : Out) :
    hexLoop none separator addr o = emit none o (hexText separator addr) := by
  induction addr generalizing o with
  | nil => rfl
  | cons x addr ih =>
      have room (p : Nat) : before p none = true := rfl
      rw [hexLoop, if_pos (room _), hexText, emit_append, emit_append]
      simp only [room, true_and, ih]
      split <;> rfl

theorem put_before {b : Bound} {o : Out} (room : before o.pos b = true) (c : Char) : put none o c = put b o c := by
  have free : before o.pos none = true := rfl
  rw [put, put, if_pos free, if_pos room]

theorem emit_before {e : Nat} {o : Out} {cs : List Char} (room : o.pos + cs.length ≤ e) : emit none o cs = emit (some e) o cs := by
  induction cs generalizing o with
  | nil => rfl
  | cons c cs ih =>
      rw [List.length_cons] at room
      have here : before o.pos (some e) = true := decide_eq_true (by omega)
      rw [emit_cons, emit_cons, put_before here]
      refine ih ?_
      change o.pos + 1 + cs.length ≤ e
      omega

/-- A text is written as it is, or it does not fit and is cut. -/
def WrittenOrCut (e : Nat) (o : Out) (text : List Char) (o' : Out) : Prop :=
  o' = emit (some e) o text ∧ (text = [] ∨ o.pos + text.length ≤ e) ∨
  (∃ k < text.length, o' = emit (some e) o (text.take k)) ∧ ¬ o.pos + text.length ≤ e

theorem WrittenOrCut.after {e : Nat} {o o' : Out} {front text : List Char} (room : o.pos + front.length ≤ e)
    (is : WrittenOrCut e (emit (some e) o front) text o') : WrittenOrCut e o (front ++ text) o' := by
  rcases is with ⟨rfl, fits⟩ | ⟨⟨k, lt, rfl⟩, out⟩
  · refine .inl ⟨(emit_append o front text).symm, .inr ?_⟩
    rw [List.length_append]
    rcases fits with rfl | fits
    · exact room
    · rw [emit_pos] at fits
      omega
  · rw [emit_pos] at out
    refine .inr ⟨⟨front.length + k, ?_, ?_⟩, ?_⟩
    · rw [List.length_append]
      omega
    · rw [List.take_length_add_append, emit_append]
    · rw [List.length_append]
      omega

theorem hexLoop_full {e : Nat} (separator : Char) (addr : List Byte) {o : Out} (full : e ≤ o.pos + 1) :
    hexLoop (some e) separator addr o = o := by
  cases addr with
  | nil => rfl
  | cons x addr =>
      have here : before (o.pos + 1) (some e) = false := decide_eq_false (by omega)
      rw [hexLoop, here, if_neg Bool.false_ne_true]

theorem hexLoop_bounded (e : Nat) (separator : Char) (addr : List Byte) (o : Out) :
    WrittenOrCut e o (hexText separator addr) (hexLoop (some e) separator addr o) := by
  induction addr generalizing o with
  | nil => exact .inl ⟨rfl, .inl rfl⟩
  | cons x addr ih =>
      by_cases room : o.pos + 1 < e
      · have here : before (o.pos + 1) (some e) = true := decide_eq_true room
        have fits : o.pos + (hexBytePack x).length ≤ e := room
        rw [hexLoop, if_pos here, emit_before fits, hexText]
        refine .after fits ?_
        simp only
        generalize emit (some e) o (hexBytePack x) = o'
        by_cases wanted : separator ≠ nul ∧ addr ≠ []
        · rw [if_pos wanted]
          by_cases more : before o'.pos (some e) = true
          · rw [if_pos ⟨more, wanted⟩, put_before more, put_eq]
            exact .after (of_decide_eq_true more) (ih _)
          · rw [if_neg fun both => more both.1]
            have full : e ≤ o'.pos := Nat.not_lt.mp fun lt => more (decide_eq_true lt)
            rw [hexLoop_full separator addr (by omega)]
            exact .inr ⟨⟨0, Nat.succ_pos _, rfl⟩, by simp only [List.singleton_append, List.length_cons]; omega⟩
        · rw [if_neg wanted, if_neg fun both => wanted both.2]
          exact ih _
      · have two : (hexBytePack x).length = 2 := rfl
        rw [hexLoop_full separator _ (by omega), hexText]
        refine .inr ⟨⟨0, ?_, rfl⟩, ?_⟩ <;> rw [List.length_append] <;> omega

/-! ## Two outputs side by side -/

/-- The output with the end `e` agrees with the one without an end.  The last character before the end may be a null. -/
structure Synced (e : Nat) (o u : Out) : Prop where
  pos : o.pos = u.pos
  text : ∀ i, i + 1 < e → i < o.pos → o.mem i = u.mem i

/-- From here on the ends are the same. -/
def SameEnd (e' e p : Nat) : Prop := ∀ i, p ≤ i → (i < e' ↔ i < e)

/-- Only memory from the cursor up to the end is written. -/
structure Advances (e : Nat) (o o' : Out) : Prop where
  pos : o.pos ≤ o'.pos
  outside : ∀ i, i < o.pos ∨ e ≤ i → o'.mem i = o.mem i

/-- What becomes of two outputs side by side. -/
structure Tracked (e : Nat) (o u o' u' : Out) (checked : Option Out) : Prop where
  advances : Advances e o o'
  le : o'.pos ≤ u'.pos
  behind : o.pos < u.pos → o'.pos < u'.pos
  synced : Synced e o u → checked = some u' ∧ Synced e o' u' ∨ checked = none ∧ o'.pos < u'.pos

/-- A writer with an end follows the one without.  `checked` fails where the end cuts what is written. -/
def Tracks (e : Nat) (write : Bound → Out → Option Out) (checked : Out → Option Out) : Prop :=
  ∀ e' o u u', SameEnd e' e o.pos → o.pos ≤ u.pos → write none u = some u' →
    ∃ o', write (some e') o = some o' ∧ Tracked e o u o' u' (checked u)

theorem Tracks.fault {e : Nat} {checked : Out → Option Out} : Tracks e (fun _ _ => none) checked := by
  intro e' o u u' _ _ full
  cases full

theorem emit_advances {e' e : Nat} {o : Out} (same : SameEnd e' e o.pos) (text : List Char) : Advances e o (emit (some e') o text) := by
  refine ⟨by rw [emit_pos]; omega, fun i outside => ?_⟩
  rw [emit_mem, if_neg]
  rintro ⟨room, after⟩
  have lt := of_decide_eq_true room
  have := (same i after).mp lt
  omega

theorem Synced.emit {e' e : Nat} {o u : Out} (synced : Synced e o u) (same : SameEnd e' e o.pos) (text : List Char) :
    Synced e (emit (some e') o text) (emit none u text) := by
  refine ⟨by rw [emit_pos, emit_pos, synced.pos], fun i inside below => ?_⟩
  rw [emit_mem, emit_mem, ← synced.pos]
  by_cases after : o.pos ≤ i
  · have room : before i (some e') = true := decide_eq_true ((same i after).mpr (by omega))
    have free : before i none = true := rfl
    rw [if_pos ⟨room, after⟩, if_pos ⟨free, after⟩]
    rw [emit_pos] at below
    have inText : i - o.pos < text.length := by omega
    rw [List.getElem?_eq_getElem inText]
    rfl
  · rw [if_neg fun both => after both.2, if_neg fun both => after both.2]
    exact synced.text i inside (by omega)

theorem Tracks.emits {e : Nat} {f : Bound → Out → Out} (emits : Emits f) :
    Tracks e (fun b o => some (f b o)) (fun u => some (f none u)) := by
  obtain ⟨text, eq⟩ := emits
  intro e' o u u' same le full
  cases full
  refine ⟨_, rfl, ?_, ?_, fun behind => ?_, fun synced => .inl ⟨rfl, ?_⟩⟩
  · rw [eq]
    exact emit_advances same text
  · rw [eq, eq, emit_pos, emit_pos]
    omega
  · rw [eq, eq, emit_pos, emit_pos]
    omega
  · rw [eq, eq]
    exact synced.emit same text

theorem Advances.trans {e : Nat} {o o' o'' : Out} (one : Advances e o o') (other : Advances e o' o'') : Advances e o o'' := by
  refine ⟨one.pos.trans other.pos, fun i outside => ?_⟩
  have before := one.pos
  rw [other.outside i (by omega), one.outside i outside]

/-- One writer after the other. -/
theorem Tracks.bind {e : Nat} {write write' : Bound → Out → Option Out} {checked checked' : Out → Option Out} (one : Tracks e write checked)
    (other : Tracks e write' checked') : Tracks e (fun b o => (write b o).bind (write' b)) (fun u => (checked u).bind checked') := by
  intro e' o u u'' same le full
  obtain ⟨u', first, second⟩ := Option.bind_eq_some_iff.mp full
  obtain ⟨o', eq, tracked⟩ := one e' o u u' same le first
  have same' : SameEnd e' e o'.pos := fun i after => same i (tracked.advances.pos.trans after)
  obtain ⟨o'', eq', tracked'⟩ := other e' o' u' u'' same' tracked.le second
  refine ⟨o'', Option.bind_eq_some_iff.mpr ⟨o', eq, eq'⟩, tracked.advances.trans tracked'.advances, tracked'.le,
    fun behind => tracked'.behind (tracked.behind behind), fun synced => ?_⟩
  simp only
  rcases tracked.synced synced with ⟨fits, synced'⟩ | ⟨cut, lt⟩
  · rw [fits, Option.bind_some]
    exact tracked'.synced synced'
  · rw [cut]
    exact .inr ⟨rfl, tracked'.behind lt⟩

/-- The loop over hexadecimal bytes that fails when it does not end by `e`. -/
def hexWithin (e : Nat) (b : Bound) (separator : Char) (addr : List Byte) (o : Out) : Option Out :=
  let o := hexLoop b separator addr o
  if addr = [] ∨ o.pos ≤ e then some o else none

theorem hexText_length {separator : Char} {addr : List Byte} (some : addr ≠ []) : 0 < (hexText separator addr).length := by
  cases addr with
  | nil => exact absurd rfl some
  | cons x addr => exact Nat.succ_pos _

theorem hexLoop_tracks (e : Nat) (separator : Char) (addr : List Byte) :
    Tracks e (fun b o => some (hexLoop b separator addr o)) (fun u => hexWithin e none separator addr u) := by
  intro e' o u u' same le full
  cases full
  have value : hexWithin e none separator addr u = if addr = [] ∨ (emit none u (hexText separator addr)).pos ≤ e then
      some (emit none u (hexText separator addr)) else none := by
    rw [hexWithin, hexLoop_unbounded]
  refine ⟨_, rfl, ?_⟩
  simp only [value, hexLoop_unbounded]
  rcases hexLoop_bounded e' separator addr o with ⟨eq, fits⟩ | ⟨⟨k, lt, eq⟩, out⟩
  · rw [eq]
    refine ⟨emit_advances same _, ?_, fun behind => ?_, fun synced => .inl ⟨if_pos ?_, synced.emit same _⟩⟩
    · rw [emit_pos, emit_pos]
      omega
    · rw [emit_pos, emit_pos]
      omega
    · rw [emit_pos, ← synced.pos]
      by_cases empty : addr = []
      · exact .inl empty
      · have pos := @hexText_length separator addr empty
        have end_ := (same (o.pos + (hexText separator addr).length - 1) (by omega)).mp
        rcases fits with none | fits
        · rw [none] at pos
          cases pos
        · exact .inr (by omega)
  · rw [eq]
    have short : ((hexText separator addr).take k).length < (hexText separator addr).length := by
      rw [List.length_take]
      omega
    refine ⟨emit_advances same _, ?_, fun behind => ?_, fun synced => .inr ⟨if_neg ?_, ?_⟩⟩
    · rw [emit_pos, emit_pos]
      omega
    · rw [emit_pos, emit_pos]
      omega
    · rw [emit_pos, ← synced.pos]
      have end_ := (same (o.pos + (hexText separator addr).length - 1) (by omega)).mpr
      rintro (rfl | fits)
      · cases lt
      · omega
    · rw [emit_pos, emit_pos, synced.pos]
      omega

/-! ## The loop -/

/-- The functions that `pointer` calls, as they are and checked. -/
structure CalleesTrack {A : Type} (e : Nat) (callees checked : Callees A) : Prop where
  hexLoop : ∀ separator addr, Tracks e (fun b => callees.hexLoop b separator addr) (checked.hexLoop none separator addr)
  vsnprintf : ∀ fmt args, Tracks e (fun b o => callees.vsnprintf (shrunk b o) o fmt args) (fun u => checked.vsnprintf (shrunk none u) u fmt args)

section

variable {A : Type} {e : Nat} {callees checked : Callees A} (track : CalleesTrack e callees checked)

include track

theorem hexString_tracks (p : Pointer A) (spec : PrintfSpec) (fmt : List Char) :
    Tracks e (fun b o => hexString callees.hexLoop b o p spec fmt) (fun u => hexString checked.hexLoop none u p spec fmt) := by
  unfold hexString
  by_cases none : spec.fieldWidth = 0
  · simp only [if_pos none]
    exact .emits ⟨[], fun _ _ => rfl⟩
  · simp only [if_neg none]
    by_cases small : p.addr.toNat ≤ 16
    · simp only [if_pos small]
      exact .emits (string_emits _ _)
    · simp only [if_neg small]
      cases p.read (hexLength spec) with
      | none => exact .fault
      | some addr => exact track.hexLoop _ addr

omit track in
theorem escapedString_tracks (p : Pointer A) (spec : PrintfSpec) (fmt : List Char) :
    Tracks e (fun b o => escapedString b o p spec fmt) (fun u => escapedString none u p spec fmt) := by
  unfold escapedString
  by_cases none : spec.fieldWidth = 0
  · simp only [if_pos none]
    exact .emits ⟨[], fun _ _ => rfl⟩
  · simp only [if_neg none]
    by_cases small : p.addr.toNat ≤ 16
    · simp only [if_pos small]
      exact .emits (string_emits _ _)
    · simp only [if_neg small]
      cases p.read (if spec.fieldWidth < 0 then 1 else spec.fieldWidth.toNat) with
      | none => exact .fault
      | some addr => exact .emits ⟨_, fun _ _ => rfl⟩

omit track in
theorem addressVal_tracks (p : Pointer A) (spec : PrintfSpec) :
    Tracks e (fun b o => addressVal b o p spec) (fun u => addressVal none u p spec) := by
  unfold addressVal
  split
  · exact .emits (number_emits _ _)
  · exact .fault

theorem pointer_tracks (fmt : List Char) (p : Pointer A) (spec : PrintfSpec) :
    Tracks e (fun b o => pointer callees fmt b o p spec) (fun u => pointer checked fmt none u p spec) := by
  have text (cs : List Char) : Tracks e (fun b o => some (string b o (some cs) spec)) (fun u => some (string none u (some cs) spec)) :=
    .emits (string_emits _ _)
  have number (num : Nat) (spec : PrintfSpec) : Tracks e (fun b o => some (number b o num spec)) (fun u => some (number none u num spec)) :=
    .emits (number_emits _ _)
  unfold pointer
  by_cases null : p.addr = 0 ∧ charAt fmt 0 ≠ 'K'
  · simp only [if_pos null]
    exact .emits (string_emits _ _)
  · simp only [if_neg null]
    split
    case h_6 | h_7 =>
      split
      · exact text _
      · exact .fault
    case h_8 => exact hexString_tracks track p spec fmt
    case h_9 | h_10 | h_14 =>
      cases p.read _ with
      | none => exact .fault
      | some addr => exact text _
    case h_11 =>
      split
      · split
        · exact .fault
        · cases p.read _ with
          | none => exact .fault
          | some addr => exact text _
      · cases p.read _ with
        | none => exact .fault
        | some addr => exact text _
      · exact number _ _
    case h_12 =>
      split
      · cases p.read _ with
        | none => exact .fault
        | some addr => exact text _
      · cases p.read _ with
        | none => exact .fault
        | some addr => exact text _
      · exact number _ _
    case h_13 => exact escapedString_tracks p spec fmt
    case h_15 =>
      split
      · exact track.vsnprintf _ _
      · exact .fault
    case h_16 => exact addressVal_tracks p spec
    case h_17 => exact number _ _
    all_goals exact number _ _

variable {σ : Type} (source : ArgSource σ A)

/-- A round is a writer, and what it leaves of the format and the arguments does not depend on the output. -/
theorem printStep_tracks (fmt : List Char) (spec : PrintfSpec) (args : σ) :
    ∃ write check fmt' spec' args', Tracks e write check ∧
      (∀ b o, printStep source callees b ⟨fmt, spec, args, o⟩ = (write b o).map fun o' => ⟨fmt', spec', args', o'⟩) ∧
      ∀ u, printStep source checked none ⟨fmt, spec, args, u⟩ = (check u).map fun u' => ⟨fmt', spec', args', u'⟩ := by
  have fault : ∃ write check, ∃ (fmt' : List Char) (spec' : PrintfSpec) (args' : σ), Tracks e write check ∧
      (∀ b o, none = (write b o).map fun o' => PrintState.mk fmt' spec' args' o') ∧
      ∀ u, none = (check u).map fun u' => PrintState.mk fmt' spec' args' u' :=
    ⟨fun _ _ => none, fun _ => none, fmt, spec, args, .fault, fun _ _ => rfl, fun _ => rfl⟩
  have writes {f : Bound → Out → Out} (fmt' : List Char) (spec' : PrintfSpec) (args' : σ) (emits : Emits f) :
      ∃ write check, ∃ (fmt'' : List Char) (spec'' : PrintfSpec) (args'' : σ), Tracks e write check ∧
        (∀ b o, some ⟨fmt', spec', args', f b o⟩ = (write b o).map fun o' => PrintState.mk fmt'' spec'' args'' o') ∧
        ∀ u, some ⟨fmt', spec', args', f none u⟩ = (check u).map fun u' => PrintState.mk fmt'' spec'' args'' u' :=
    ⟨_, _, fmt', spec', args', .emits emits, fun _ _ => rfl, fun _ => rfl⟩
  unfold printStep
  simp only
  generalize (formatDecode fmt spec).1 = fmt'
  generalize (formatDecode fmt spec).2 = spec'
  have numbers (type : FormatType) : ∃ write check, ∃ (fmt'' : List Char) (spec'' : PrintfSpec) (args'' : σ), Tracks e write check ∧
      (∀ b o, ((source.number type spec'.flags args).bind fun got => some ⟨fmt', spec', got.2, number b o got.1 spec'⟩) =
        (write b o).map fun o' => PrintState.mk fmt'' spec'' args'' o') ∧
      ∀ u, ((source.number type spec'.flags args).bind fun got => some ⟨fmt', spec', got.2, number none u got.1 spec'⟩) =
        (check u).map fun u' => PrintState.mk fmt'' spec'' args'' u' := by
    cases source.number type spec'.flags args with
    | none => exact fault
    | some got => exact writes _ _ _ (number_emits _ _)
  cases type : spec'.type with
  | none => exact writes _ _ _ ⟨_, fun _ _ => rfl⟩
  | percentChar => exact writes _ _ _ ⟨['%'], fun _ _ => rfl⟩
  | invalid => exact writes _ _ _ ⟨['%'], fun _ _ => rfl⟩
  | width | precision =>
      cases source.int args with
      | none => exact fault
      | some got => exact writes _ _ _ ⟨[], fun _ _ => rfl⟩
  | char =>
      cases source.char args with
      | none => exact fault
      | some got => exact writes _ _ _ (character_emits _ _)
  | str =>
      cases source.str args with
      | none => exact fault
      | some got => exact writes _ _ _ (string_emits _ _)
  | ptr =>
      cases source.ptr args with
      | none => exact fault
      | some got =>
          refine ⟨_, _, fmt'.dropWhile isalnum, spec', got.2, pointer_tracks track (fmt'.drop 1) got.1 spec', fun b o => ?_, fun u => ?_⟩
          · exact (Option.map_eq_bind ..).symm
          · exact (Option.map_eq_bind ..).symm
  | _ => exact numbers _

theorem printLoop_tracks (fmt : List Char) (spec : PrintfSpec) (args : σ) : Tracks e
    (fun b o => printLoop source callees b ⟨fmt, spec, args, o⟩) (fun u => printLoop source checked none ⟨fmt, spec, args, u⟩) := by
  induction left : todo fmt spec using Nat.strongRecOn generalizing fmt spec args with
  | ind n ih =>
      by_cases more : charAt fmt 0 = nul
      · have done (callees : Callees A) (b : Bound) (o : Out) : printLoop source callees b ⟨fmt, spec, args, o⟩ = some o := by
          rw [printLoop, dif_pos more]
        simp only [done]
        exact .emits ⟨[], fun _ _ => rfl⟩
      · obtain ⟨write, check, fmt', spec', args', tracks, real, checks⟩ := printStep_tracks track source fmt spec args
        have steps (b : Bound) (o : Out) : printLoop source callees b ⟨fmt, spec, args, o⟩ =
            (write b o).bind fun o' => printLoop source callees b ⟨fmt', spec', args', o'⟩ := by
          rw [printLoop_step more, real, Option.bind_map]
          rfl
        have checkedSteps (u : Out) : printLoop source checked none ⟨fmt, spec, args, u⟩ =
            (check u).bind fun u' => printLoop source checked none ⟨fmt', spec', args', u'⟩ := by
          rw [printLoop_step more, checks, Option.bind_map]
          rfl
        simp only [steps, checkedSteps]
        by_cases goes : ∃ u u', write none u = some u'
        · obtain ⟨u, u', eq⟩ := goes
          have less := @printStep_todo _ _ source callees none ⟨fmt, spec, args, u⟩ _ more (by rw [real, eq]; rfl)
          exact tracks.bind (ih _ (left ▸ less) fmt' spec' args' rfl)
        · intro e' o u u'' _ _ full
          obtain ⟨u', first, -⟩ := Option.bind_eq_some_iff.mp full
          exact absurd ⟨u, u', first⟩ goes

theorem printf_tracks (word : e < 2 ^ 31) (fmt : CString) (args : σ) : Tracks e
    (fun b o => printf source callees (shrunk b o) o fmt args) (fun u => printf source checked (shrunk none u) u fmt args) := by
  intro e' o u u'' same le full
  have unbounded (c : Callees A) : printf source c (shrunk none u) u fmt args =
      (printLoop source c none ⟨fmt.chars, .zero, args, u⟩).map (terminate none u.pos) := if_neg (by rintro ⟨_, member, -⟩; cases member)
  have within : SameEnd (max e' o.pos) e o.pos := fun i after => by
    rw [← same i after]
    omega
  have small : max e' o.pos - o.pos ≤ e := by
    have last := (within (max e' o.pos - 1))
    omega
  have bounded : printf source callees (shrunk (some e') o) o fmt args =
      (printLoop source callees (some (max e' o.pos)) ⟨fmt.chars, .zero, args, o⟩).map (terminate (some (max e' o.pos)) o.pos) := by
    refine if_neg ?_
    rintro ⟨_, member, large⟩
    cases member
    change 2 ^ 31 ≤ (max e' o.pos - o.pos) % 2 ^ 32 at large
    omega
  simp only [unbounded] at full ⊢
  obtain ⟨u', first, rfl⟩ := Option.map_eq_some_iff.mp full
  obtain ⟨o', eq, tracked⟩ := printLoop_tracks track source fmt.chars .zero args _ o u u' within le first
  refine ⟨_, bounded.trans (Option.map_eq_some_iff.mpr ⟨o', eq, rfl⟩), ?_⟩
  generalize max e' o.pos = top at within
  have stops := within top
  have last := within (top - 1)
  have pos := tracked.advances.pos
  have posB : (terminate (some top) o.pos o').pos = o'.pos := by
    unfold terminate
    simp only
    split <;> rfl
  -- the null goes behind the text, or to the last place before the end
  have mem (i : Nat) : (terminate (some top) o.pos o').mem i = o'.mem i ∨
      o.pos ≤ i ∧ i < e ∧ (i = o'.pos ∨ i + 1 = e ∧ e ≤ o'.pos) := by
    unfold terminate
    simp only
    split
    · by_cases at_ : i = if o'.pos < top then o'.pos else top - 1
      · refine .inr ?_
        subst at_
        split <;> omega
      · exact .inl (Function.update_of_ne at_ _ _)
    · exact .inl rfl
  refine ⟨⟨by rw [posB]; exact pos, fun i outside => ?_⟩, by rw [posB]; exact tracked.le, fun behind => ?_, fun synced => ?_⟩
  · rcases mem i with same | inside
    · exact same.trans (tracked.advances.outside i outside)
    · omega
  · rw [posB]
    exact tracked.behind behind
  · rcases tracked.synced synced with ⟨fits, synced'⟩ | ⟨cut, lt⟩
    · refine .inl ⟨Option.map_eq_some_iff.mpr ⟨u', fits, rfl⟩, by rw [posB]; exact synced'.pos, fun i inside below => ?_⟩
      rw [posB] at below
      have behindU : i ≠ u'.pos := by
        have := synced'.pos
        omega
      have unbounded : (terminate none u.pos u').mem i = u'.mem i := Function.update_of_ne behindU _ _
      rw [unbounded, ← synced'.text i inside below]
      rcases mem i with same | there
      · exact same
      · omega
    · exact .inr ⟨Option.map_eq_none_iff.mpr cut, by rw [posB]; exact lt⟩

end

/-! ## `vsnprintf` -/

theorem callees_track {e : Nat} (word : e < 2 ^ 31) (d : Nat) : CalleesTrack e (callees d) (nestedCallees (hexWithin e) d) := by
  induction d with
  | zero => exact ⟨hexLoop_tracks e, fun _ _ => .fault⟩
  | succ d ih => exact ⟨hexLoop_tracks e, fun fmt args => printf_tracks ih vaArgs word fmt args⟩

/-- The output is the start of the full one, with a null behind it, and the count is that of the full one. -/
structure Truncates (mem : Nat → Char) (size : Nat) (full out : Out) : Prop where
  count : out.pos = full.pos
  text : ∀ i < min full.pos (size - 1), out.mem i = full.mem i
  null : 0 < size → out.mem (min full.pos (size - 1)) = nul
  outside : ∀ i, size ≤ i → out.mem i = mem i

theorem terminate_null {size : Nat} (pos : 0 < size) (o : Out) :
    (terminate (some size) 0 o).mem (min (terminate (some size) 0 o).pos (size - 1)) = nul := by
  have place : min o.pos (size - 1) = if o.pos < size then o.pos else size - 1 := by
    split <;> omega
  simp only [terminate, Nat.sub_zero, if_pos pos, place]
  exact Function.update_self ..

theorem vsnprintf_null {d size : Nat} {mem : Nat → Char} {fmt : CString} {args : List (VArg d)} {out : Out} (fits : size < 2 ^ 31)
    (run : vsnprintf mem (some size) fmt args = some out) (pos : 0 < size) : out.mem (min out.pos (size - 1)) = nul := by
  have plain : ¬ ∃ e ∈ (some size : Bound), 2 ^ 31 ≤ (e - 0) % 2 ^ 32 := by
    rintro ⟨_, member, large⟩
    cases member
    omega
  rw [vsnprintf, printf, if_neg plain] at run
  obtain ⟨o, -, rfl⟩ := Option.map_eq_some_iff.mp run
  exact terminate_null pos o

/-- In the output without an end every string of hexadecimal bytes ends by `size`. -/
def HexFits {d : Nat} (mem : Nat → Char) (size : Nat) (fmt : CString) (args : List (VArg d)) : Prop :=
  (printf vaArgs (nestedCallees (hexWithin size) d) none ⟨0, mem⟩ fmt args).isSome

/-- The format `"%2ph"`. -/
def hexFormat : CString := ⟨"%2ph".toList, by decide⟩

def twoBytes : List (VArg 0) := [.ptr ⟨0x1000, .bytes [0x12, 0x34]⟩]

theorem hexFormat_step (hexLoop' : Bound → Char → List Byte → Out → Option Out) (b : Bound) (o : Out) :
    printStep vaArgs ⟨hexLoop', fun _ _ _ _ => none⟩ b ⟨hexFormat.chars, .zero, twoBytes, o⟩ =
    (hexLoop' b ' ' [0x12, 0x34] o).map fun o =>
      ⟨[], { PrintfSpec.zero with type := .ptr, base := 10, qualifier := noQualifier, fieldWidth := 2, precision := -1 }, [], o⟩ := by
  rw [Option.map_eq_bind]
  rfl

theorem hexFormat_run {hexLoop' : Bound → Char → List Byte → Out → Option Out} {b : Bound} {o o' : Out} (room : ∀ e ∈ b, e < 2 ^ 31)
    (is : hexLoop' b ' ' [0x12, 0x34] o = some o') :
    printf vaArgs (nestedCallees hexLoop' 0) b o hexFormat twoBytes = some (terminate b o.pos o') := by
  have plain : ¬ ∃ e ∈ b, 2 ^ 31 ≤ (e - o.pos) % 2 ^ 32 := by
    rintro ⟨e, member, large⟩
    have := room e member
    omega
  have loop : printLoop vaArgs ⟨hexLoop', fun _ _ _ _ => none⟩ b ⟨hexFormat.chars, .zero, twoBytes, o⟩ = some o' := by
    have more : charAt hexFormat.chars 0 ≠ nul := by decide
    rw [printLoop_step more, hexFormat_step, is, Option.map_some, Option.bind_some, printLoop_end rfl]
  exact (if_neg plain).trans (Option.map_eq_some_iff.mpr ⟨o', loop, rfl⟩)

end Miracle.Vsprintf
