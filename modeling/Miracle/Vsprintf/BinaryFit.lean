import Miracle.Vsprintf.BinaryTrip

/-! # The round trip of binary arguments

`bstr_printf` prints what `vsnprintf` prints if all values are in the array.  The encoder drops a
string that ends exactly with the array, and its count of words still includes it.
-/

namespace Miracle.Vsprintf

open Strtox

/-! ## The loops -/

theorem Holds.append {bin : BinBuf} {p : Nat} {xs ys : List Saved} (holds : Holds bin p (xs ++ ys)) :
    Holds bin p xs ∧ Holds bin (stopAll p xs) ys := by
  induction xs generalizing p with
  | nil => exact ⟨trivial, holds⟩
  | cons x xs ih =>
      obtain ⟨read, room, rest⟩ := holds
      obtain ⟨here, behind⟩ := ih rest
      exact ⟨⟨read, room, here⟩, behind⟩

section

variable {A : Type}

/-- Where all values are found, the decoder prints what the printer prints. -/
theorem loops_agree {fmt : List Char} {spec spec' : PrintfSpec} {args : List (ArgOf A)} {xs : List Saved} (plain : Plain fmt spec')
    (alike : Alike spec spec') (addresses : Addresses args) (stored : storedArgs fmt spec' args = some xs) (callees : Callees A) (b : Bound) (o : Out) :
    ∃ out, printLoop vaArgs callees b ⟨fmt, spec, args, o⟩ = some out ∧
      ∀ bin objects p, Holds bin p xs → printLoop (binArgs bin objects) callees b ⟨fmt, spec, p, o⟩ = some out := by
  induction plain generalizing spec args xs o with
  | done ends => exact ⟨o, printLoop_end ends, fun _ _ _ _ => printLoop_end ends⟩
  | @next fmt spec' notPtr rest ih =>
      by_cases more : charAt fmt 0 = nul
      · exact ⟨o, printLoop_end more, fun _ _ _ _ => printLoop_end more⟩
      · rw [storedArgs_step more] at stored
        obtain ⟨st, step, stored⟩ := Option.bind_eq_some_iff.mp stored
        obtain ⟨later, kept, rfl⟩ := Option.map_eq_some_iff.mp stored
        obtain ⟨fmtEq, specEq, addresses, next, alike, back⟩ := step_back alike notPtr addresses step
        obtain ⟨o', printed, decoded⟩ := back callees b o
        rw [fmtEq, specEq] at kept
        rw [specEq] at alike
        obtain ⟨out, printedRest, decodedRest⟩ := ih alike addresses kept o'
        refine ⟨out, ?_, fun bin objects p holds => ?_⟩
        · rw [printLoop_step more, printed, Option.bind_some, fmtEq]
          exact printedRest
        · obtain ⟨here, behind⟩ := holds.append
          rw [printLoop_step more, decoded bin objects p here, Option.bind_some, fmtEq]
          exact decodedRest bin objects _ behind

/-- A round stores at most one value, and strings only for their own conversion. -/
theorem binStep_out {fmt : List Char} {spec : PrintfSpec} {args : List (ArgOf A)} {st : BinState (List Saved) A}
    (step : binStep collect ⟨fmt, spec, args, []⟩ = some st) :
    st.out = [] ∨ ∃ x, st.out = [x] ∧ ∀ text, x = .str text → (formatDecode fmt spec).2.type = .str := by
  have int {size : IntSize} {stored : Saved × List (ArgOf A) → BinState (List Saved) A} (out : ∀ got, (stored got).out = [got.1])
      (step : (saveArg size args).map stored = some st) :
      ∃ x, st.out = [x] ∧ ∀ text, x = .str text → (formatDecode fmt spec).2.type = .str := by
    obtain ⟨⟨x, args'⟩, saved, rfl⟩ := Option.map_eq_some_iff.mp step
    refine ⟨x, out _, fun text eq => ?_⟩
    by_cases long : size = .eight
    · subst long
      obtain ⟨v, -, rfl⟩ := saveArg_long saved
      cases eq
    · obtain ⟨v, -, rfl⟩ := saveArg_int long saved
      cases eq
  unfold binStep at step
  simp only at step
  split at step
  case h_1 | h_2 | h_3 =>
    cases step
    exact .inl rfl
  case h_7 type =>
    obtain ⟨⟨p, args'⟩, -, step⟩ := Option.bind_eq_some_iff.mp step
    obtain ⟨text, -, step⟩ := Option.bind_eq_some_iff.mp step
    cases step
    exact .inr ⟨_, rfl, fun _ _ => type⟩
  case h_8 =>
    obtain ⟨⟨p, args'⟩, -, step⟩ := Option.bind_eq_some_iff.mp step
    cases step
    exact .inr ⟨_, rfl, fun _ eq => nomatch eq⟩
  all_goals exact .inr (int (fun _ => rfl) step)

/-- A string that is not found. -/
theorem printStep_missing {fmt : List Char} {spec : PrintfSpec} (str : (formatDecode fmt spec).2.type = .str) (callees : Callees A) (b : Bound) (o : Out)
    {bin : BinBuf} (objects : BitVec 64 → Target A) {p : Nat} (missing : getStr bin p = none) :
    printStep (binArgs bin objects) callees b ⟨fmt, spec, p, o⟩ = none := by
  have none : (binArgs bin objects).str p = none := congrArg (Option.map _) missing
  unfold printStep
  simp only [str, none, Option.bind_eq_bind, Option.bind_none]

theorem stored_more {fmt : List Char} {spec : PrintfSpec} {args : List (ArgOf A)} {xs : List Saved} {x : Saved}
    (stored : storedArgs fmt spec args = some (xs ++ [x])) : charAt fmt 0 ≠ nul := by
  intro ends
  rw [storedArgs, binLoop_end ends] at stored
  exact List.append_ne_nil_of_right_ne_nil xs (List.cons_ne_nil _ _) (Option.some.inj stored).symm

/-- Where the last value is a string that is not found, the decoder reads beyond its memory. -/
theorem loop_missing {fmt : List Char} {spec spec' : PrintfSpec} {args : List (ArgOf A)} {xs : List Saved} {text : ByteText} (plain : Plain fmt spec')
    (alike : Alike spec spec') (addresses : Addresses args) (stored : storedArgs fmt spec' args = some (xs ++ [.str text])) (callees : Callees A)
    (b : Bound) (o : Out) {bin : BinBuf} (objects : BitVec 64 → Target A) {p : Nat} (holds : Holds bin p xs) (missing : getStr bin (stopAll p xs) = none) :
    printLoop (binArgs bin objects) callees b ⟨fmt, spec, p, o⟩ = none := by
  induction plain generalizing spec args xs p o with
  | done ends => exact absurd ends (stored_more stored)
  | @next fmt spec' notPtr rest ih =>
      have more := stored_more stored
      rw [storedArgs_step more] at stored
      obtain ⟨st, step, stored⟩ := Option.bind_eq_some_iff.mp stored
      obtain ⟨later, kept, eq⟩ := Option.map_eq_some_iff.mp stored
      obtain ⟨fmtEq, specEq, addresses, next, nextAlike, back⟩ := step_back alike notPtr addresses step
      obtain ⟨o', -, decoded⟩ := back callees b o
      rw [fmtEq, specEq] at kept
      rw [specEq] at nextAlike
      -- the values of this round are found, the string is behind them
      have behind {ys : List Saved} (split : xs = st.out ++ ys) (same : later = ys ++ [.str text]) :
          (printStep (binArgs bin objects) callees b ⟨fmt, spec, p, o⟩).bind (printLoop (binArgs bin objects) callees b) = none := by
        subst split same
        obtain ⟨here, holds⟩ := holds.append
        rw [stopAll_append] at missing
        rw [decoded bin objects p here, Option.bind_some, fmtEq]
        exact ih nextAlike addresses kept o' holds missing
      rw [printLoop_step more]
      rcases binStep_out step with nothing | ⟨x, one, str⟩
      · rw [nothing] at eq behind
        exact behind rfl eq
      · rw [one] at eq behind
        cases xs with
        | nil =>
            have here : getStr bin p = none := missing
            rw [printStep_missing _ callees b o objects here, Option.bind_none]
            obtain ⟨isText, -⟩ := List.cons.inj eq
            rw [(formatDecode_alike fmt alike).2.type]
            exact str text isText
        | cons y ys =>
            obtain ⟨rfl, rest⟩ := List.cons.inj eq
            exact behind rfl rest

end

/-! ## The array -/

/-- All values are written, unless they end with the array and the last one is a string. -/
theorem allInside {e p : Nat} {xs : List Saved} (room : stopAll p xs ≤ e) (early : ∀ ys text, xs = ys ++ [.str text] → stopAll p xs ≠ e) :
    AllInside e p xs := by
  induction xs generalizing p with
  | nil => trivial
  | cons x xs ih =>
      have rest := le_stopAll (x.stop p) xs
      have all : stopAll p (x :: xs) = stopAll (x.stop p) xs := rfl
      refine ⟨?_, ih room fun ys text eq => early (x :: ys) text (congrArg (x :: ·) eq)⟩
      cases x with
      | arg size value => exact decide_eq_true (rest.trans room)
      | str text =>
          refine decide_eq_true ?_
          cases xs with
          | nil => exact lt_of_le_of_ne room (early [] text rfl)
          | cons y xs => exact (y.lt_stop _).trans_le ((le_stopAll _ xs).trans room)

/-- A string that ends with the array is not written. -/
theorem exactFit_missing {e : Nat} {xs : List Saved} {text : ByteText} (bin : Nat → Byte) (full : ∀ i, bin i ≠ 0)
    (stop : stopAll 0 (xs ++ [.str text]) = e) :
    Holds ⟨(saveAll e (xs ++ [.str text]) ⟨0, bin⟩).mem, e⟩ 0 xs ∧
      getStr ⟨(saveAll e (xs ++ [.str text]) ⟨0, bin⟩).mem, e⟩ (stopAll 0 xs) = none := by
  rw [stopAll_append] at stop
  change (Saved.str text).stop (stopAll 0 xs) = e at stop
  have before := (Saved.str text).lt_stop (stopAll 0 xs)
  rw [stop] at before
  have kept : (saveAll e (xs ++ [.str text]) ⟨0, bin⟩).mem = (saveAll e xs ⟨0, bin⟩).mem := by
    have outside : ¬ (Saved.str text).inside e (saveAll e xs ⟨0, bin⟩).str = true := by
      rw [saveAll_str]
      simp [Saved.inside, stop]
    rw [saveAll, List.foldl_append]
    exact if_neg outside
  rw [kept]
  constructor
  · exact saveAll_holds (allInside before.le fun _ _ _ => before.ne) before.le
  · refine getStr_none (fun i behind _ => ?_) before.le
    have same := saveAll_mem e xs ⟨0, bin⟩ (i := i) (.inr behind)
    change (saveAll e xs ⟨0, bin⟩).mem i ≠ 0
    rw [same]
    exact full i

theorem words_le {p size : Nat} : ptrAlign p 4 / 4 ≤ size ↔ p ≤ 4 * size := by
  rw [ptrAlign]
  omega

theorem le_words (p : Nat) : p ≤ 4 * (ptrAlign p 4 / 4) := by
  rw [ptrAlign]
  omega

section

variable {d : Nat}

theorem vbinPrintf_eq (bin : Nat → Byte) (size : Nat) (fmt : CString) (args : List (VArg d)) :
    vbinPrintf bin size fmt args = (storedArgs fmt.chars .zero args).map fun xs =>
      (ptrAlign (stopAll 0 xs) 4 / 4, (saveAll (4 * size) xs ⟨0, bin⟩).mem) := by
  rw [vbinPrintf, binLoop_stored, Option.map_map]
  refine congrArg (Option.map · _) (funext fun xs => ?_)
  exact congrArg (fun p => (ptrAlign p 4 / 4, (saveAll (4 * size) xs ⟨0, bin⟩).mem)) (saveAll_str (4 * size) xs ⟨0, bin⟩)

/-- What was stored in an array that it fits into is printed like the arguments themselves, and nothing behind it is read. -/
def RoundTrips (size : Nat) (fmt : CString) (args : List (VArg d)) : Prop :=
  ∀ bin words mem, vbinPrintf bin size fmt args = some (words, mem) → words ≤ size →
    ∀ (objects : BitVec 64 → Target (Nested d)) (buf : Nat → Char) (len : Bound),
      bstrPrintf objects buf len fmt ⟨mem, 4 * words⟩ = vsnprintf buf len fmt args

/-- The last value is a string that ends with the array. -/
def ExactFit (size : Nat) (fmt : CString) (args : List (VArg d)) : Prop :=
  ∃ xs text, storedArgs fmt.chars .zero args = some (xs ++ [.str text]) ∧ stopAll 0 (xs ++ [.str text]) = 4 * size

/-- The decoder prints the same where all values are found. -/
theorem bstrPrintf_holds {fmt : CString} {args : List (VArg d)} {xs : List Saved} {bin : BinBuf} (plain : Plain fmt.chars .zero)
    (addresses : Addresses args) (stored : storedArgs fmt.chars .zero args = some xs) (holds : Holds bin 0 xs)
    (objects : BitVec 64 → Target (Nested d)) (buf : Nat → Char) (len : Bound) :
    bstrPrintf objects buf len fmt bin = vsnprintf buf len fmt args := by
  obtain ⟨out, printed, decoded⟩ := loops_agree plain ⟨rfl, rfl⟩ addresses stored (callees d) len ⟨0, buf⟩
  unfold bstrPrintf vsnprintf printf
  rw [printed, decoded bin objects 0 holds]

/-- An exact fit is not read back into a buffer without an end. -/
theorem exactFit_reads_beyond {size : Nat} {fmt : CString} {args : List (VArg d)} (plain : Plain fmt.chars .zero) (addresses : Addresses args)
    (exact : ExactFit size fmt args) (roundTrips : RoundTrips size fmt args) : False := by
  obtain ⟨xs, text, stored, stop⟩ := exact
  have eq := vbinPrintf_eq (fun _ => 1) size fmt args
  rw [stored, Option.map_some, stop] at eq
  have words : ptrAlign (4 * size) 4 / 4 = size := by
    rw [ptrAlign]
    omega
  rw [words] at eq
  have same := roundTrips _ _ _ eq le_rfl (fun _ => .bytes []) (fun _ => nul) none
  have alike : Alike .zero .zero := ⟨rfl, rfl⟩
  obtain ⟨out, printed, -⟩ := loops_agree plain alike addresses stored (callees d) none ⟨0, fun _ => nul⟩
  obtain ⟨holds, missing⟩ := exactFit_missing (fun _ => 1) (fun _ => by decide) stop
  have undone := loop_missing plain alike addresses stored (callees d) none ⟨0, fun _ => nul⟩ (fun _ => .bytes []) holds missing
  unfold bstrPrintf vsnprintf printf at same
  rw [printed, undone] at same
  simp at same

end

def stringFormat : CString := ⟨['%', 's'], by decide⟩

/-- The string `abc`. -/
def abc : List (VArg 0) := [.ptr ⟨4096, .bytes [0x61, 0x62, 0x63, 0]⟩]

theorem stringFormat_plain : Plain stringFormat.chars .zero := .next (by decide +kernel) (.done (by decide +kernel))

theorem abc_addresses : Addresses abc := by
  intro p member
  cases List.mem_singleton.mp member
  decide

theorem abc_stored : storedArgs stringFormat.chars .zero abc = some [.str ⟨[0x61, 0x62, 0x63], by decide⟩] := by
  have more : charAt stringFormat.chars 0 ≠ nul := by decide
  rw [storedArgs_step more]
  have step : binStep collect ⟨stringFormat.chars, .zero, abc, []⟩ =
      some ⟨[], (formatDecode stringFormat.chars .zero).2, [], [.str ⟨[0x61, 0x62, 0x63], by decide⟩]⟩ := rfl
  rw [step, Option.bind_some, storedArgs, binLoop_end (by decide)]
  rfl

end Miracle.Vsprintf
