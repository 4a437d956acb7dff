import Miracle.Params.NextArg

/-! # The command line

`parse_args` hands the arguments of a line to a handler.  The line is what `words` splits it into:
each token comes with the text that follows it, since the one behind `--` is returned. -/

namespace Miracle.Params

open Strtox Vsprintf Buffer

/-! ## The code -/

/-- `unknown`, which is called with a name and a value and returns an `int`. -/
abbrev Handler (σ : Type) := σ → List Char → Option (List Char) → σ × Int

def eNoent : Int := -2

/-- `parse_one`; the search in the table of parameters is compiled out. -/
def parseOne {σ : Type} (handleUnknown : Option (Handler σ)) (s : σ) (param : List Char) (val : Option (List Char)) : σ × Int :=
  match handleUnknown with
  | some handle => handle s param val
  | none => (s, eNoent)

/-- A pointer that `parse_args` returns. -/
inductive Returned where
  | null
  | err (ret : Int)
  | args (p : Nat)

def dashes : List Char := ['-', '-']

def parseLoop {σ : Type} (unknown : Option (Handler σ)) (fuel : Nat) :
    Nat → List Char → Nat → Option Int → σ → Option (List Char × σ × Returned)
  | 0, _, _, _, _ => none
  | rounds + 1, m, args, err, s => do
    let c ← m[args]?
    if c = nul then some (m, s, err.elim .null .err)
    else
      let a ← nextArg fuel m args
      let param ← a.name
      let val ← a.value
      -- Stop at --
      if val = none ∧ param = dashes then some (a.mem, s, err.elim (.args a.next) .err)
      else
        let (s, ret) := parseOne unknown s param val
        parseLoop unknown fuel rounds a.mem a.next (if ret = 0 then err else some ret) s

def parseArgs {σ : Type} (rounds : Nat) (unknown : Option (Handler σ)) (m : List Char) (s : σ) :
    Option (List Char × σ × Returned) := do
  -- Chew leading spaces
  let args ← skipSpacesAt rounds m 0
  parseLoop unknown rounds rounds m args none s

/-! ## What is delivered -/

/-- The tokens of a line, split at white space outside double quotes, each with the text behind it. -/
def words : Bool → List Char → List Char → List (List Char × List Char)
  | _, word, [] => if word = [] then [] else [(word, [])]
  | q, word, c :: cs =>
    if isspace c ∧ ¬q then
      if word = [] then words false [] cs else (word, cs.dropWhile isspace) :: words false [] cs
    else words (if c = '"' then !q else q) (word ++ [c]) cs

inductive Outcome where
  | null
  | err (ret : Int)
  | rest (text : List Char)

/-- The handler is given one argument after the other, up to a bare `--`; the last error is kept, and
    takes the place of the text behind `--`. -/
def deliver {σ : Type} (unknown : Option (Handler σ)) : List (List Char × List Char) → Option Int → σ → σ × Outcome
  | [], err, s => (s, err.elim .null .err)
  | (word, rest) :: ws, err, s =>
    if argument word = ⟨dashes, none⟩ then (s, err.elim (.rest rest) .err)
    else
      let (s, ret) := parseOne unknown s (argument word).name (argument word).value
      deliver unknown ws (if ret = 0 then err else some ret) s

/-- The pointer that stands for an outcome. -/
def Outcome.At (m : List Char) : Outcome → Returned → Prop
  | .null, .null => True
  | .err ret, .err ret' => ret' = ret
  | .rest text, .args p => m.drop p = text ++ [nul]
  | _, _ => False

/-- The line is parsed in place, and the handler is given its arguments. -/
def Parses (line : CString) : Prop :=
  ∀ (σ : Type) (unknown : Option (Handler σ)) (s : σ) (rounds : Nat), line.chars.length < rounds →
    ∃ m returned, parseArgs rounds unknown (line.chars ++ [nul]) s
        = some (m, (deliver unknown (words false [] line.chars) none s).1, returned) ∧
      m.length = line.chars.length + 1 ∧ (deliver unknown (words false [] line.chars) none s).2.At m returned

/-- The tokens in front of a bare `--`. -/
def beforeDashes (ws : List (List Char × List Char)) : List (List Char × List Char) :=
  ws.takeWhile fun w => argument w.1 ≠ ⟨dashes, none⟩

/-! ## Tokens -/

theorem words_skip (s : List Char) : words false [] (s.dropWhile isspace) = words false [] s := by
  induction s with
  | nil => rfl
  | cons c cs ih =>
      rw [List.dropWhile_cons]
      split
      next space =>
          rw [ih, words, if_pos ⟨space, Bool.false_ne_true⟩, if_pos rfl]
      next => rfl

theorem words_first (s : List Char) (q : Bool) (word : List Char) (nonempty : word ++ token q s ≠ []) :
    words q word s = (word ++ token q s, afterToken q s) :: words false [] (afterToken q s) := by
  unfold token afterToken at *
  induction s generalizing q word with
  | nil =>
      rw [tokenLength, List.take_nil, List.append_nil] at nonempty ⊢
      rw [words, if_neg nonempty]
      rfl
  | cons c cs ih =>
      rw [tokenLength] at nonempty ⊢
      rw [words]
      by_cases space : isspace c ∧ ¬q
      · simp only [if_pos space, List.take_zero, List.append_nil] at nonempty ⊢
        rw [if_neg nonempty, List.drop_zero, List.dropWhile_cons, if_pos space.1, words_skip]
      · simp only [if_neg space, List.take_succ_cons, List.drop_succ_cons]
        have next := ih (if c = '"' then !q else q) (word ++ [c]) (by simp)
        rw [next, List.append_assoc, List.singleton_append]

/-- A line that starts with its first token. -/
structure Starts (s : List Char) : Prop where
  nonempty : s ≠ []
  start : ∀ c ∈ s.head?, isspace c = false

theorem Starts.tokenLength_pos {s : List Char} (h : Starts s) : tokenLength false s ≠ 0 := by
  obtain ⟨c, cs, rfl⟩ := List.exists_cons_of_ne_nil h.nonempty
  rw [tokenLength, h.start c rfl]
  simp

theorem Starts.words {s : List Char} (h : Starts s) :
    words false [] s = (token false s, afterToken false s) :: words false [] (afterToken false s) := by
  apply words_first s false []
  rw [List.nil_append, token, ne_eq, List.take_eq_nil_iff, not_or]
  exact ⟨h.tokenLength_pos, h.nonempty⟩

theorem unquote_length {quoted : Bool} {body : List Char} (flag : (unquote quoted body).value = none) :
    body.length ≤ (unquote quoted body).name.length + 1 := by
  rw [unquote] at flag ⊢
  split at flag
  next =>
      simp only
      split
      · rw [stripClosing]
        split
        · rw [List.length_dropLast]
          omega
        · exact Nat.le_succ _
      · exact Nat.le_succ _
  next => cases flag

/-- A token without a value is its name and at most two quotes. -/
theorem argument_length {token : List Char} (flag : (argument token).value = none) :
    token.length ≤ (argument token).name.length + 2 := by
  cases token with
  | nil => exact Nat.zero_le _
  | cons c cs =>
      rw [argument] at flag ⊢
      split at flag
      next quote =>
          rw [if_pos quote]
          exact Nat.succ_le_succ (unquote_length flag)
      next quote =>
          rw [if_neg quote]
          exact Nat.le_succ_of_le (unquote_length flag)

/-- No token in front of a bare `--` is a lone quote, and the lengths fit an `unsigned int`. -/
def Sound (ws : List (List Char × List Char)) : Prop := ∀ w ∈ beforeDashes ws, w.1 ≠ ['"'] ∧ w.1.length < 2 ^ 32

/-- The first token of a line is within the bounds of `next_arg`, a bare `--` in any case. -/
theorem Starts.sound {s : List Char} (h : Starts s) (sound : Sound (Params.words false [] s)) :
    tokenLength false s < 2 ^ 32 ∧ token false s ≠ ['"'] := by
  have size : (token false s).length = tokenLength false s := by
    rw [token, List.length_take, Nat.min_eq_left (tokenLength_le _ _)]
  by_cases last : argument (token false s) = ⟨dashes, none⟩
  · constructor
    · have length := argument_length (congrArg Argument.value last)
      rw [last, size] at length
      exact Nat.lt_of_le_of_lt length (by decide)
    · intro lone
      rw [lone] at last
      revert last
      decide
  · have bounds := sound (token false s, afterToken false s) (by
      rw [h.words, beforeDashes, List.takeWhile_cons]
      simp [last])
    rw [size] at bounds
    exact ⟨bounds.2, bounds.1⟩

theorem Sound.tail {w : List Char × List Char} {ws : List (List Char × List Char)} (sound : Sound (w :: ws))
    (goesOn : argument w.1 ≠ ⟨dashes, none⟩) : Sound ws := by
  intro v h
  apply sound
  rw [beforeDashes, List.takeWhile_cons]
  simp only [goesOn, ne_eq, not_false_eq_true, decide_true, if_true]
  exact List.mem_cons_of_mem _ h

/-! ## The loop -/

variable {σ : Type}

theorem head_dropWhile (s : List Char) : ∀ c ∈ (s.dropWhile isspace).head?, isspace c = false := by
  intro c h
  have head := List.head?_dropWhile_not isspace s
  rw [h] at head
  exact head

theorem parseLoop_spec (unknown : Option (Handler σ)) (fuel rounds : Nat) {m s : List Char} {args : Nat} (err : Option Int)
    (state : σ) (line : m.drop args = s ++ [nul]) (noNul : nul ∉ s) (start : ∀ c ∈ s.head?, isspace c = false)
    (enough : s.length < rounds) (fueled : s.length < fuel) (sound : Sound (words false [] s)) :
    ∃ m' returned, parseLoop unknown fuel rounds m args err state
        = some (m', (deliver unknown (words false [] s) err state).1, returned) ∧
      m'.length = m.length ∧ (deliver unknown (words false [] s) err state).2.At m' returned := by
  induction rounds generalizing m s args err state with
  | zero => cases enough
  | succ rounds ih =>
      have inside : args ≤ m.length := by
        have size := congrArg List.length line
        rw [List.length_drop, List.length_append, List.length_singleton] at size
        omega
      have place : (m.take args).length = args := List.length_take_of_le inside
      have split : m = m.take args ++ (s ++ [nul]) := by rw [← line, List.take_append_drop]
      have read {c : Char} {l : List Char} (first : s ++ [nul] = c :: l) : m[args]? = some c := by
        rw [split, first]
        exact read_append place.symm
      by_cases none_ : s = []
      · subst none_
        refine ⟨m, err.elim .null .err, ?_, rfl, ?_⟩
        · rw [parseLoop, read rfl]
          rfl
        · cases err with
          | none => trivial
          | some ret => rfl
      · have starts : Starts s := ⟨none_, start⟩
        obtain ⟨c, cs, same⟩ := List.exists_cons_of_ne_nil none_
        have other : c ≠ nul := fun h => noNul (by rw [same, h]; exact List.mem_cons_self)
        have whole := starts.sound sound
        obtain ⟨a, run, gives⟩ := nextArg_spec fuel (m.take args) noNul fueled whole.1 whole.2
        rw [← split, place] at run
        rw [← split] at gives
        have suffix : afterToken false s <:+ s := (List.dropWhile_suffix isspace).trans (List.drop_suffix _ _)
        have smaller : (afterToken false s).length < s.length := by
          have fewer := (List.dropWhile_suffix isspace (l := s.drop (tokenLength false s))).length_le
          have positive := starts.tokenLength_pos
          have some_ := List.length_pos_iff.mpr none_
          rw [List.length_drop] at fewer
          rw [afterToken]
          omega
        rw [parseLoop, read (by rw [same]; rfl)]
        simp only [Option.bind_eq_bind, Option.bind_some, if_neg other, run, gives.name, gives.value]
        rw [starts.words] at sound ⊢
        rw [deliver]
        by_cases last : argument (token false s) = ⟨dashes, none⟩
        · rw [if_pos last, if_pos (by rw [last]; exact ⟨rfl, rfl⟩)]
          refine ⟨a.mem, _, rfl, gives.size, ?_⟩
          cases err with
          | none => exact gives.line
          | some ret => rfl
        · have goesOn : ¬((argument (token false s)).value = none ∧ (argument (token false s)).name = dashes) := by
            intro h
            apply last
            change Argument.mk (argument (token false s)).name (argument (token false s)).value = _
            rw [h.1, h.2]
          rw [if_neg last, if_neg goesOn]
          obtain ⟨m', returned, tail, size', at_⟩ := ih _ _ gives.line (fun h => noNul (suffix.subset h))
            (head_dropWhile _) (by omega) (by omega) (sound.tail last)
          exact ⟨m', returned, tail, size'.trans gives.size, at_⟩

/-- A line is parsed inside its string, whatever the quotes in it, unless a token is a lone quote or
    its length does not fit an `unsigned int`. -/
theorem parse_args (line : CString)
    (sound : ∀ w ∈ beforeDashes (words false [] line.chars), w.1 ≠ ['"'] ∧ w.1.length < 2 ^ 32) :
    Parses line := by
  intro σ unknown s rounds enough
  have skip := skipSpacesAt_spec rounds [] [] line.noNul enough
  rw [List.nil_append, List.length_nil, Nat.zero_add] at skip
  have suffix := List.dropWhile_suffix isspace (l := line.chars)
  have fewer := suffix.length_le
  have behind : (line.chars ++ [nul]).drop (line.chars.takeWhile isspace).length = line.chars.dropWhile isspace ++ [nul] := by
    have parts := List.takeWhile_append_dropWhile (p := isspace) (l := line.chars)
    calc _ = (line.chars.takeWhile isspace ++ (line.chars.dropWhile isspace ++ [nul])).drop (line.chars.takeWhile isspace).length := by
            rw [← List.append_assoc, parts]
      _ = _ := List.drop_left
  rw [← words_skip] at sound ⊢
  obtain ⟨m, returned, run, size, at_⟩ := parseLoop_spec unknown rounds rounds none s behind
    (fun h => line.noNul (suffix.subset h)) (head_dropWhile _) (by omega) (by omega) sound
  refine ⟨m, returned, ?_, ?_, at_⟩
  · rw [parseArgs, skip]
    exact run
  · rw [size, List.length_append, List.length_singleton]

/-- `console=ttyS0 quiet "a b" -- c d` -/
def bootLine : CString := ⟨"console=ttyS0 quiet \"a b\" -- c d".toList, by decide⟩

theorem bootLine_parsed : Parses bootLine := parse_args bootLine (by decide)

end Miracle.Params
