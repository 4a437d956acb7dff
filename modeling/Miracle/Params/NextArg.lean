import Miracle.Lib.Buffer
import Miracle.Strtox.Basic
import Miracle.Vsprintf.Decimal

/-! # An argument of the command line

`next_arg` of `lib/params.c` cuts a name and a value out of the line in place: it writes the
terminators over the `=`, over a closing quote and over the white space behind the argument. The
line is memory here, and an access outside it fails. -/

namespace Miracle.Params

open Strtox Vsprintf Buffer

/-! ## The code -/

/-- The string that a pointer behind which `l` lies is the address of. -/
def cstring : List Char → Option (List Char)
  | [] => none
  | c :: cs => if c = nul then some [] else (cstring cs).map (c :: ·)

/-- The loop of `skip_spaces`. -/
def skipSpacesAt : Nat → List Char → Nat → Option Nat
  | 0, _, _ => none
  | rounds + 1, m, str => do
    let c ← m[str]?
    if isspace c then skipSpacesAt rounds m (str + 1) else some str

/-- The loop of `next_arg`: the index that it stops at and `equals`. -/
def findEnd : Nat → List Char → Nat → Nat → Nat → Bool → Option (Nat × Nat)
  | 0, _, _, _, _, _ => none
  | rounds + 1, m, args, i, equals, inQuote => do
    let c ← m[args + i]?
    if c = nul then some (i, equals)
    else if isspace c ∧ ¬inQuote then some (i, equals)
    else
      let equals := if equals = 0 ∧ c = '=' then i else equals
      let inQuote := if c = '"' then !inQuote else inQuote
      findEnd rounds m args (u32 (i + 1)) equals inQuote

/-- `if (*p == '"') *p = '\0'`. -/
def dropQuote (m : List Char) (p : Nat) : Option (List Char) := do
  let c ← m[p]?
  if c = '"' then write m p nul else some m

/-- The value behind the `=`. -/
def splitValue (m : List Char) (args i equals : Nat) : Option (List Char × Nat) := do
  let m ← write m (args + equals) nul
  let val := args + equals + 1
  let c ← m[val]?
  -- Don't include quotes in value.
  if c = '"' then (dropQuote m (args + u32Sub i 1)).map (·, val + 1) else some (m, val)

structure Arg where
  mem : List Char
  param : Nat
  val : Option Nat
  next : Nat

/-- The strings that the caller is given. -/
def Arg.name (a : Arg) : Option (List Char) := cstring (a.mem.drop a.param)

def Arg.value (a : Arg) : Option (Option (List Char)) :=
  match a.val with
  | none => some none
  | some val => (cstring (a.mem.drop val)).map some

/-- The end of `next_arg`: the terminator, and the spaces behind it. -/
def endArg (rounds : Nat) (m : List Char) (args i : Nat) (val : Option Nat) : Option Arg := do
  let c ← m[args + i]?
  let (m, next) ←
    if c = nul then some (m, args + i)
    else (write m (args + i) nul).map (·, args + i + 1)
  -- Chew up trailing spaces.
  let next ← skipSpacesAt rounds m next
  some ⟨m, args, val, next⟩

/-- `next_arg` behind the opening quote. -/
def argFrom (rounds : Nat) (m : List Char) (args : Nat) (quoted : Bool) : Option Arg := do
  let (i, equals) ← findEnd rounds m args 0 0 quoted
  let (m, val) ←
    if equals = 0 then some (m, none)
    else (splitValue m args i equals).map fun v => (v.1, some v.2)
  let m ← if quoted then dropQuote m (args + u32Sub i 1) else some m
  endArg rounds m args i val

def nextArg (rounds : Nat) (m : List Char) (args : Nat) : Option Arg := do
  let c ← m[args]?
  if c = '"' then argFrom rounds m (args + 1) true else argFrom rounds m args false

/-! ## What an argument is -/

/-- The characters up to the first white space outside double quotes. -/
def tokenLength : Bool → List Char → Nat
  | _, [] => 0
  | q, c :: cs =>
    if isspace c ∧ ¬q then 0 else tokenLength (if c = '"' then !q else q) cs + 1

def token (q : Bool) (s : List Char) : List Char := s.take (tokenLength q s)

/-- What is behind the first token and the white space that follows it. -/
def afterToken (q : Bool) (s : List Char) : List Char := (s.drop (tokenLength q s)).dropWhile isspace

/-- A text without the quote at its end. -/
def stripClosing (w : List Char) : List Char :=
  if w.getLast? = some '"' then w.dropLast else w

/-- The texts before and behind the first `=` that is not the first character. -/
def splitEquals : List Char → Option (List Char × List Char)
  | [] => none
  | c :: cs =>
    match cs.dropWhile (· ≠ '=') with
    | [] => none
    | _ :: v => some (c :: cs.takeWhile (· ≠ '='), v)

structure Argument where
  name : List Char
  value : Option (List Char)
deriving DecidableEq

/-- A value without its quotes; a quote at the end of the token belongs to the value. -/
def unquoteValue (quoted : Bool) : List Char → List Char
  | [] => []
  | c :: v =>
    if c = '"' then stripClosing v
    else if quoted then stripClosing (c :: v) else c :: v

/-- The name and the value in a token behind its opening quote. -/
def unquote (quoted : Bool) (body : List Char) : Argument :=
  match splitEquals body with
  | none => ⟨if quoted then stripClosing body else body, none⟩
  | some (name, v) => ⟨name, some (unquoteValue quoted v)⟩

/-- The name and the value in a token. An opening quote of the token or of the value is removed, and
    with it a quote that the token ends with. -/
def argument : List Char → Argument
  | [] => unquote false []
  | c :: cs => if c = '"' then unquote true cs else unquote false (c :: cs)

example : argument "\"a b\"".toList = ⟨"a b".toList, none⟩ := by decide

example : argument "a=\"b c\"".toList = ⟨"a".toList, some "b c".toList⟩ := by decide

/-! ## Memory -/

theorem cstring_text {w : List Char} (y : List Char) (noNul : nul ∉ w) : cstring (w ++ nul :: y) = some w := by
  induction w with
  | nil => rfl
  | cons c cs ih =>
      have other : c ≠ nul := fun h => noNul (h ▸ List.mem_cons_self)
      have rest := ih fun h => noNul (List.mem_cons_of_mem _ h)
      rw [List.cons_append, cstring, if_neg other, rest]
      rfl

theorem skipSpacesAt_spec {s : List Char} (rounds : Nat) (x y : List Char) (noNul : nul ∉ s)
    (enough : s.length < rounds) :
    skipSpacesAt rounds (x ++ (s ++ nul :: y)) x.length = some (x.length + (s.takeWhile isspace).length) := by
  induction s generalizing rounds x with
  | nil =>
      cases rounds with
      | zero => cases enough
      | succ rounds =>
          rw [skipSpacesAt, List.nil_append, read_append rfl]
          rfl
  | cons c cs ih =>
      cases rounds with
      | zero => cases enough
      | succ rounds =>
          rw [skipSpacesAt, List.cons_append, read_append rfl, List.takeWhile_cons]
          cases space : isspace c with
          | false => simp [space]
          | true =>
              have rest := ih rounds (x ++ [c]) (fun h => noNul (List.mem_cons_of_mem _ h)) (Nat.lt_of_succ_lt_succ enough)
              simp only [List.append_assoc, List.singleton_append, List.length_append, List.length_singleton] at rest
              simp only [Option.bind_eq_bind, Option.bind_some, space, if_true, List.length_cons]
              rw [rest, Nat.add_assoc, Nat.add_comm 1]

/-! ## The end of an argument -/

/-- The index, from `i` on, of the first `=` that is not at the index zero, and zero if there is none. -/
def firstEquals : Nat → List Char → Nat
  | _, [] => 0
  | i, c :: cs => if c = '=' ∧ i ≠ 0 then i else firstEquals (i + 1) cs

theorem tokenLength_le (q : Bool) (s : List Char) : tokenLength q s ≤ s.length := by
  induction s generalizing q with
  | nil => exact Nat.le_refl _
  | cons c cs ih =>
      rw [tokenLength]
      split
      · exact Nat.zero_le _
      · exact Nat.succ_le_succ (ih _)

/-- White space follows a token, or the end of the line. -/
theorem behind_token (q : Bool) (s : List Char) : ∀ c y, s.drop (tokenLength q s) = c :: y → isspace c := by
  induction s generalizing q with
  | nil => intro c y h; cases h
  | cons b cs ih =>
      intro c y h
      rw [tokenLength] at h
      split at h
      next space =>
          cases h
          exact space.1
      next => exact ih _ c y h

theorem findEnd_spec {r : List Char} (rounds : Nat) (x y : List Char) (args i equals : Nat) (q : Bool)
    (noNul : nul ∉ r) (enough : r.length < rounds) (at_ : args + i = x.length) (short : i + tokenLength q r < 2 ^ 32) :
    findEnd rounds (x ++ (r ++ nul :: y)) args i equals q =
      some (i + tokenLength q r, if equals = 0 then firstEquals i (r.take (tokenLength q r)) else equals) := by
  have kept (equals : Nat) : (if equals = 0 then 0 else equals) = equals := by
    split <;> omega
  induction r generalizing rounds x i equals q with
  | nil =>
      cases rounds with
      | zero => cases enough
      | succ rounds =>
          rw [findEnd, List.nil_append, read_append at_]
          simp [tokenLength, firstEquals, kept]
  | cons c cs ih =>
      cases rounds with
      | zero => cases enough
      | succ rounds =>
          have other : c ≠ nul := fun h => noNul (h ▸ List.mem_cons_self)
          rw [findEnd, List.cons_append, read_append at_]
          simp only [Option.bind_eq_bind, Option.bind_some, if_neg other]
          rw [tokenLength] at short ⊢
          split
          next space =>
              simp [firstEquals, kept]
          next inside =>
              rw [if_neg inside] at short
              have next := ih rounds (x ++ [c]) (i + 1) (if equals = 0 ∧ c = '=' then i else equals)
                (if c = '"' then !q else q) (fun h => noNul (List.mem_cons_of_mem _ h)) (Nat.lt_of_succ_lt_succ enough)
                (by rw [List.length_append, List.length_singleton, ← at_, Nat.add_assoc]) (by omega)
              rw [List.append_assoc, List.singleton_append] at next
              rw [u32_of_lt (by omega), next, List.take_succ_cons, firstEquals]
              congr 1
              refine Prod.ext (by simp only; omega) ?_
              -- the first `=` is kept, and at the index zero it is not seen
              by_cases none_ : equals = 0
              · by_cases sign : c = '='
                · simp [none_, sign]
                · simp [none_, sign]
              · simp [none_]

theorem firstEquals_behind {i : Nat} (cs : List Char) (behind : i ≠ 0) :
    firstEquals i cs = if cs.dropWhile (· ≠ '=') = [] then 0 else i + (cs.takeWhile (· ≠ '=')).length := by
  induction cs generalizing i with
  | nil => rfl
  | cons c cs ih =>
      by_cases sign : c = '='
      · simp [sign, firstEquals, behind]
      · rw [firstEquals, if_neg fun h => sign h.1, ih (Nat.succ_ne_zero i), List.dropWhile_cons, List.takeWhile_cons]
        simp [sign, Nat.add_assoc, Nat.add_comm 1]

theorem firstEquals_start (c : Char) (cs : List Char) : firstEquals 0 (c :: cs) = firstEquals 1 cs := by simp [firstEquals]

theorem splitEquals_none {body : List Char} (h : splitEquals body = none) : firstEquals 0 body = 0 := by
  cases body with
  | nil => rfl
  | cons c cs =>
      rw [splitEquals] at h
      split at h
      next absent => rw [firstEquals_start, firstEquals_behind cs Nat.one_ne_zero, if_pos absent]
      next => cases h

theorem splitEquals_some {body name v : List Char} (h : splitEquals body = some (name, v)) :
    body = name ++ '=' :: v ∧ firstEquals 0 body = name.length ∧ name ≠ [] := by
  cases body with
  | nil => cases h
  | cons c cs =>
      rw [splitEquals] at h
      split at h
      next => cases h
      next e w drop =>
          cases h
          have parts := List.takeWhile_append_dropWhile (p := (· ≠ '=')) (l := cs)
          have sign := List.head?_dropWhile_not (· ≠ '=') cs
          have some_ : cs.dropWhile (· ≠ '=') ≠ [] := by
            rw [drop]
            exact List.cons_ne_nil e v
          rw [drop] at parts sign
          obtain rfl : e = '=' := by simpa using sign
          refine ⟨by rw [List.cons_append, parts], ?_, List.cons_ne_nil _ _⟩
          rw [firstEquals_start, firstEquals_behind cs Nat.one_ne_zero, if_neg some_, List.length_cons, Nat.add_comm]

/-! ## The quotes -/

theorem u32Sub_one {i : Nat} (positive : 0 < i) (short : i < 2 ^ 32) : u32Sub i 1 = i - 1 := by
  rw [u32Sub, u32]
  omega

/-- A text with a terminator in the place of a quote at its end. -/
def blanked (w : List Char) : List Char := if w.getLast? = some '"' then w.dropLast ++ [nul] else w

theorem blanked_concat (u : List Char) (c : Char) : blanked (u ++ [c]) = u ++ [if c = '"' then nul else c] := by
  by_cases quote : c = '"'
  · simp [blanked, quote]
  · simp [blanked, quote]

theorem blanked_length (w : List Char) : (blanked w).length = w.length := by
  rcases List.eq_nil_or_concat' w with rfl | ⟨u, c, rfl⟩
  · rfl
  · rw [blanked_concat]
    simp

theorem blanked_blanked (w : List Char) : blanked (blanked w) = blanked w := by
  rcases List.eq_nil_or_concat' w with rfl | ⟨u, c, rfl⟩
  · rfl
  · rw [blanked_concat, blanked_concat]
    by_cases quote : c = '"'
    · rw [if_pos quote]
      rfl
    · rw [if_neg quote, if_neg quote]

/-- Only the last character changes. -/
theorem blanked_cons (c : Char) (w : List Char) : ∃ e, blanked (c :: w) = e :: blanked w ∧ (c ≠ '"' → e = c) := by
  rcases List.eq_nil_or_concat' w with rfl | ⟨u, b, rfl⟩
  · exact ⟨_, blanked_concat [] c, fun plain => if_neg plain⟩
  · rw [← List.cons_append, blanked_concat, blanked_concat]
    exact ⟨c, rfl, fun _ => rfl⟩

theorem cstring_blanked {w : List Char} (y : List Char) (noNul : nul ∉ w) : cstring (blanked w ++ nul :: y) = some (stripClosing w) := by
  rw [blanked, stripClosing]
  split
  · rw [List.append_assoc]
    exact cstring_text _ fun h => noNul (List.mem_of_mem_dropLast h)
  · exact cstring_text _ noNul

theorem dropQuote_last {w : List Char} {p : Nat} (x y : List Char) (nonempty : w ≠ []) (at_ : p + 1 = x.length + w.length) :
    dropQuote (x ++ (w ++ y)) p = some (x ++ (blanked w ++ y)) := by
  obtain ⟨u, c, rfl⟩ := (List.eq_nil_or_concat' w).resolve_left nonempty
  have place : p = (x ++ u).length := by
    rw [List.length_append, List.length_singleton] at at_
    rw [List.length_append]
    omega
  have split (e : Char) : x ++ (u ++ [e] ++ y) = (x ++ u) ++ e :: y := by simp
  rw [blanked_concat, split, split, dropQuote, read_append place]
  simp only [Option.bind_eq_bind, Option.bind_some]
  by_cases quote : c = '"'
  · rw [if_pos quote, if_pos quote, write_append nul place]
  · rw [if_neg quote, if_neg quote]

/-- The value as it is left in memory, from `k` on: the quotes are cut off it. -/
theorem value_cut {name v : List Char} {args i : Nat} {d : Char} (quoted : Bool) (x post : List Char)
    (at_ : args = x.length) (noNul : nul ∉ v) (short : i < 2 ^ 32) (index : i = name.length + (v.length + 1))
    (delimiter : d ≠ '"') :
    ∃ m V k, splitValue (x ++ (name ++ '=' :: (v ++ d :: post))) args i name.length = some (m, args + name.length + 1 + k) ∧
      (if quoted then dropQuote m (args + u32Sub i 1) else some m) = some (x ++ (name ++ nul :: (V ++ d :: post))) ∧
      V.length = v.length ∧ ∀ z, cstring ((V ++ nul :: z).drop k) = some (unquoteValue quoted v) := by
  have sign : write (x ++ (name ++ '=' :: (v ++ d :: post))) (args + name.length) nul
      = some (x ++ (name ++ nul :: (v ++ d :: post))) := by
    rw [← List.append_assoc, write_append nul (by simp [at_]), List.append_assoc]
  -- The terminator in the place of the `=` is in front of the value.
  have closing (w : List Char) (size : w.length = v.length) : dropQuote (x ++ (name ++ nul :: (w ++ d :: post))) (args + u32Sub i 1)
      = some (x ++ (name ++ nul :: (blanked w ++ d :: post))) := by
    have ends : args + u32Sub i 1 + 1 = (x ++ name).length + (nul :: w).length := by
      rw [u32Sub_one (by omega) short, List.length_append, List.length_cons]
      omega
    have dropped := dropQuote_last (x ++ name) (d :: post) (List.cons_ne_nil nul w) ends
    obtain ⟨e, same, kept⟩ := blanked_cons nul w
    rw [same, kept (by decide)] at dropped
    simpa using dropped
  obtain ⟨c, l, front, opening⟩ : ∃ c l, v ++ d :: post = c :: l ∧ (c = '"' → v = '"' :: v.tail) := by
    cases v with
    | nil => exact ⟨d, post, rfl, fun same => absurd same delimiter⟩
    | cons c w => exact ⟨c, w ++ d :: post, rfl, fun same => by rw [same]; rfl⟩
  have read : (x ++ (name ++ nul :: (v ++ d :: post)))[args + name.length + 1]? = some c := by
    have behind : x ++ (name ++ nul :: (v ++ d :: post)) = (x ++ name ++ [nul]) ++ c :: l := by simp [front]
    rw [behind]
    exact read_append (by simp [at_, Nat.add_assoc])
  have split : splitValue (x ++ (name ++ '=' :: (v ++ d :: post))) args i name.length =
      if c = '"' then some (x ++ (name ++ nul :: (blanked v ++ d :: post)), args + name.length + 1 + 1)
      else some (x ++ (name ++ nul :: (v ++ d :: post)), args + name.length + 1 + 0) := by
    rw [splitValue, sign]
    simp only [Option.bind_eq_bind, Option.bind_some]
    rw [read, closing v rfl]
    rfl
  rw [split]
  by_cases quote : c = '"'
  · obtain ⟨e, same, -⟩ := blanked_cons '"' v.tail
    rw [← opening quote] at same
    refine ⟨_, blanked v, 1, if_pos quote, ?_, blanked_length v, fun z => ?_⟩
    · cases quoted with
      | false => rfl
      | true => rw [if_pos rfl, closing _ (blanked_length v), blanked_blanked]
    · have rest : nul ∉ v.tail := fun h => noNul (List.mem_of_mem_tail h)
      rw [same, opening quote, unquoteValue, if_pos rfl]
      exact cstring_blanked z rest
  · have plain : unquoteValue quoted v = if quoted then stripClosing v else v := by
      cases v with
      | nil => cases quoted <;> rfl
      | cons b w =>
          cases front
          exact if_neg quote
    rw [if_neg quote, plain]
    cases quoted with
    | false => exact ⟨_, v, 0, rfl, rfl, rfl, fun z => cstring_text z noNul⟩
    | true => exact ⟨_, blanked v, 0, rfl, closing v rfl, blanked_length v, fun z => cstring_blanked z noNul⟩

/-! ## One argument -/

/-- The strings of an argument are in memory, and what is left of the line starts at `next`. -/
structure Arg.Gives (a : Arg) (arg : Argument) (rest : List Char) (size : Nat) : Prop where
  name : a.name = some arg.name
  value : a.value = some arg.value
  line : a.mem.drop a.next = rest ++ [nul]
  size : a.mem.length = size

theorem endArg_spec {rest : List Char} {i args : Nat} (rounds : Nat) (x : List Char) (val : Option Nat) (noNul : nul ∉ rest)
    (enough : rest.length < rounds) (place : args + i = x.length) (behind : ∀ c y, rest = c :: y → isspace c) :
    ∃ post y, endArg rounds (x ++ (rest ++ [nul])) args i val = some ⟨x ++ nul :: post, args, val, y.length⟩ ∧
      post.length = rest.length ∧ x ++ nul :: post = y ++ (rest.dropWhile isspace ++ [nul]) := by
  cases rest with
  | nil =>
      have skip := skipSpacesAt_spec rounds x [] noNul enough
      refine ⟨[], x, ?_, rfl, rfl⟩
      rw [endArg, List.nil_append, read_append place]
      simp only [Option.bind_eq_bind, Option.bind_some, if_true, place]
      rw [List.nil_append] at skip
      rw [skip]
      rfl
  | cons c rest =>
      have space : isspace c := behind c rest rfl
      have other : c ≠ nul := fun h => noNul (h ▸ List.mem_cons_self)
      have skip := skipSpacesAt_spec rounds (x ++ [nul]) [] (fun h => noNul (List.mem_cons_of_mem _ h)) (Nat.lt_of_succ_lt enough)
      have front : (x ++ [nul]).length = x.length + 1 := List.length_append
      rw [← List.length_append, front, List.append_assoc, List.singleton_append] at skip
      refine ⟨rest ++ [nul], x ++ [nul] ++ rest.takeWhile isspace, ?_, by simp, ?_⟩
      · rw [endArg, List.cons_append, read_append place]
        simp only [Option.bind_eq_bind, Option.bind_some, if_neg other]
        rw [write_append nul place]
        simp only [Option.map_some, Option.bind_some]
        rw [place, skip]
        rfl
      · rw [List.dropWhile_cons, if_pos space, List.append_assoc, ← List.append_assoc (rest.takeWhile isspace),
          List.takeWhile_append_dropWhile, List.append_assoc]
        rfl

/-- A token as it is left in memory, with what is read out of it once there is a terminator behind it. -/
theorem body_cut {body : List Char} {args i : Nat} {d : Char} (quoted : Bool) (x post : List Char) (at_ : args = x.length)
    (noNul : nul ∉ body) (short : i < 2 ^ 32) (index : i = body.length) (filled : quoted → body ≠ []) (delimiter : d ≠ '"') :
    ∃ m val B, (if firstEquals 0 body = 0 then some (x ++ (body ++ d :: post), none)
        else (splitValue (x ++ (body ++ d :: post)) args i (firstEquals 0 body)).map fun v => (v.1, some v.2)) = some (m, val) ∧
      (if quoted then dropQuote m (args + u32Sub i 1) else some m) = some (x ++ (B ++ d :: post)) ∧
      B.length = body.length ∧ ∀ z next, (Arg.mk (x ++ (B ++ nul :: z)) args val next).name = some (unquote quoted body).name ∧
        (Arg.mk (x ++ (B ++ nul :: z)) args val next).value = some (unquote quoted body).value := by
  simp only [Arg.name, Arg.value, at_, List.drop_left]
  cases sign : splitEquals body with
  | none =>
      rw [if_pos (splitEquals_none sign)]
      simp only [unquote, sign]
      cases quoted with
      | false => exact ⟨_, none, body, rfl, rfl, rfl, fun z _ => ⟨cstring_text z noNul, rfl⟩⟩
      | true =>
          have nonempty := filled rfl
          have last : x.length + u32Sub i 1 + 1 = x.length + body.length := by
            have positive := List.length_pos_iff.mpr nonempty
            rw [u32Sub_one (by omega) short]
            omega
          exact ⟨_, none, blanked body, rfl, dropQuote_last x (d :: post) nonempty last, blanked_length body, fun z _ => ⟨cstring_blanked z noNul, rfl⟩⟩
  | some r =>
      obtain ⟨name, v⟩ := r
      obtain ⟨text, equals, nonempty⟩ := splitEquals_some sign
      have some_ : firstEquals 0 body ≠ 0 := by
        rw [equals]
        exact fun h => nonempty (List.length_eq_zero_iff.mp h)
      subst text
      have nameNul : nul ∉ name := fun h => noNul (List.mem_append_left _ h)
      have vNul : nul ∉ v := fun h => noNul (List.mem_append_right _ (List.mem_cons_of_mem _ h))
      rw [List.length_append, List.length_cons] at index
      obtain ⟨m, V, j, value, quotes, same, string⟩ := value_cut quoted x post rfl vNul short index delimiter
      refine ⟨m, some (x.length + name.length + 1 + j), name ++ nul :: V, ?_, ?_, by simp [same], fun z _ => ⟨?_, ?_⟩⟩
      · rw [if_neg some_, equals, List.append_assoc, List.cons_append, value]
        rfl
      · rw [quotes, List.append_assoc]
        rfl
      · simp only [unquote, sign, List.append_assoc, List.cons_append]
        exact cstring_text _ nameNul
      · have front : x ++ (name ++ nul :: V ++ nul :: z) = (x ++ name ++ [nul]) ++ (V ++ nul :: z) := by simp
        have start : x.length + name.length + 1 + j = (x ++ name ++ [nul]).length + j := by simp [Nat.add_assoc]
        simp only [unquote, sign]
        rw [front, start, List.drop_length_add_append, string]
        rfl

theorem argFrom_run {rounds args k e : Nat} {quoted : Bool} {m m' m'' : List Char} {val : Option Nat}
    (found : findEnd rounds m args 0 0 quoted = some (k, e))
    (value : (if e = 0 then some (m, none) else (splitValue m args k e).map fun v => (v.1, some v.2)) = some (m', val))
    (quotes : (if quoted then dropQuote m' (args + u32Sub k 1) else some m') = some m'') :
    argFrom rounds m args quoted = endArg rounds m'' args k val := by
  have close : (if quoted then (dropQuote m' (args + u32Sub k 1)).bind fun m => endArg rounds m args k val
      else endArg rounds m' args k val) = endArg rounds m'' args k val := by
    cases quoted with
    | false =>
        cases quotes
        rfl
    | true =>
        rw [if_pos rfl] at quotes ⊢
        rw [quotes, Option.bind_some]
  rw [argFrom, found]
  simp only [Option.bind_eq_bind, Option.bind_some]
  split at value
  next none_ =>
      cases value
      rw [if_pos none_, close]
  next some_ => rw [if_neg some_, value, Option.bind_some, close]

theorem argFrom_spec {s : List Char} (rounds : Nat) (x : List Char) (quoted : Bool) (noNul : nul ∉ s)
    (enough : s.length < rounds) (short : tokenLength quoted s < 2 ^ 32) (filled : quoted → tokenLength quoted s ≠ 0) :
    ∃ a, argFrom rounds (x ++ (s ++ [nul])) x.length quoted = some a ∧
      a.Gives (unquote quoted (token quoted s)) (afterToken quoted s) (x ++ (s ++ [nul])).length := by
  have found := findEnd_spec rounds x [] x.length 0 0 quoted noNul enough (Nat.add_zero _) (by omega)
  have behind := behind_token quoted s
  have bodySize : (s.take (tokenLength quoted s)).length = tokenLength quoted s := by
    rw [List.length_take, Nat.min_eq_left (tokenLength_le quoted s)]
  have parts := List.take_append_drop (tokenLength quoted s) s
  rw [Nat.zero_add, if_pos rfl] at found
  unfold token afterToken
  generalize s.take (tokenLength quoted s) = body at *
  generalize s.drop (tokenLength quoted s) = rest at *
  generalize tokenLength quoted s = k at *
  subst parts
  have bodyNul : nul ∉ body := fun h => noNul (List.mem_append_left _ h)
  have restNul : nul ∉ rest := fun h => noNul (List.mem_append_right _ h)
  have restEnough : rest.length < rounds := by
    rw [List.length_append] at enough
    omega
  obtain ⟨d, z, split, delimiter⟩ : ∃ d z, rest ++ [nul] = d :: z ∧ d ≠ '"' := by
    cases rest with
    | nil => exact ⟨nul, [], rfl, by decide⟩
    | cons c y =>
        refine ⟨c, y ++ [nul], rfl, ?_⟩
        rintro rfl
        exact absurd (behind _ y rfl) (by decide)
  have nonempty (on : quoted = true) : body ≠ [] := by
    rintro rfl
    exact filled on bodySize.symm
  obtain ⟨m, val, B, value, quotes, size, strings⟩ := body_cut quoted x z rfl bodyNul short bodySize.symm nonempty delimiter
  have place : x.length + k = (x ++ B).length := by rw [List.length_append, size, bodySize]
  obtain ⟨post, y, run, left, line⟩ := endArg_spec rounds (x ++ B) val restNul restEnough place behind
  rw [List.append_assoc, List.append_assoc] at run
  rw [List.append_assoc] at line
  rw [← split] at value quotes
  rw [List.append_assoc] at found ⊢
  refine ⟨_, (argFrom_run found value quotes).trans run, (strings post _).1, (strings post _).2, ?_, ?_⟩
  · rw [line, List.drop_left]
  · have whole := congrArg List.length split
    simp only [List.length_append, List.length_cons, List.length_nil] at whole ⊢
    omega

/-- `next_arg` reads and writes inside the line, splits off its first argument, and stops in front of
    the next one. -/
theorem nextArg_spec {s : List Char} (rounds : Nat) (x : List Char) (noNul : nul ∉ s) (enough : s.length < rounds)
    (short : tokenLength false s < 2 ^ 32) (alone : token false s ≠ ['"']) :
    ∃ a, nextArg rounds (x ++ (s ++ [nul])) x.length = some a ∧
      a.Gives (argument (token false s)) (afterToken false s) (x ++ (s ++ [nul])).length := by
  cases s with
  | nil =>
      rw [nextArg, List.nil_append, read_append rfl]
      exact argFrom_spec rounds x false noNul enough short fun wrong => by cases wrong
  | cons c cs =>
      rw [nextArg, List.cons_append, read_append rfl]
      simp only [Option.bind_eq_bind, Option.bind_some]
      by_cases quote : c = '"'
      · have rest : nul ∉ cs := fun h => noNul (List.mem_cons_of_mem _ h)
        have length : tokenLength false (c :: cs) = tokenLength true cs + 1 := by
          subst quote
          simp [tokenLength]
          decide
        have first : token false (c :: cs) = c :: token true cs := by rw [token, length, List.take_succ_cons, token]
        have behind : afterToken false (c :: cs) = afterToken true cs := by rw [afterToken, length, List.drop_succ_cons, afterToken]
        have filled : tokenLength true cs ≠ 0 := by
          intro zero
          apply alone
          rw [first, token, zero, List.take_zero, quote]
        have body := argFrom_spec rounds (x ++ [c]) true rest (Nat.lt_of_succ_lt enough) (by omega) fun _ => filled
        rw [if_pos quote, first, behind, argument, if_pos quote]
        simpa using body
      · rw [if_neg quote]
        have body := argFrom_spec rounds x false noNul enough short fun wrong => by cases wrong
        have same : argument (token false (c :: cs)) = unquote false (token false (c :: cs)) := by
          rw [token]
          cases tokenLength false (c :: cs) with
          | zero => rfl
          | succ k => rw [List.take_succ_cons, argument, if_neg quote]
        rw [same]
        exact body

end Miracle.Params
