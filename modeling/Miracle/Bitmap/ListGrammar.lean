import Miracle.Bitmap.ParseList

/-! # The list grammar

A list names single bits, ranges and parts of ranges by decimal numerals of any length.  The
parser reads a numeral modulo `2 ^ 32`, and steps through the groups of a range modulo `2 ^ 32`.
-/

namespace Miracle.Bitmap

open Strtox Numeral

/-- An entry of a list. -/
inductive Item where
  | bit (a : Decimal)
  | range (a b : Decimal)
  | parts (a b used group : Decimal)

def Item.text : Item → List Char
  | .bit a => a.text
  | .range a b => a.text ++ '-' :: b.text
  | .parts a b used group => a.text ++ '-' :: (b.text ++ ':' :: (used.text ++ '/' :: group.text))

/-- What is asked of an entry. -/
def Item.Valid (nmaskbits : Nat) : Item → Prop
  | .bit a => a.value < nmaskbits
  | .range a b => a.value ≤ b.value ∧ b.value < nmaskbits
  | .parts a b used group => (a.value ≤ b.value ∧ b.value < nmaskbits) ∧ 0 < group.value ∧ used.value ≤ group.value

/-- The bits that an entry stands for. -/
def Item.Denotes (i : Nat) : Item → Prop
  | .bit a => i = a.value
  | .range a b => a.value ≤ i ∧ i ≤ b.value
  | .parts a b used group => (a.value ≤ i ∧ i ≤ b.value) ∧ (i - a.value) % group.value < used.value

/-- The numbers are words. -/
def Item.Words : Item → Prop
  | .bit a => a.value < 2 ^ 32
  | .range a b => a.value < 2 ^ 32 ∧ b.value < 2 ^ 32
  | .parts a b used group => (a.value < 2 ^ 32 ∧ b.value < 2 ^ 32) ∧ used.value < 2 ^ 32 ∧ group.value < 2 ^ 32

/-- The step to the second group stays a word, or nothing is taken from a group. -/
def Item.Steps : Item → Prop
  | .bit _ => True
  | .range _ _ => True
  | .parts a _ used group => used.value = 0 ∨ a.value + group.value < 2 ^ 32

def listText (items : List Item) : List Char := [','].intercalate (items.map Item.text)

/-! ## Reading a numeral -/

theorem u32_extend {b : Nat} {ds : List Nat} : u32 (Numeral.extend 10 (u32 b) ds) = u32 (Numeral.extend 10 b ds) := by
  induction ds generalizing b with
  | nil => exact Nat.mod_mod _ _
  | cons d ds ih =>
      have same : u32 (u32 b * 10 + d) = u32 (b * 10 + d) := by simp only [u32]; omega
      rw [Numeral.extend_cons, Numeral.extend_cons, ← ih, same, ih]

/-- How a digit is read. -/
theorem nextItem_digit {ndigits : Nat} {rest : List Char} {st : ListState} (d : Fin 10) (quiet : isspace st.c = false) :
    nextItem ndigits (Nat.digitChar d :: rest) st = nextItem ndigits rest
      { st with
        c := Nat.digitChar d
        b := u32 (st.b * 10 + d)
        a := if st.inRange then st.a else u32 (st.b * 10 + d)
        atStart := false
        totaldigits := u32 (st.totaldigits + 1) } := by
  have char : ∀ d : Fin 10, isspace (Nat.digitChar d) = false ∧ ¬ (Nat.digitChar d = nul ∨ Nat.digitChar d = ',') ∧ Nat.digitChar d ≠ '/' ∧
      Nat.digitChar d ≠ ':' ∧ Nat.digitChar d ≠ '-' ∧ isdigit (Nat.digitChar d) = true ∧ (Nat.digitChar d).toNat - '0'.toNat = d := by
    decide
  obtain ⟨space, ends, slash, colon, dash, digit, code⟩ := char d
  have next : u32 (u32 (st.b * 10) + d) = u32 (st.b * 10 + d) := by simp only [u32]; omega
  rw [nextItem]
  simp only [space, quiet, if_neg ends, if_neg slash, if_neg colon, if_neg dash, digit, code, next]
  simp

/-- A numeral ends in a digit. -/
theorem quiet_numeral (n : Decimal) : isspace (n.text.getLastD nul) = false := by
  have space : ∀ d : Fin 10, isspace (Nat.digitChar d) = false := by decide
  rw [Decimal.text, List.getLastD_eq_getLast?, List.getLast?_map, List.getLast?_eq_some_getLast n.nonempty]
  exact space _

theorem nextItem_numeral {ndigits : Nat} {rest : List Char} {st : ListState} (n : Decimal) (quiet : isspace st.c = false) (zero : st.b = 0) :
    nextItem ndigits (n.text ++ rest) st = nextItem ndigits rest
      { st with
        c := n.text.getLastD nul
        b := u32 n.value
        a := if st.inRange then st.a else u32 n.value
        atStart := false
        totaldigits := u32 (st.totaldigits + n.text.length) } := by
  have run (ds : List (Fin 10)) (nonempty : ds ≠ []) : ∀ st : ListState, isspace st.c = false →
      nextItem ndigits (ds.map (fun d : Fin 10 => Nat.digitChar d) ++ rest) st = nextItem ndigits rest
        { st with
          c := (ds.map fun d : Fin 10 => Nat.digitChar d).getLastD nul
          b := u32 (Numeral.extend 10 st.b (ds.map Fin.val))
          a := if st.inRange then st.a else u32 (Numeral.extend 10 st.b (ds.map Fin.val))
          atStart := false
          totaldigits := u32 (st.totaldigits + ds.length) } := by
    induction ds with
    | nil => exact absurd rfl nonempty
    | cons d ds ih =>
        intro st quiet
        have space : ∀ d : Fin 10, isspace (Nat.digitChar d) = false := by decide
        rw [List.map_cons, List.cons_append, nextItem_digit d quiet]
        cases ds with
        | nil => rfl
        | cons e ds =>
            have count : u32 (u32 (st.totaldigits + 1) + (e :: ds).length) = u32 (st.totaldigits + (d :: e :: ds).length) := by
              simp only [u32, List.length_cons]
              omega
            have value := @u32_extend (st.b * 10 + d) ((e :: ds).map Fin.val)
            rw [ih (List.cons_ne_nil e ds) _ (space d)]
            simp only [value, count]
            split <;> rfl
  have read := run n.digits n.nonempty st quiet
  rw [zero] at read
  rw [Decimal.text, List.length_map]
  exact read

/-! ## Reading an entry -/

theorem nextItem_colon {ndigits : Nat} {rest : List Char} {st : ListState} (quiet : isspace st.c = false) :
    nextItem ndigits (':' :: rest) st = nextItem ndigits rest
      { st with c := ':', oldA := st.a, oldB := st.b, atStart := true, inRange := false, inPartialRange := true, a := 0, b := 0 } := by
  have char : isspace ':' = false ∧ ':' ≠ nul := by decide
  rw [nextItem]
  simp [char.1, char.2, quiet]

theorem nextItem_slash {ndigits : Nat} {rest : List Char} {st : ListState} (quiet : isspace st.c = false) :
    nextItem ndigits ('/' :: rest) st = nextItem ndigits rest
      { st with c := '/', usedSize := st.a, atStart := true, inRange := false, a := 0, b := 0 } := by
  have char : isspace '/' = false ∧ '/' ≠ nul := by decide
  rw [nextItem]
  simp [char.1, char.2, quiet]

theorem nextItem_dash {ndigits : Nat} {rest : List Char} {st : ListState} (quiet : isspace st.c = false)
    (started : st.atStart = false) (single : st.inRange = false) :
    nextItem ndigits ('-' :: rest) st = nextItem ndigits rest { st with c := '-', b := 0, inRange := true, atStart := true } := by
  have char : isspace '-' = false ∧ '-' ≠ nul := by decide
  rw [nextItem]
  simp [char.1, char.2, quiet, started, single]

theorem nextItem_comma {ndigits : Nat} {rest : List Char} {st : ListState} :
    nextItem ndigits (',' :: rest) st = .ok (rest, { st with c := ',' }) := by
  have char : isspace ',' = false := by decide
  rw [nextItem]
  simp [char]

/-- The range and the groups of an entry. -/
def Item.Groups (st : ListState) : Item → Prop
  | .bit a => st.a = u32 a.value ∧ st.b = u32 a.value ∧ st.usedSize = 1 ∧ st.groupSize = 1
  | .range a b =>
      st.a = u32 a.value ∧ st.b = u32 b.value ∧ st.usedSize = u32 (2 ^ 32 + u32 b.value + 1 - u32 a.value) ∧ st.groupSize = st.usedSize
  | .parts a b used group => st.a = u32 a.value ∧ st.b = u32 b.value ∧ st.usedSize = u32 used.value ∧ st.groupSize = u32 group.value

/-- What has been read of an entry. -/
structure Item.Read (item : Item) (before : Nat) (st : ListState) : Prop where
  quiet : isspace st.c = false
  ended : st.finish.atStart = false
  digits : ∃ count, 0 < count ∧ count ≤ item.text.length ∧ st.totaldigits = u32 (before + count)
  groups : item.Groups st.finish

theorem nextItem_item (ndigits : Nat) (rest : List Char) {st : ListState} (item : Item) (quiet : isspace st.c = false) :
    ∃ st', item.Read st.totaldigits st' ∧ nextItem ndigits (item.text ++ rest) st.start = nextItem ndigits rest st' := by
  have quiet : isspace st.start.c = false := quiet
  cases item with
  | bit a =>
      have one : u32 (2 ^ 32 + u32 a.value + 1 - u32 a.value) = 1 := by simp only [u32]; omega
      refine ⟨_, ?_, nextItem_numeral a quiet rfl⟩
      exact ⟨quiet_numeral a, rfl, ⟨a.text.length, a.text_pos, le_rfl, rfl⟩, rfl, rfl, one, one⟩
  | range a b =>
      have text : (Item.range a b).text ++ rest = a.text ++ '-' :: (b.text ++ rest) := by simp [Item.text]
      rw [text, nextItem_numeral a quiet rfl, nextItem_dash (quiet_numeral a) rfl rfl]
      refine ⟨_, ?_, nextItem_numeral b rfl rfl⟩
      refine ⟨quiet_numeral b, rfl, ⟨a.text.length + b.text.length, ?_, ?_, ?_⟩, rfl, rfl, rfl, rfl⟩
      · exact Nat.add_pos_left a.text_pos _
      · simp [Item.text]
      · simp only [ListState.start, u32]
        omega
  | parts a b used group =>
      have text : (Item.parts a b used group).text ++ rest =
          a.text ++ '-' :: (b.text ++ ':' :: (used.text ++ '/' :: (group.text ++ rest))) := by
        simp [Item.text]
      rw [text, nextItem_numeral a quiet rfl, nextItem_dash (quiet_numeral a) rfl rfl, nextItem_numeral b rfl rfl, nextItem_colon (quiet_numeral b),
        nextItem_numeral used rfl rfl, nextItem_slash (quiet_numeral used)]
      refine ⟨_, ?_, nextItem_numeral group rfl rfl⟩
      refine ⟨quiet_numeral group, rfl, ⟨a.text.length + b.text.length + used.text.length + group.text.length, ?_, ?_, ?_⟩,
        rfl, rfl, rfl, rfl⟩
      · exact Nat.add_pos_right _ group.text_pos
      · simp only [Item.text, List.length_append, List.length_cons]
        omega
      · simp only [ListState.start, u32]
        omega

/-! ## The groups of a range -/

/-- The bits that are set, when no step leaves the words. -/
theorem setGroups_spec {b usedSize groupSize fuel a : Nat} {maskp maskp' : List Word} (high : b + 1 < 2 ^ 31) (room : b < 64 * maskp.length)
    (pos : 0 < groupSize) (used : usedSize ≤ groupSize) (step : a ≤ b → a + groupSize < 2 ^ 32)
    (run : setGroups b usedSize groupSize fuel a maskp = some maskp') (i : Nat) :
    bit maskp' i = true ↔ bit maskp i = true ∨ (a ≤ i ∧ i ≤ b) ∧ (i - a) % groupSize < usedSize := by
  induction fuel generalizing a maskp with
  | zero => cases run
  | succ fuel ih =>
      rw [setGroups] at run
      by_cases more : a ≤ b
      · have size : u32 (b - a + 1) = b - a + 1 := u32_of_lt (by omega)
        have next : u32 (a + groupSize) = a + groupSize := u32_of_lt (step more)
        obtain ⟨mid, set, length, bits⟩ := @bitmapSet_spec maskp a (min (u32 (b - a + 1)) usedSize) (by omega) (by omega)
        simp only [if_pos more, set, Option.bind_some, next] at run
        rw [ih (by omega) (by omega) run, bits, Bool.or_eq_true, decide_eq_true_eq, or_assoc, size]
        refine or_congr_right ?_
        by_cases first : i < a + groupSize
        · have whole : (i - a) % groupSize = i - a ∨ i < a := by
            by_cases low : a ≤ i
            · exact .inl (Nat.mod_eq_of_lt (by omega))
            · exact .inr (by omega)
          omega
        · have same : (i - a) % groupSize = (i - (a + groupSize)) % groupSize := by
            have split : i - a = i - (a + groupSize) + groupSize := by omega
            rw [split, Nat.add_mod_right]
          rw [same]
          omega
      · rw [if_neg more] at run
        cases run
        exact ⟨.inl, fun either => either.resolve_right fun both => more (both.1.1.trans both.1.2)⟩

/-! ## Entries -/

/-- What is asked of the range and its groups before bits are set. -/
def ListState.Accepted (nmaskbits : Nat) (st : ListState) : Prop :=
  st.a ≤ st.b ∧ 0 < st.groupSize ∧ st.usedSize ≤ st.groupSize ∧ st.b < nmaskbits

theorem finishItem_cases {nmaskbits : Nat} {st st' : ListState} {maskp maskp' : List Word} {ret : Int} (ended : st.finish.atStart = false)
    (run : finishItem nmaskbits st maskp = some (ret, st', maskp')) :
    st' = st.finish ∧ (ret = 0 ↔ st.finish.Accepted nmaskbits) ∧ (ret = 0 →
      setGroups st.finish.b st.finish.usedSize st.finish.groupSize (st.finish.b + 2) st.finish.a maskp = some maskp') := by
  unfold finishItem at run
  simp only [ended] at run
  rw [if_neg (fun both => Bool.false_ne_true both.1)] at run
  have inval : eInval ≠ 0 := by decide
  have range : eRange ≠ 0 := by decide
  split_ifs at run with invalid high
  · cases run
    refine ⟨rfl, ⟨fun zero => absurd zero inval, fun accepted => ?_⟩, fun zero => absurd zero inval⟩
    obtain ⟨ordered, pos, used, -⟩ := accepted
    omega
  · cases run
    refine ⟨rfl, ⟨fun zero => absurd zero range, fun accepted => ?_⟩, fun zero => absurd zero range⟩
    exact absurd accepted.2.2.2 (Nat.not_lt.mpr high)
  · push Not at invalid high
    obtain ⟨mid, set, done⟩ := Option.map_eq_some_iff.mp run
    cases done
    exact ⟨rfl, ⟨fun _ => ⟨invalid.1, Nat.pos_of_ne_zero invalid.2.1, invalid.2.2, high⟩, fun _ => rfl⟩, fun _ => set⟩

theorem Item.Read.accepted {nmaskbits before : Nat} {st : ListState} {item : Item} (int : nmaskbits < 2 ^ 31) (read : item.Read before st)
    (words : item.Words) : st.finish.Accepted nmaskbits ↔ item.Valid nmaskbits := by
  have same := read.groups
  unfold ListState.Accepted
  cases item with
  | bit a =>
      obtain ⟨first, last, used, group⟩ := same
      rw [first, last, used, group, u32_of_lt words]
      simp [Item.Valid]
  | range a b =>
      obtain ⟨first, last, used, group⟩ := same
      rw [group, first, last, used, u32_of_lt words.1, u32_of_lt words.2]
      simp only [Item.Valid, u32]
      omega
  | parts a b used group =>
      obtain ⟨first, last, used, group⟩ := same
      rw [first, last, used, group, u32_of_lt words.1.1, u32_of_lt words.1.2, u32_of_lt words.2.1, u32_of_lt words.2.2]
      simp only [Item.Valid]
      omega

/-- The groups of an entry are the bits it stands for. -/
theorem Item.Read.denotes {nmaskbits before : Nat} {st : ListState} {item : Item} (int : nmaskbits < 2 ^ 31) (read : item.Read before st)
    (words : item.Words) (valid : item.Valid nmaskbits) (i : Nat) :
    ((st.finish.a ≤ i ∧ i ≤ st.finish.b) ∧ (i - st.finish.a) % st.finish.groupSize < st.finish.usedSize) ↔ item.Denotes i := by
  have same := read.groups
  cases item with
  | bit a =>
      obtain ⟨first, last, used, group⟩ := same
      rw [first, last, used, group, u32_of_lt words, Nat.mod_one]
      simp only [Item.Denotes]
      omega
  | range a b =>
      obtain ⟨first, last, used, group⟩ := same
      obtain ⟨ordered, high⟩ := valid
      have size : u32 (2 ^ 32 + b.value + 1 - a.value) = b.value + 1 - a.value := by
        simp only [u32]
        omega
      rw [group, first, last, used, u32_of_lt words.1, u32_of_lt words.2, size]
      simp only [Item.Denotes]
      refine ⟨And.left, fun both => ⟨both, ?_⟩⟩
      rw [Nat.mod_eq_of_lt (by omega)]
      omega
  | parts a b used group =>
      obtain ⟨first, last, used, group⟩ := same
      rw [first, last, used, group, u32_of_lt words.1.1, u32_of_lt words.1.2, u32_of_lt words.2.1, u32_of_lt words.2.2]
      exact Iff.rfl

theorem finishItem_spec {nmaskbits before : Nat} {st st' : ListState} {maskp maskp' : List Word} {item : Item} {ret : Int}
    (int : nmaskbits < 2 ^ 31) (room : maskp.length = bitsToLongs nmaskbits) (small : st.Words) (read : item.Read before st) (words : item.Words)
    (steps : item.Valid nmaskbits → item.Steps) (run : finishItem nmaskbits st maskp = some (ret, st', maskp')) :
    (ret = 0 ↔ item.Valid nmaskbits) ∧ (ret = 0 → ∀ i, bit maskp' i = true ↔ bit maskp i = true ∨ item.Denotes i) := by
  obtain ⟨-, zero, set⟩ := finishItem_cases read.ended run
  refine ⟨zero.trans (read.accepted int words), fun done i => ?_⟩
  have accepted := zero.mp done
  have valid := (read.accepted int words).mp accepted
  obtain ⟨ordered, pos, used, high⟩ := accepted
  have inside := lt_bitsToLongs high
  rw [← read.denotes int words valid i]
  by_cases empty : st.finish.usedSize = 0
  · have enough : st.finish.a ≤ st.finish.b → if st.finish.groupSize ≤ 2 ^ 31 then st.finish.b + 2 ≤ st.finish.a + (st.finish.b + 2)
        else st.finish.a + 2 ≤ st.finish.b + 2 := by
      intro ordered
      split <;> omega
    obtain ⟨mid, again, -, same⟩ := @setGroups_total _ st.finish.usedSize _ _ _ maskp (by omega) (room ▸ inside) pos small.finish.2
      (Nat.succ_pos _) enough
    cases again.symm.trans (set done)
    rw [same empty, empty]
    simp
  · refine setGroups_spec (by omega) (room ▸ inside) pos used (fun _ => ?_) (set done) i
    have same := read.groups
    cases item with
    | bit a =>
        obtain ⟨-, -, -, group⟩ := same
        omega
    | range a b =>
        obtain ⟨first, last, used, group⟩ := same
        have size : st.finish.groupSize = st.finish.b + 1 - st.finish.a := by
          rw [group, used, ← first, ← last, u32]
          omega
        omega
    | parts a b used group =>
        obtain ⟨first, last, used, group⟩ := same
        rw [first, group, u32_of_lt words.1.1, u32_of_lt words.2.2]
        refine (steps valid).resolve_left fun none => empty ?_
        rw [used, none]
        rfl

/-! ## Lists -/

/-- Up to the first entry that is refused, every number is a word and every step stays one. -/
def FitsWords (nmaskbits : Nat) (items : List Item) : Prop :=
  ∀ done item rest, items = done ++ item :: rest → (∀ earlier ∈ done, earlier.Valid nmaskbits) →
    item.Words ∧ (item.Valid nmaskbits → item.Steps)

/-- The mask is the union of the entries. -/
def Union (maskp maskp' : List Word) (items : List Item) : Prop :=
  ∀ i, bit maskp' i = true ↔ bit maskp i = true ∨ ∃ item ∈ items, item.Denotes i

theorem FitsWords.tail {nmaskbits : Nat} {item : Item} {items : List Item} (fits : FitsWords nmaskbits (item :: items))
    (valid : item.Valid nmaskbits) : FitsWords nmaskbits items := by
  intro done next rest split earlier
  refine fits (item :: done) next rest (congrArg (item :: ·) split) ?_
  exact List.forall_mem_cons.mpr ⟨valid, earlier⟩

theorem listText_cons (item next : Item) (items : List Item) :
    listText (item :: next :: items) = item.text ++ ',' :: listText (next :: items) := by
  simp [listText, List.intercalate]

theorem text_le_listText (item : Item) (items : List Item) : item.text.length ≤ (listText (item :: items)).length := by
  cases items with
  | nil => simp [listText, List.intercalate]
  | cons next items =>
      rw [listText_cons, List.length_append]
      exact Nat.le_add_right _ _

theorem Item.text_pos (item : Item) : 0 < item.text.length := by
  cases item with
  | bit a => exact a.text_pos
  | range a b => rw [Item.text, List.length_append]; exact Nat.add_pos_left a.text_pos _
  | parts a b used group => rw [Item.text, List.length_append]; exact Nat.add_pos_left a.text_pos _

theorem ListState.finish_comma (st : ListState) : { st with c := ',' }.finish = { st.finish with c := ',' } := by
  unfold ListState.finish
  split <;> rfl

theorem ListState.finish_c (st : ListState) : st.finish.c = st.c := by
  unfold ListState.finish
  split <;> rfl

theorem Item.Read.comma {before : Nat} {st : ListState} {item : Item} (read : item.Read before st) : item.Read before { st with c := ',' } := by
  have finish := st.finish_comma
  refine ⟨rfl, finish ▸ read.ended, read.digits, ?_⟩
  have groups := read.groups
  rw [finish]
  cases item with
  | bit a => exact groups
  | range a b => exact groups
  | parts a b used group => exact groups

/-- One round of the outer loop over an entry. -/
theorem parseItems_entry {nmaskbits fuel : Nat} {item : Item} {text buf : List Char} {st read : ListState} {maskp maskp' : List Word} {ret : Int}
    (short : item.text.length < 2 ^ 32) (chars : nextItem st.totaldigits text st.start = .ok (buf, read)) (entry : item.Read st.totaldigits read)
    (run : parseItems nmaskbits (fuel + 1) text st maskp = some (ret, maskp')) :
    ∃ code mid, finishItem nmaskbits read maskp = some (code, read.finish, mid) ∧
      if code ≠ 0 then ret = code ∧ maskp' = mid
      else if buf ≠ [] ∧ read.c = ',' then parseItems nmaskbits fuel buf read.finish mid = some (ret, maskp')
      else ret = 0 ∧ maskp' = mid := by
  obtain ⟨count, pos, most, digits⟩ := entry.digits
  have more : st.totaldigits ≠ read.totaldigits := by
    rw [digits, u32]
    omega
  rw [parseItems, chars] at run
  simp only [if_neg more] at run
  obtain ⟨⟨code, st', mid⟩, finish, rest⟩ := Option.bind_eq_some_iff.mp run
  obtain ⟨rfl, -, -⟩ := finishItem_cases entry.ended finish
  refine ⟨code, mid, finish, ?_⟩
  simp only [read.finish_c] at rest
  split_ifs with failed next
  · rw [if_pos failed] at rest
    cases rest
    exact ⟨rfl, rfl⟩
  · rw [if_neg failed, if_pos next] at rest
    exact rest
  · rw [if_neg failed, if_neg next] at rest
    cases rest
    exact ⟨rfl, rfl⟩

theorem parseItems_spec {nmaskbits fuel : Nat} {item : Item} {items : List Item} {st : ListState} {maskp maskp' : List Word} {ret : Int}
    (int : nmaskbits < 2 ^ 31) (room : maskp.length = bitsToLongs nmaskbits) (small : st.Words) (quiet : isspace st.c = false)
    (short : (listText (item :: items)).length < 2 ^ 32) (fits : FitsWords nmaskbits (item :: items))
    (run : parseItems nmaskbits fuel (listText (item :: items)) st maskp = some (ret, maskp')) :
    (ret = 0 ↔ ∀ entry ∈ item :: items, entry.Valid nmaskbits) ∧ (ret = 0 → Union maskp maskp' (item :: items)) := by
  induction fuel generalizing item items st maskp with
  | zero => cases run
  | succ fuel ih =>
      obtain ⟨words, steps⟩ := fits [] item items rfl nofun
      have width := (text_le_listText item items).trans_lt short
      cases items with
      | nil =>
          have text : listText [item] = item.text ++ [] := by simp [listText, List.intercalate]
          rw [text] at run
          obtain ⟨read, entry, chars⟩ := nextItem_item st.totaldigits [] item quiet
          obtain ⟨code, mid, finish, done⟩ := parseItems_entry width chars entry run
          obtain ⟨valid, bits⟩ := finishItem_spec int room (nextItem_read small.start chars).1 entry words steps finish
          rw [List.forall_mem_singleton]
          split_ifs at done with failed more
          · obtain ⟨rfl, rfl⟩ := done
            exact ⟨valid, fun zero => absurd zero failed⟩
          · exact absurd rfl more.1
          · obtain ⟨rfl, rfl⟩ := done
            have zero := not_not.mp failed
            refine ⟨⟨fun _ => valid.mp zero, fun _ => rfl⟩, fun _ i => ?_⟩
            rw [bits zero]
            simp
      | cons next items =>
          rw [listText_cons] at run short
          obtain ⟨read, entry, chars⟩ := nextItem_item st.totaldigits (',' :: listText (next :: items)) item quiet
          rw [nextItem_comma] at chars
          obtain ⟨code, mid, finish, done⟩ := parseItems_entry width chars entry.comma run
          have small' := (nextItem_read small.start chars).1
          obtain ⟨valid, bits⟩ := finishItem_spec int room small' entry.comma words steps finish
          rw [List.forall_mem_cons]
          have more_text : listText (next :: items) ≠ [] := by
            have pos := next.text_pos.trans_le (text_le_listText next items)
            exact List.ne_nil_of_length_pos pos
          split_ifs at done with failed more
          · obtain ⟨rfl, rfl⟩ := done
            refine ⟨⟨fun zero => absurd zero failed, fun all => valid.mpr all.1⟩, fun zero => absurd zero failed⟩
          · have zero := not_not.mp failed
            have first := valid.mp zero
            obtain ⟨_, _, _, total, -, length⟩ := finishItem_total small' int room
            cases finish.symm.trans total
            have rest_short : (listText (next :: items)).length < 2 ^ 32 := by
              rw [List.length_append, List.length_cons] at short
              omega
            have c : isspace ({ read with c := ',' } : ListState).finish.c = false := by rw [ListState.finish_c]; rfl
            obtain ⟨valid', bits'⟩ := ih (length.trans room) small'.finish.1 c rest_short (fits.tail first) done
            refine ⟨valid'.trans ⟨fun all => ⟨first, all⟩, And.right⟩, fun zero' i => ?_⟩
            rw [bits' zero', bits zero, or_assoc, List.exists_mem_cons_iff (fun entry => entry.Denotes i) item]
          · exact absurd ⟨more_text, rfl⟩ more

theorem bitmapParselistCore_spec {nmaskbits : Nat} {items : List Item} {maskp maskp' : List Word} {ret : Int} (int : nmaskbits < 2 ^ 31)
    (room : maskp.length = bitsToLongs nmaskbits) (short : (listText items).length < 2 ^ 32) (fits : FitsWords nmaskbits items)
    (run : bitmapParselistCore (listText items) maskp nmaskbits = some (ret, maskp')) :
    (ret = 0 ↔ ∀ item ∈ items, item.Valid nmaskbits) ∧ (ret = 0 → ∀ i, bit maskp' i = true ↔ ∃ item ∈ items, item.Denotes i) := by
  rw [bitmapParselistCore, bitmapZero_spec room, Option.bind_some] at run
  cases items with
  | nil =>
      cases run
      refine ⟨⟨fun _ item mem => absurd mem List.not_mem_nil, fun _ => rfl⟩, fun _ i => ?_⟩
      rw [bit_replicate]
      simp
  | cons item items =>
      have small : ListState.init.Words := ⟨Nat.two_pow_pos 32, Nat.two_pow_pos 32, Nat.two_pow_pos 32, Nat.two_pow_pos 32⟩
      obtain ⟨valid, union⟩ := parseItems_spec int (List.length_replicate.trans room) small (by decide) short fits run
      refine ⟨valid, fun zero i => ?_⟩
      rw [union zero i, bit_replicate]
      simp

end Miracle.Bitmap
