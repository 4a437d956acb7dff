import Miracle.Text.HexLine

/-! # When the conversions of `hexdump.c` are right

A group that is printed with a size that is negative as an `int` is missing, and so are all groups
behind it.  The column of characters still starts at its place, so the length alone does not tell.
-/

namespace Miracle.Text

open Strtox Vsprintf

variable {linebuf : Nat → Char} {n : Nat}

theorem hexAsc_ne_space (d : Nat) : hexAsc d ≠ ' ' := by
  by_cases digit : d < 16
  · have all : ∀ d < 16, hexAsc d ≠ ' ' := by decide
    exact all d digit
  · have default : hexAsc d = '0' := List.getD_eq_default _ _ (Nat.le_of_not_lt digit)
    rw [default]
    decide

/-- A group starts with a digit, behind at most one space. -/
theorem groupText_digit (buf : Nat → Byte) {g : Nat} (pos : 0 < g) (j : Nat) :
    ∃ gap d rest, groupText buf g j = gap ++ hexAsc d :: rest ∧ gap.length ≤ 1 := by
  have length : (group buf g j).reverse.length = g := by rw [List.length_reverse, group, List.length_map, List.length_range]
  cases bytes : (group buf g j).reverse with
  | nil =>
      rw [bytes] at length
      exact absurd length pos.ne
  | cons x more =>
      refine ⟨if j = 0 then [] else [' '], ((x &&& 0xf0) >>> 4 : Nat), hexAsc (x &&& 0x0f : Nat) :: more.flatMap hexBytePack, ?_, ?_⟩
      · rw [groupText, bytes]
        rfl
      · split <;> decide

section

variable {l : Layout} (rows : l.rowsize = 16 ∨ l.rowsize = 32) (short : l.len ≤ l.rowsize)
  (groups : l.groupsize = 1 ∨ l.groupsize = 2 ∨ l.groupsize = 4 ∨ l.groupsize = 8) (whole : l.len % l.groupsize = 0) (some : l.len ≠ 0)
  (buf : Nat → Byte) {k : Nat} (larger : l.groupsize ≠ 1) (less : k < l.ngroups)
  (sized : ∀ i < k, Sized n (hexColumns buf l.groupsize i).length) (negative : ¬ Sized n (hexColumns buf l.groupsize k).length)

include groups larger less sized negative in
theorem dumpHex_stuck {o : Out} (written : Written linebuf n [] o) :
    ∃ o', dumpHex l buf n o = .ok o' ∧ Written linebuf n (hexColumns buf l.groupsize k) o' := by
  unfold dumpHex
  rcases groups with g | g | g | g
  · exact absurd g larger
  · rw [g] at sized negative ⊢
    rw [if_neg (by decide), if_neg (by decide), if_pos rfl]
    exact dumpGroups_stuck (prints_u16 buf) written less sized negative
  · rw [g] at sized negative ⊢
    rw [if_neg (by decide), if_pos rfl]
    exact dumpGroups_stuck (prints_u32 buf) written less sized negative
  · rw [g] at sized negative ⊢
    rw [if_pos rfl]
    exact dumpGroups_stuck (prints_u64 buf) written less sized negative

include rows short groups whole some larger less sized negative in
/-- A line without some of its groups is not the line. -/
theorem stuck_not_dumped (ascii : Bool) : ¬ Dumped linebuf n (l.line buf ascii) (l.leave ascii (dumpLine l linebuf buf n ascii)) := by
  have big : (hexColumns buf l.groupsize k).length + 2 ^ 31 ≤ n := by
    rw [Sized, Nat.not_lt] at negative
    have le := negative.trans (Nat.mod_le _ _)
    omega
  have pos : 0 < l.groupsize := by omega
  obtain ⟨gap, d, rest, text, narrow⟩ := groupText_digit buf pos k
  obtain ⟨more, columns⟩ := hexColumns_add buf l.groupsize (k + 1) (l.ngroups - (k + 1))
  have all : k + 1 + (l.ngroups - (k + 1)) = l.ngroups := by omega
  rw [all, hexColumns_succ, text, List.append_assoc, List.append_assoc, List.cons_append] at columns
  have fit := columns_fit short groups whole buf
  have length := congrArg List.length columns
  simp only [List.length_append, List.length_cons] at length
  obtain ⟨o, run, written⟩ := dumpHex_stuck groups buf larger less sized negative (@Written.start linebuf n (by omega))
  rw [dumpLine, if_neg (by omega), if_neg some, run, Layout.line, if_neg some]
  rintro ⟨mem, same, shown⟩
  cases ascii with
  | false =>
      have returned : (o.pos : Int) = (hexColumns buf l.groupsize l.ngroups).length := congrArg Prod.fst (Option.some.inj same)
      rw [written.pos] at returned
      omega
  | true =>
      have text' := @dumpText_stage linebuf n l buf _ o written
      have column : l.asciiColumn ≤ 97 := by
        rw [Layout.asciiColumn]
        have parts := Nat.div_le_self l.rowsize l.groupsize
        omega
      have within : (hexColumns buf l.groupsize k ++ List.replicate (l.asciiColumn - (hexColumns buf l.groupsize k).length) ' ' ++
          (bytes buf l.len).map asciiChar).length + 1 < n := by
        simp only [List.length_append, List.length_replicate, List.length_map, bytes, List.length_range]
        omega
      cases done : dumpText l buf n o with
      | error jump =>
          rw [done] at text'
          cases jump with
          | overflow1 o' => exact absurd text'.1 (by omega)
          | overflow2 o' => exact absurd text'.1 (by omega)
          | fault => exact text'
      | ok o' =>
          rw [done] at text'
          have written' : Written linebuf n _ o' := text'
          -- the place of the first digit that is missing
          have blank := written'.text ((hexColumns buf l.groupsize k).length + gap.length) (by
            simp only [List.length_append, List.length_replicate]
            omega)
          have digit := shown.text ((hexColumns buf l.groupsize k).length + gap.length) (by
            simp only [if_true, List.length_append]
            omega) (by omega)
          change l.leave true (dumpText l buf n o) = _ at same
          rw [done] at same
          have memory : Function.update o'.mem o'.pos nul = mem := congrArg Prod.snd (Option.some.inj same)
          have before : (hexColumns buf l.groupsize k).length + gap.length ≠ o'.pos := by
            rw [written'.pos]
            simp only [List.length_append, List.length_replicate]
            omega
          rw [← memory, Function.update_of_ne before, ← blank, if_pos rfl] at digit
          rw [List.append_assoc, List.append_assoc, List.getElem?_append_left (by omega), columns,
            List.getElem?_append_right (Nat.le_add_right ..), List.getElem?_append_right (Nat.le_add_right ..), Nat.add_sub_cancel_left,
            List.getElem?_append_right le_rfl, Nat.sub_self, List.getElem?_append_left (by rw [List.length_replicate]; omega),
            List.getElem?_replicate_of_lt (by omega)] at digit
          exact hexAsc_ne_space d (Option.some.inj digit)

end

/-! ## Every call -/

theorem empty_total (l : Layout) (empty : l.len = 0) (ascii : Bool) : l.total ascii ≠ 0 := by
  rw [Layout.total]
  cases ascii with
  | true =>
      have pos : 0 < l.asciiColumn := Nat.succ_pos _
      rw [if_pos rfl]
      omega
  | false =>
      rw [if_neg Bool.false_ne_true, Layout.ngroups, empty, Nat.zero_div, Int.natCast_zero, Int.mul_zero]
      decide

theorem hexDump_iff (buf : Nat → Byte) (len : Nat) (rowsize groupsize : BitVec 32) (ascii : Bool) :
    Dumped linebuf n ((layout len rowsize groupsize).line buf ascii) (hexDumpToBuffer buf len rowsize groupsize linebuf n ascii) ↔
      Lines n len (layout len rowsize groupsize) := by
  refine ⟨fun dumped => ?_, fun good => hexDump_dumped buf ascii good⟩
  obtain ⟨rows, short, groups, whole, none⟩ := layout_cases len rowsize groupsize
  unfold hexDumpToBuffer at dumped
  generalize layout len rowsize groupsize = l at *
  simp only at dumped
  refine ⟨fun zero nothing => ?_, fun larger => ?_⟩
  · have empty := none.mpr nothing
    have line : l.line buf ascii = [] := if_pos empty
    rw [line, dumpLine, if_pos zero] at dumped
    obtain ⟨mem, same, -⟩ := dumped
    exact empty_total l empty ascii (congrArg Prod.fst (Option.some.inj same))
  · by_contra bad
    simp only [not_forall] at bad
    obtain ⟨j, less, missing⟩ := bad
    obtain ⟨first, negative, before⟩ := wellFounded_lt.has_min {k | k < l.ngroups ∧ ¬ Sized n ((l.groupsize * 2 + 1) * k - 1)} ⟨j, less, missing⟩
    have length (i : Nat) : (hexColumns buf l.groupsize i).length = (l.groupsize * 2 + 1) * i - 1 := by
      rw [hexColumns_length, Nat.mul_comm 2]
    have some : l.len ≠ 0 := by
      intro empty
      have less := negative.1
      rw [Layout.ngroups, empty, Nat.zero_div] at less
      exact absurd less (Nat.not_lt_zero _)
    refine stuck_not_dumped rows short groups whole some buf larger negative.1 (fun i below => ?_) (by rw [length]; exact negative.2) ascii dumped
    rw [length]
    by_contra missing
    exact before i ⟨below.trans negative.1, missing⟩ below

/-- What `bin2hex` writes is read back; a string is read into as many bytes as asked for when it starts with their digits, and its end is passed
    only when it is nothing but too few pairs of digits; a line is dumped unless there is neither a buffer nor data, or the size left for a group of
    several bytes is negative as an `int`. -/
theorem hex_conversion (b : List Byte) (dst : Nat → Char) (stored : ∀ i < (bin2hex b).length, (bin2hex b)[i]? = some (dst i))
    (src : Nat → Char) (s : CString) (holds : HoldsString src s) (count : Nat)
    (buf : Nat → Byte) (len : Nat) (rowsize groupsize : BitVec 32) (ascii : Bool) (linebuf : Nat → Char) (linebuflen : Nat) :
    hex2bin dst b.length 0 = ⟨0, b, 2 * b.length⟩ ∧
    (((hex2bin src count 0).ret = 0 ↔ 2 * count ≤ s.chars.length ∧ HexBetween s 0 (2 * count)) ∧
      (hex2bin src count 0).src ≤ s.chars.length + 1 ↔ ¬ RunsOut s 0 count) ∧
    (Dumped linebuf linebuflen ((layout len rowsize groupsize).line buf ascii)
      (hexDumpToBuffer buf len rowsize groupsize linebuf linebuflen ascii) ↔ Lines linebuflen len (layout len rowsize groupsize)) := by
  refine ⟨?_, ?_, hexDump_iff buf len rowsize groupsize ascii⟩
  · have back := @hex2bin_bin2hex b dst 0 fun i less => by
      rw [Nat.zero_add]
      exact stored i less
    rwa [Nat.zero_add] at back
  · obtain ⟨ret, cursor⟩ := @hex2bin_from src s holds count 0 (Nat.zero_le _)
    rw [Nat.zero_add] at ret
    exact (and_iff_right ret).trans cursor

theorem twoDigits_hold : HoldsString (charAt "ab".toList) ⟨"ab".toList, by decide⟩ := fun _ _ => rfl

/-- The two digits of 171 are read back, and dumped into three characters. -/
theorem twoDigits_read : hex2bin (charAt "ab".toList) 1 0 = ⟨0, [171], 2⟩ ∧ (hex2bin (charAt "ab".toList) 1 0).src ≤ 3 ∧
    Dumped (fun _ => nul) 3 ((layout 1 16 1).line (fun _ => 171) false)
      (hexDumpToBuffer (fun _ => 171) 1 16 1 (fun _ => nul) 3 false) := by
  obtain ⟨back, read, dumped⟩ := hex_conversion [171] (charAt "ab".toList) (by decide) _ _ twoDigits_hold 1 (fun _ => 171) 1 16 1 false (fun _ => nul) 3
  refine ⟨back, (read.mpr fun out => ?_).2, dumped.mpr ⟨fun zero => ?_, fun larger => ?_⟩⟩
  · exact absurd out.2.1 (by decide)
  · exact absurd zero (by decide)
  · exact absurd (by decide) larger

/-- Asked for two bytes, `hex2bin` reads two characters behind the null of two digits. -/
theorem hex2bin_reads_on : ¬ ∀ (src : Nat → Char) (s : CString) (count : Nat), HoldsString src s →
    (hex2bin src count 0).src ≤ s.chars.length + 1 :=
  fun all => absurd (all _ _ 2 twoDigits_hold) (by decide)

end Miracle.Text
