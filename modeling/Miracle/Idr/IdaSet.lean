import Miracle.Idr.Ida

/-! # The ID allocator is a set of ids

An allocation adds the least free id of its range and a free removes its id.  The search may skip a leaf whose mark is
clear because such a leaf is full.
-/

namespace Miracle.Ida

open BitScan

/-! ## Replacing a leaf -/

/-- `xa'` is `xa` with another leaf, or none, at index `i`. -/
structure Replaced (xa xa' : Xarray) (i : Nat) (e : Option Leaf) : Prop where
  entry : xa'.entry i = e
  entries : ∀ j ≠ i, xa'.entry j = xa.entry j
  marks : ∀ j ≠ i, xa'.mark j = xa.mark j

section

variable {xa xa' : Xarray} {i : Nat} {e : Option Leaf} (replaced : Replaced xa xa' i e)

include replaced

theorem Replaced.mem_ids_of_ne {id : Nat} (ne : id / idaBitmapBits ≠ i) : id ∈ ids xa' ↔ id ∈ ids xa := by
  simp only [ids, Set.mem_ofPred_eq, Has, replaced.entries _ ne]

theorem Replaced.ids_insert {b : Nat} (lt : b < idaBitmapBits)
    (bits : ∀ c < idaBitmapBits, Has xa' i c ↔ c = b ∨ Has xa i c) :
    ids xa' = insert (i * idaBitmapBits + b) (ids xa) := by
  ext id
  rw [Set.mem_insert_iff]
  by_cases here : id / idaBitmapBits = i
  · have mod := mod_lt id
    have join := id_join id
    rw [here] at join
    rw [← join, mem_ids mod, mem_ids mod, bits _ mod, Nat.add_left_cancel_iff]
  · rw [replaced.mem_ids_of_ne here]
    have other : id ≠ i * idaBitmapBits + b := by
      rintro rfl
      exact here (id_split lt).1
    exact (or_iff_right other).symm

theorem Replaced.ids_erase {b : Nat} (lt : b < idaBitmapBits)
    (bits : ∀ c < idaBitmapBits, Has xa' i c ↔ c ≠ b ∧ Has xa i c) :
    ids xa' = ids xa \ {i * idaBitmapBits + b} := by
  ext id
  rw [Set.mem_sdiff, Set.mem_singleton_iff]
  by_cases here : id / idaBitmapBits = i
  · have mod := mod_lt id
    have join := id_join id
    rw [here] at join
    rw [← join, mem_ids mod, mem_ids mod, bits _ mod, Nat.add_left_cancel_iff]
    exact and_comm
  · rw [replaced.mem_ids_of_ne here]
    have other : id ≠ i * idaBitmapBits + b := by
      rintro rfl
      exact here (id_split lt).1
    exact (and_iff_left other).symm

theorem Replaced.ids_same (bits : ∀ c < idaBitmapBits, Has xa' i c ↔ Has xa i c) : ids xa' = ids xa := by
  ext id
  by_cases here : id / idaBitmapBits = i
  · have mod := mod_lt id
    have join := id_join id
    rw [here] at join
    rw [← join, mem_ids mod, mem_ids mod, bits _ mod]
  · exact replaced.mem_ids_of_ne here

/-- The marks stay accurate if the one of the new leaf is. -/
theorem Replaced.ok (ok : Ok xa) (mark : xa'.mark i = false ↔ ∃ leaf, e = some leaf ∧ leaf.Full)
    (used : ∀ leaf, e = some leaf → leaf.Used) (small : ∀ id ∈ ids xa', id ≤ intMax) : Ok xa' := by
  refine ⟨?_, ?_, small⟩
  · intro j
    by_cases here : j = i
    · subst here
      rw [replaced.entry, mark]
    · rw [replaced.marks j here, replaced.entries j here, ok.mark]
  · intro j leaf found
    by_cases here : j = i
    · subst here
      rw [replaced.entry] at found
      exact used leaf found
    · rw [replaced.entries j here] at found
      exact ok.used j leaf found

end

theorem replaced_store (xa : Xarray) (i : Nat) (e : Option Leaf) : Replaced xa (xa.store i e) i e := by
  refine ⟨xa.entry_store i e, fun j ne => xa.entry_store_of_ne i ne e, ?_⟩
  intro j ne
  cases e with
  | none => exact Function.update_of_ne ne ..
  | some leaf => rfl

theorem Replaced.clearMark {xa xa' : Xarray} {i : Nat} {e : Option Leaf} (replaced : Replaced xa xa' i e) :
    Replaced xa (xa'.clearMark i) i e :=
  ⟨replaced.entry, replaced.entries, fun j ne => (Function.update_of_ne ne ..).trans (replaced.marks j ne)⟩

theorem Replaced.setMark {xa xa' : Xarray} {i : Nat} {e : Option Leaf} (replaced : Replaced xa xa' i e) :
    Replaced xa (xa'.setMark i) i e :=
  ⟨replaced.entry, replaced.entries, fun j ne => (Function.update_of_ne ne ..).trans (replaced.marks j ne)⟩

theorem Replaced.trans {xa xa' xa'' : Xarray} {i : Nat} {e e' : Option Leaf} (first : Replaced xa xa' i e)
    (second : Replaced xa' xa'' i e') : Replaced xa xa'' i e' :=
  ⟨second.entry, fun j ne => (second.entries j ne).trans (first.entries j ne),
    fun j ne => (second.marks j ne).trans (first.marks j ne)⟩

theorem has_some {xa : Xarray} {i b : Nat} {leaf : Leaf} (entry : xa.entry i = some leaf) :
    Has xa i b ↔ leaf.bits b = true := by
  constructor
  · rintro ⟨leaf', found, set⟩
    obtain rfl := Option.some.inj (found.symm.trans entry)
    exact set
  · intro set
    exact ⟨leaf, entry, set⟩

theorem not_has_none {xa : Xarray} {i b : Nat} (entry : xa.entry i = none) : ¬ Has xa i b := by
  rintro ⟨leaf, found, -⟩
  rw [entry] at found
  cases found

/-! ## One round of the search -/

/-- What a round at a leaf does: it adds the first free bit from `bit` on, or finds none up to `max`, or none at all. -/
def RoundOk (xa : Xarray) (index bit max : Nat) : Jump → Prop
  | .done xa' ret => Ok xa' ∧
      ((∃ b, bit ≤ b ∧ b < idaBitmapBits ∧ index * idaBitmapBits + b ≤ max ∧ ret = (index * idaBitmapBits + b : Nat) ∧
          ¬ Has xa index b ∧ (∀ c, bit ≤ c → c < b → Has xa index c) ∧
          ids xa' = insert (index * idaBitmapBits + b) (ids xa)) ∨
        (ret = -enospc ∧ ids xa' = ids xa ∧ max < (index + 1) * idaBitmapBits ∧
          ∀ c, bit ≤ c → index * idaBitmapBits + c ≤ max → Has xa index c))
  | .next xa' _ => Ok xa' ∧ ids xa' = ids xa ∧ ∀ c, bit ≤ c → c < idaBitmapBits → Has xa index c

/-- A round may start after bits that are set. -/
theorem RoundOk.before {xa : Xarray} {index bit bit' max : Nat} {jump : Jump} (ok : RoundOk xa index bit' max jump)
    (le : bit ≤ bit') (set : ∀ c, bit ≤ c → c < bit' → Has xa index c) : RoundOk xa index bit max jump := by
  cases jump with
  | done xa' ret =>
      obtain ⟨ok', outcome⟩ := ok
      refine ⟨ok', ?_⟩
      rcases outcome with ⟨b, low, lt, high, result, free, before, added⟩ | ⟨result, same, last, all⟩
      · refine .inl ⟨b, le.trans low, lt, high, result, free, ?_, added⟩
        intro c above below
        by_cases early : c < bit'
        · exact set c above early
        · exact before c (Nat.not_lt.mp early) below
      · refine .inr ⟨result, same, last, ?_⟩
        intro c above below
        by_cases early : c < bit'
        · exact set c above early
        · exact all c (Nat.not_lt.mp early) below
  | next xa' bit'' =>
      obtain ⟨ok', same, all⟩ := ok
      refine ⟨ok', same, ?_⟩
      intro c above below
      by_cases early : c < bit'
      · exact set c above early
      · exact all c (Nat.not_lt.mp early) below

/-- A round sees only the bits. -/
theorem RoundOk.congr {xa xa' : Xarray} {index bit max : Nat} {jump : Jump} (ok : RoundOk xa' index bit max jump)
    (same : ids xa' = ids xa) (bits : ∀ c, Has xa' index c ↔ Has xa index c) : RoundOk xa index bit max jump := by
  cases jump with
  | done xa'' ret => simpa only [RoundOk, same, bits] using ok
  | next xa'' bit' => simpa only [RoundOk, same, bits] using ok

section

variable {xa : Xarray} (ok : Ok xa) {index bit max : Nat} (word : max ≤ intMax)

include ok word

/-- Setting a bit that was clear. -/
theorem Replaced.added {xa' : Xarray} {leaf : Leaf} {b : Nat} (replaced : Replaced xa xa' index (some leaf))
    (mark : xa'.mark index = false ↔ leaf.Full) (lt : b < idaBitmapBits) (high : index * idaBitmapBits + b ≤ max)
    (bits : ∀ c < idaBitmapBits, leaf.bits c = true ↔ c = b ∨ Has xa index c) :
    Ok xa' ∧ ids xa' = insert (index * idaBitmapBits + b) (ids xa) := by
  have added : ids xa' = insert (index * idaBitmapBits + b) (ids xa) := by
    apply replaced.ids_insert lt
    intro c lt'
    rw [has_some replaced.entry]
    exact bits c lt'
  refine ⟨replaced.ok ok ?_ ?_ ?_, added⟩
  · simpa using mark
  · rintro leaf' same
    obtain rfl := Option.some.inj same
    exact ⟨b, lt, (bits b lt).mpr (.inl rfl)⟩
  · intro id member
    rw [added, Set.mem_insert_iff] at member
    rcases member with rfl | member
    · exact high.trans word
    · exact ok.small id member

theorem allocInBitmap_ok {m : Bitmap} (entry : xa.entry index = some (.bitmap m)) (lt : bit < idaBitmapBits) :
    RoundOk xa index bit max (allocInBitmap xa index bit max m) := by
  obtain ⟨upper, lower, found, before⟩ := findNext_spec m false idaBitmapBits bit
  have has (c : Nat) : Has xa index c ↔ m c = true := has_some entry
  have set (c : Nat) (above : bit ≤ c) (below : c < findNext m false idaBitmapBits bit) : Has xa index c :=
    (has c).mpr (before c above below)
  unfold allocInBitmap findNextZeroBit
  simp only
  by_cases past : index * idaBitmapBits + findNext m false idaBitmapBits bit > max
  · rw [if_pos past]
    refine ⟨ok, .inr ⟨rfl, rfl, ?_, ?_⟩⟩
    · simp only [idaBitmapBits] at *
      omega
    · intro c above below
      exact set c above (by omega)
  rw [if_neg past]
  by_cases none : findNext m false idaBitmapBits bit = idaBitmapBits
  · rw [if_pos none]
    refine ⟨ok, rfl, ?_⟩
    intro c above below
    exact set c above (by omega)
  rw [if_neg none]
  generalize findNext m false idaBitmapBits bit = b at *
  have inside : b < idaBitmapBits := Nat.lt_of_le_of_ne upper none
  have clear : m b = false := found inside
  have bits (c : Nat) (_ : c < idaBitmapBits) : (Leaf.bitmap (setBit m b)).bits c = true ↔ c = b ∨ Has xa index c := by
    rw [has]
    exact setBit_iff
  have marked : xa.mark index = true := by
    by_contra unmarked
    obtain ⟨leaf, found', full⟩ := (ok.mark index).mp (Bool.eq_false_of_not_eq_true unmarked)
    obtain rfl := Option.some.inj (found'.symm.trans entry)
    have set : m b = true := full b inside
    simp [clear] at set
  have stored := replaced_store xa index (some (.bitmap (setBit m b)))
  have added : Ok (if bitmapFull (setBit m b) then (xa.store index (some (.bitmap (setBit m b)))).clearMark index
        else xa.store index (some (.bitmap (setBit m b)))) ∧
      ids (if bitmapFull (setBit m b) then (xa.store index (some (.bitmap (setBit m b)))).clearMark index
        else xa.store index (some (.bitmap (setBit m b)))) = insert (index * idaBitmapBits + b) (ids xa) := by
    by_cases full : bitmapFull (setBit m b) = true
    · rw [if_pos full]
      apply stored.clearMark.added ok word _ inside (Nat.not_lt.mp past) bits
      exact iff_of_true (Function.update_self ..) (bitmapFull_iff.mp full)
    · rw [if_neg full]
      apply stored.added ok word _ inside (Nat.not_lt.mp past) bits
      rw [xa.mark_store_some, marked, ← bitmapFull_iff]
      exact iff_of_false (by decide) full
  refine ⟨added.1, .inl ⟨b, lower lt.le, inside, Nat.not_lt.mp past, rfl, ?_, set, added.2⟩⟩
  rw [has, clear]
  decide

omit word in
theorem marked_of_value {v : BitVec 63} (entry : xa.entry index = some (.value v)) : xa.mark index = true := by
  by_contra unmarked
  obtain ⟨leaf, found, full⟩ := (ok.mark index).mp (Bool.eq_false_of_not_eq_true unmarked)
  obtain rfl := Option.some.inj (found.symm.trans entry)
  exact not_full_value v full

/-- The bitmap that takes the place of a value entry has the same bits. -/
theorem allocConverted_ok {v : BitVec 63} (entry : xa.entry index = some (.value v)) (lt : bit < idaBitmapBits) :
    RoundOk xa index bit max (allocConverted true xa index bit max v) := by
  have stored := replaced_store xa index (some (.bitmap v.getLsbD))
  have bits (c : Nat) : Has (xa.store index (some (.bitmap v.getLsbD))) index c ↔ Has xa index c := by
    rw [has_some stored.entry, has_some entry]
    rfl
  have same : ids (xa.store index (some (.bitmap v.getLsbD))) = ids xa := stored.ids_same fun c _ => bits c
  have ok' : Ok (xa.store index (some (.bitmap v.getLsbD))) := by
    apply stored.ok ok
    · rw [xa.mark_store_some, marked_of_value ok entry]
      refine iff_of_false (by decide) ?_
      rintro ⟨leaf, is, full⟩
      obtain rfl := Option.some.inj is
      exact not_full_value v full
    · intro leaf is
      obtain rfl := Option.some.inj is
      exact ok.used index (.value v) entry
    · rw [same]
      exact ok.small
  exact (allocInBitmap_ok ok' word stored.entry lt).congr same bits

theorem allocInValue_ok {v : BitVec 63} (entry : xa.entry index = some (.value v)) (lt : bit < idaBitmapBits)
    (marked : xa.mark index = true) : RoundOk xa index bit max (allocInValue true xa index bit max v) := by
  have has (c : Nat) : Has xa index c ↔ v.getLsbD c = true := has_some entry
  unfold allocInValue
  by_cases low : bit < bitsPerXaValue
  · rw [if_pos low]
    obtain ⟨upper, lower, found, before⟩ := findNext_spec v.getLsbD false bitsPerXaValue bit
    have set (c : Nat) (above : bit ≤ c) (below : c < findNext v.getLsbD false bitsPerXaValue bit) : Has xa index c :=
      (has c).mpr (before c above below)
    have lower := lower low.le
    unfold findNextZeroBit
    simp only
    generalize findNext v.getLsbD false bitsPerXaValue bit = b at *
    have inside : b < idaBitmapBits := lt_of_le_of_lt upper (by decide)
    by_cases past : index * idaBitmapBits + b > max
    · rw [if_pos past]
      refine ⟨ok, .inr ⟨rfl, rfl, ?_, fun c above below => set c above (by omega)⟩⟩
      simp only [idaBitmapBits] at *
      omega
    rw [if_neg past]
    by_cases room : b < bitsPerXaValue
    · rw [if_pos room]
      have bits (c : Nat) (_ : c < idaBitmapBits) :
          (Leaf.value (v ||| 1#63 <<< b)).bits c = true ↔ c = b ∨ Has xa index c := by
        rw [has]
        exact bits_or room
      have added := (replaced_store xa index (some (.value (v ||| 1#63 <<< b)))).added ok word
        (by rw [xa.mark_store_some, marked]; exact iff_of_false (by decide) (not_full_value _)) inside
        (Nat.not_lt.mp past) bits
      refine ⟨added.1, .inl ⟨b, lower, inside, Nat.not_lt.mp past, rfl, ?_, set, added.2⟩⟩
      rw [has, found room]
      decide
    · rw [if_neg room]
      exact (allocConverted_ok ok word entry inside).before lower set
  · rw [if_neg low]
    exact allocConverted_ok ok word entry lt

theorem allocRound_ok (lt : bit < idaBitmapBits) (high : index * idaBitmapBits + bit ≤ max) (marked : xa.mark index = true) :
    RoundOk xa index bit max (allocRound true xa index bit max) := by
  unfold allocRound
  cases entry : xa.entry index with
  | none =>
      have clear (c : Nat) : ¬ Has xa index c := not_has_none entry
      by_cases low : bit < bitsPerXaValue
      · simp only [if_pos low]
        have bits (c : Nat) (_ : c < idaBitmapBits) : (Leaf.value (1#63 <<< bit)).bits c = true ↔ c = bit ∨ Has xa index c := by
          rw [or_iff_left (clear c)]
          exact bits_one low
        have added := (replaced_store xa index (some (.value (1#63 <<< bit)))).added ok word
          (by rw [xa.mark_store_some, marked]; exact iff_of_false (by decide) (not_full_value _)) lt high bits
        exact ⟨added.1, .inl ⟨bit, le_rfl, lt, high, rfl, clear bit, fun c above below => absurd above (by omega), added.2⟩⟩
      · simp only [if_neg low, if_true]
        have bits (c : Nat) (_ : c < idaBitmapBits) :
            (Leaf.bitmap (setBit (fun _ => false) bit)).bits c = true ↔ c = bit ∨ Has xa index c := by
          rw [or_iff_left (clear c), Leaf.bits, setBit_iff]
          exact or_iff_left (by decide)
        have notFull : ¬ (Leaf.bitmap (setBit (fun _ => false) bit)).Full := by
          intro full
          have zero := (bits 0 (by decide)).mp (full 0 (by decide))
          rcases zero with rfl | has
          · exact low (by decide)
          · exact clear 0 has
        have added := (replaced_store xa index (some (.bitmap (setBit (fun _ => false) bit)))).added ok word
          (by rw [xa.mark_store_some, marked]; exact iff_of_false (by decide) notFull) lt high bits
        exact ⟨added.1, .inl ⟨bit, le_rfl, lt, high, rfl, clear bit, fun c above below => absurd above (by omega), added.2⟩⟩
  | some leaf =>
      cases leaf with
      | bitmap m => exact allocInBitmap_ok ok word entry lt
      | value v => exact allocInValue_ok ok word entry lt marked

end

/-! ## The whole search -/

/-- The least free id of the range is added, or there is none. -/
structure AllocOk (xa : Xarray) (min bound : Nat) (xa' : Xarray) (ret : Int) : Prop where
  ok : Ok xa'
  outcome : (∃ id : Nat, ret = id ∧ IsLeast {i | min ≤ i ∧ i ≤ bound ∧ i ∉ ids xa} id ∧ ids xa' = insert id (ids xa)) ∨
    (ret = -enospc ∧ (∀ i, min ≤ i → i ≤ bound → i ∈ ids xa) ∧ ids xa' = ids xa)

/-- The ids of a leaf that the search has skipped are in use. -/
theorem mem_ids_of_unmarked {xa : Xarray} (ok : Ok xa) {id : Nat} (unmarked : xa.mark (id / idaBitmapBits) = false) :
    id ∈ ids xa := by
  obtain ⟨leaf, entry, full⟩ := (ok.mark _).mp unmarked
  exact ⟨leaf, entry, full _ (mod_lt id)⟩

section

variable {min max : Nat} (word : max ≤ intMax)

include word

theorem allocLoop_ok : ∀ (rounds : Nat) (xa : Xarray) (start bit : Nat), Ok xa → min / idaBitmapBits ≤ start →
    (start = min / idaBitmapBits → bit = min % idaBitmapBits) →
    (∀ id, min ≤ id → id < start * idaBitmapBits → id ∈ ids xa) →
    0 < rounds → max / idaBitmapBits + 1 < rounds + start →
    ∃ xa' ret, allocLoop true min max rounds xa start bit = some (xa', ret) ∧ AllocOk xa min max xa' ret := by
  intro rounds
  induction rounds with
  | zero =>
      intro xa start bit _ _ _ _ running
      omega
  | succ rounds ih =>
      intro xa start bit ok least first before _ enough
      obtain ⟨lower, marked, skipped⟩ := xa.findMarked_spec start (max / idaBitmapBits)
      rw [allocLoop]
      generalize xa.findMarked start (max / idaBitmapBits) = index at *
      -- the ids below the leaf are in use
      have below (id : Nat) (low : min ≤ id) (high : id < index * idaBitmapBits) : id ∈ ids xa := by
        by_cases early : id < start * idaBitmapBits
        · exact before id low early
        · apply mem_ids_of_unmarked ok
          apply skipped
          · exact (Nat.le_div_iff_mul_le (by decide)).mpr (Nat.not_lt.mp early)
          · exact Nat.div_lt_of_lt_mul (by rwa [Nat.mul_comm])
      generalize here : (if index > min / idaBitmapBits then 0 else bit) = bit'
      have place : bit' < idaBitmapBits ∧ min ≤ index * idaBitmapBits + bit' ∧
          (∀ id, min ≤ id → id < index * idaBitmapBits + bit' → id < index * idaBitmapBits) := by
        have mod := mod_lt min
        have join := id_join min
        by_cases later : index > min / idaBitmapBits
        · rw [if_pos later] at here
          subst here
          rw [Nat.add_zero]
          refine ⟨by decide, ?_, fun id _ high => high⟩
          simp only [idaBitmapBits] at *
          omega
        · rw [if_neg later] at here
          subst here
          have same : index = min / idaBitmapBits := by omega
          rw [first (by omega), same]
          refine ⟨mod, join.ge, ?_⟩
          intro id low high
          rw [join] at high
          exact absurd low (Nat.not_le.mpr high)
      obtain ⟨lt, low, covered⟩ := place
      by_cases past : index * idaBitmapBits + bit' > max
      · rw [if_pos past]
        refine ⟨xa, _, rfl, ok, .inr ⟨rfl, ?_, rfl⟩⟩
        intro id above under
        exact below id above (covered id above (by omega))
      rw [if_neg past]
      have inside : index ≤ max / idaBitmapBits := by
        simp only [idaBitmapBits] at *
        omega
      have round := allocRound_ok ok word lt (Nat.not_lt.mp past) (marked inside)
      -- a bit of the leaf that the round has passed
      have passed (id : Nat) (above : min ≤ id) (top : id < (index + 1) * idaBitmapBits)
          (has : index * idaBitmapBits + bit' ≤ id → Has xa index (id - index * idaBitmapBits)) : id ∈ ids xa := by
        by_cases early : id < index * idaBitmapBits + bit'
        · exact below id above (covered id above early)
        · have inLeaf : id - index * idaBitmapBits < idaBitmapBits := by
            simp only [idaBitmapBits] at *
            omega
          have set := (mem_ids inLeaf).mpr (has (Nat.not_lt.mp early))
          rwa [Nat.add_sub_cancel' (by omega)] at set
      cases result : allocRound true xa index bit' max with
      | done xa' ret =>
          rw [result] at round
          obtain ⟨ok', outcome⟩ := round
          refine ⟨xa', ret, rfl, ok', ?_⟩
          rcases outcome with ⟨b, above, small, high, value, free, before', added⟩ | ⟨value, same, last, all⟩
          · refine .inl ⟨index * idaBitmapBits + b, value, ⟨⟨by omega, high, ?_⟩, ?_⟩, added⟩
            · rwa [mem_ids small]
            · rintro id ⟨above', under, unused⟩
              by_contra earlier
              apply unused
              apply passed id above'
              · simp only [idaBitmapBits] at *
                omega
              · intro reached
                exact before' _ (by omega) (by omega)
          · refine .inr ⟨value, ?_, same⟩
            intro id above' under
            apply passed id above' (by omega)
            intro reached
            exact all _ (by omega) (by omega)
      | next xa' bit'' =>
          rw [result] at round
          obtain ⟨ok', same, all⟩ := round
          have used (id : Nat) (above' : min ≤ id) (top : id < (index + 1) * idaBitmapBits) : id ∈ ids xa' := by
            rw [same]
            apply passed id above' top
            intro reached
            apply all
            · omega
            · simp only [idaBitmapBits] at *
              omega
          obtain ⟨xa'', ret, done, outcome⟩ := ih xa' (index + 1) bit'' ok' (by omega) (by omega) used (by omega)
            (by omega)
          refine ⟨xa'', ret, done, outcome.ok, ?_⟩
          rw [← same]
          exact outcome.outcome

end

theorem upperBound_le (max : BitVec 32) : upperBound max ≤ intMax := by
  unfold upperBound
  split
  · exact le_rfl
  · rename_i positive
    have word := max.isLt
    have sign := BitVec.toInt_eq_toNat_cond max
    simp only [intMax]
    split at sign
    · omega
    · omega

/-- `ida_alloc_range` returns within a number of rounds that its bound fixes. -/
theorem idaAllocRange_ok {xa : Xarray} (ok : Ok xa) (min max : BitVec 32) {rounds : Nat}
    (enough : upperBound max / idaBitmapBits + 2 ≤ rounds) :
    ∃ xa' ret, idaAllocRange true rounds xa min max = some (xa', ret) ∧
      AllocOk xa min.toNat (upperBound max) xa' ret := by
  unfold idaAllocRange
  by_cases negative : min.toInt < 0
  · rw [if_pos negative]
    refine ⟨xa, _, rfl, ok, .inr ⟨rfl, ?_, rfl⟩⟩
    intro id low high
    have bound := upperBound_le max
    have sign := BitVec.toInt_eq_toNat_cond min
    simp only [intMax] at bound
    split at sign
    · omega
    · omega
  · rw [if_neg negative]
    apply allocLoop_ok (upperBound_le max) rounds xa _ _ ok le_rfl (fun _ => rfl)
    · intro id low high
      have join := id_join min.toNat
      omega
    · exact lt_of_lt_of_le (Nat.succ_pos _) enough
    · exact lt_of_lt_of_le enough (Nat.le_add_right ..)

/-! ## Freeing an id -/

/-- A leaf that has lost a bit is not full and stays if it is used. -/
theorem Replaced.removed {xa xa' : Xarray} {i b : Nat} {e : Option Leaf} (ok : Ok xa) (replaced : Replaced xa xa' i e)
    (mark : xa'.mark i = true) (lt : b < idaBitmapBits) (used : ∀ leaf, e = some leaf → leaf.Used)
    (bits : ∀ c < idaBitmapBits, Has xa' i c ↔ c ≠ b ∧ Has xa i c) :
    Ok xa' ∧ ids xa' = ids xa \ {i * idaBitmapBits + b} := by
  have removed := replaced.ids_erase lt bits
  refine ⟨replaced.ok ok ?_ used ?_, removed⟩
  · rw [mark]
    refine iff_of_false (by decide) ?_
    rintro ⟨leaf, rfl, full⟩
    have set := (has_some replaced.entry).mpr (full b lt)
    exact ((bits b lt).mp set).1 rfl
  · intro id member
    rw [removed] at member
    exact ok.small id member.1

theorem idaFree_ok {xa : Xarray} (ok : Ok xa) {id : BitVec 32} (allocated : id.toNat ∈ ids xa) :
    ∃ xa', idaFree xa id = some xa' ∧ Ok xa' ∧ ids xa' = ids xa \ {id.toNat} := by
  have small := ok.small _ allocated
  have positive : ¬ id.toInt < 0 := by
    have sign := BitVec.toInt_eq_toNat_cond id
    simp only [intMax] at small
    split at sign
    · omega
    · omega
  have lt := mod_lt id.toNat
  have join := id_join id.toNat
  obtain ⟨leaf, entry, set⟩ := allocated
  unfold idaFree
  simp only [if_neg positive, entry]
  generalize id.toNat / idaBitmapBits = i at *
  generalize id.toNat % idaBitmapBits = b at *
  rw [← join]
  have has (c : Nat) : Has xa i c ↔ leaf.bits c = true := has_some entry
  cases leaf with
  | value v =>
      rw [Leaf.bits] at set
      have low : b < bitsPerXaValue := by
        by_contra high
        have clear : v.getLsbD b = false := BitVec.getLsbD_of_ge _ _ (Nat.not_lt.mp high)
        rw [clear] at set
        cases set
      have bit (c : Nat) : (v &&& ~~~(1#63 <<< b)).getLsbD c = true ↔ c ≠ b ∧ Has xa i c := by
        rw [has]
        exact bits_and_not low
      have stored := replaced_store xa i
      simp only [if_neg (Nat.not_le.mpr low), set, Bool.true_eq_false, if_false]
      by_cases zero : v &&& ~~~(1#63 <<< b) = 0
      · rw [if_pos zero]
        refine ⟨_, rfl, (stored none).removed ok (Function.update_self ..) lt (by simp) ?_⟩
        intro c _
        rw [← bit, zero]
        exact iff_of_false (not_has_none (stored none).entry) (by simp)
      · rw [if_neg zero]
        refine ⟨_, rfl, (stored (some _)).removed ok (marked_of_value ok entry) lt ?_ ?_⟩
        · intro leaf is
          obtain rfl := Option.some.inj is
          exact used_value_iff.mpr zero
        · intro c _
          rw [has_some (stored (some _)).entry]
          exact bit c
  | bitmap m =>
      have bit (c : Nat) : bitmapClear m b 1 c = true ↔ c ≠ b ∧ Has xa i c := by
        rw [has]
        exact clearBit_iff
      have stored := (replaced_store xa i (some (.bitmap (bitmapClear m b 1)))).setMark
      rw [Leaf.bits] at set
      simp only [set, Bool.true_eq_false, if_false]
      by_cases empty : bitmapEmpty (bitmapClear m b 1) = true
      · rw [if_pos empty]
        have deleted := stored.trans (replaced_store _ i none)
        refine ⟨_, rfl, deleted.removed ok (Function.update_self ..) lt (by simp) ?_⟩
        intro c small
        refine iff_of_false (not_has_none deleted.entry) ?_
        intro left
        exact bitmapEmpty_iff.mp empty ⟨c, small, (bit c).mpr left⟩
      · rw [if_neg empty]
        refine ⟨_, rfl, stored.removed ok (Function.update_self ..) lt ?_ ?_⟩
        · intro leaf is
          obtain rfl := Option.some.inj is
          exact not_not.mp (mt bitmapEmpty_iff.mpr empty)
        · intro c _
          rw [has_some stored.entry]
          exact bit c

/-! ## Every run -/

theorem ok_init : Ok init := by
  refine ⟨?_, ?_, ?_⟩
  · intro i
    refine iff_of_false (by simp [init, MarkedMap.empty]) ?_
    rintro ⟨leaf, entry, -⟩
    cases entry
  · intro i leaf entry
    cases entry
  · rintro id ⟨leaf, entry, -⟩
    cases entry

/-- The states that allocations and frees of allocated ids lead to. -/
inductive Reachable : Xarray → Prop where
  | init : Reachable init
  | alloc {xa xa' : Xarray} {rounds : Nat} {min max : BitVec 32} {ret : Int} :
      Reachable xa → idaAllocRange true rounds xa min max = some (xa', ret) → Reachable xa'
  | free {xa xa' : Xarray} {id : BitVec 32} :
      Reachable xa → id.toNat ∈ ids xa → idaFree xa id = some xa' → Reachable xa'

/-- More rounds do not change a result. -/
theorem allocLoop_mono {mem : Bool} {min max rounds rounds' : Nat} (le : rounds ≤ rounds') {xa : Xarray}
    {start bit : Nat} {r : Xarray × Int} (done : allocLoop mem min max rounds xa start bit = some r) :
    allocLoop mem min max rounds' xa start bit = some r := by
  induction rounds generalizing rounds' xa start bit with
  | zero => cases done
  | succ rounds ih =>
      obtain ⟨more, rfl⟩ := Nat.exists_eq_add_of_le' le
      rw [allocLoop] at done
      rw [← Nat.add_assoc, allocLoop]
      generalize xa.findMarked start (max / idaBitmapBits) = index at *
      generalize (if index > min / idaBitmapBits then 0 else bit) = bit' at *
      split
      · rename_i past
        rwa [if_pos past] at done
      · rename_i inside
        rw [if_neg inside] at done
        split
        · rename_i result
          rwa [result] at done
        · rename_i result
          rw [result] at done
          exact ih (Nat.le_add_left ..) done

theorem idaAllocRange_mono {mem : Bool} {rounds rounds' : Nat} (le : rounds ≤ rounds') {xa : Xarray} {min max : BitVec 32}
    {r : Xarray × Int} (done : idaAllocRange mem rounds xa min max = some r) :
    idaAllocRange mem rounds' xa min max = some r := by
  unfold idaAllocRange at done ⊢
  split
  · rename_i negative
    rwa [if_pos negative] at done
  · rename_i positive
    rw [if_neg positive] at done
    exact allocLoop_mono le done

/-- What an allocation returns, however many rounds it took. -/
theorem idaAllocRange_done {xa xa' : Xarray} (ok : Ok xa) {min max : BitVec 32} {rounds : Nat} {ret : Int}
    (done : idaAllocRange true rounds xa min max = some (xa', ret)) : AllocOk xa min.toNat (upperBound max) xa' ret := by
  obtain ⟨xa'', ret', result, outcome⟩ := idaAllocRange_ok ok min max (Nat.le_add_left _ rounds)
  have same := (idaAllocRange_mono (Nat.le_add_right ..) done).symm.trans result
  cases same
  exact outcome

theorem Reachable.ok {xa : Xarray} (reachable : Reachable xa) : Ok xa := by
  induction reachable with
  | init => exact ok_init
  | alloc _ done ih => exact (idaAllocRange_done ih done).ok
  | free _ allocated done ih =>
      obtain ⟨xa', result, ok, -⟩ := idaFree_ok ih allocated
      cases done.symm.trans result
      exact ok

/-- `max` taken as `INT_MAX` when it is negative as an `int` is the smaller of the two. -/
theorem upperBound_eq_min (max : BitVec 32) : upperBound max = Nat.min max.toNat intMax := by
  have word := max.isLt
  have sign := BitVec.toInt_eq_toNat_cond max
  unfold upperBound
  split
  · rename_i negative
    split at sign
    · omega
    · exact (Nat.min_eq_right (by simp only [intMax]; omega)).symm
  · rename_i positive
    split at sign
    · exact (Nat.min_eq_left (by simp only [intMax]; omega)).symm
    · omega

/-- In every state the marks are those of the full bitmaps and no leaf is empty. -/
theorem ida_refines_set {xa : Xarray} (reachable : Reachable xa) :
    (∀ i, xa.mark i = false ↔ ∃ m, xa.entry i = some (.bitmap m) ∧ ∀ b < idaBitmapBits, m b = true) ∧
      (∀ i m, xa.entry i = some (.bitmap m) → ∃ b < idaBitmapBits, m b = true) ∧
      (∀ i, xa.entry i ≠ some (.value 0)) ∧
      (∀ min max : BitVec 32, ∃ xa' ret,
        (∀ rounds ≥ upperBound max / idaBitmapBits + 2, idaAllocRange true rounds xa min max = some (xa', ret)) ∧
          ((∃ id : Nat, ret = id ∧
              IsLeast {i | min.toNat ≤ i ∧ i ≤ Nat.min max.toNat intMax ∧ i ∉ ids xa} id ∧
              ids xa' = insert id (ids xa)) ∨
            (ret = -enospc ∧ (∀ i, min.toNat ≤ i → i ≤ Nat.min max.toNat intMax → i ∈ ids xa) ∧ ids xa' = ids xa))) ∧
      ∀ id : BitVec 32, id.toNat ∈ ids xa → ∃ xa', idaFree xa id = some xa' ∧ ids xa' = ids xa \ {id.toNat} := by
  have ok := reachable.ok
  refine ⟨?_, ?_, ?_, ?_, ?_⟩
  · intro i
    rw [ok.mark]
    constructor
    · rintro ⟨leaf, entry, full⟩
      cases leaf with
      | value v => exact absurd full (not_full_value v)
      | bitmap m => exact ⟨m, entry, full⟩
    · rintro ⟨m, entry, full⟩
      exact ⟨.bitmap m, entry, full⟩
  · intro i m entry
    exact ok.used i (.bitmap m) entry
  · intro i entry
    exact used_value_iff.mp (ok.used i (.value 0) entry) rfl
  · intro min max
    obtain ⟨xa', ret, done, outcome⟩ := idaAllocRange_ok ok min max le_rfl
    refine ⟨xa', ret, fun rounds enough => idaAllocRange_mono enough done, ?_⟩
    rw [← upperBound_eq_min]
    exact outcome.outcome
  · intro id allocated
    obtain ⟨xa', done, -, removed⟩ := idaFree_ok ok allocated
    exact ⟨xa', done, removed⟩

/-- `ida_alloc_range(&ida, 5, 7)` on an empty IDA. -/
def fiveAllocated : Xarray := init.store 0 (some (.value (1#63 <<< 5)))

theorem fiveAllocated_reachable : Reachable fiveAllocated := by
  apply @Reachable.alloc init fiveAllocated 2 5 7 5 Reachable.init
  have bound : upperBound 7 = 7 := by decide
  rw [idaAllocRange, if_neg (by decide), bound]
  have found : init.findMarked 0 0 = 0 := by decide
  have round : allocRound true init 0 5 7 = .done fiveAllocated 5 := by
    rw [allocRound, show init.entry 0 = none from rfl]
    simp only [if_pos (show 5 < bitsPerXaValue by decide)]
    rfl
  have start : BitVec.toNat (5 : BitVec 32) / idaBitmapBits = 0 := by decide
  have bit : BitVec.toNat (5 : BitVec 32) % idaBitmapBits = 5 := by decide
  have last : 7 / idaBitmapBits = 0 := by decide
  rw [start, bit, allocLoop, last, found]
  simp only [start, if_neg (lt_irrefl 0), Nat.zero_mul, Nat.zero_add, round]
  rfl

theorem fiveAllocated_refines : Reachable fiveAllocated ∧ (5#32).toNat ∈ ids fiveAllocated ∧
    ∃ xa', idaFree fiveAllocated 5#32 = some xa' ∧ ids xa' = ids fiveAllocated \ {5} := by
  have five : (5#32).toNat ∈ ids fiveAllocated := ⟨.value (1#63 <<< 5), rfl, by decide⟩
  exact ⟨fiveAllocated_reachable, five, (ida_refines_set fiveAllocated_reachable).2.2.2.2 5 five⟩

end Miracle.Ida
