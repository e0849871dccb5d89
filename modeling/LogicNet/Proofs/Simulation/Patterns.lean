import LogicNet.Proofs.Equivalence.Exhaustive

/-!
# All assignments, each once

A word number and a lane are the high and the low bits of one number, and the inputs have the bits of that number
(`lane_patternWord`). So to enumerate the words and the lanes is to count, and an assignment is met when its number is.

**The law** (`exhaustivePatterns_enumerates`): for at most sixty-four inputs, every assignment stands in exactly one
word and lane, where lanes are counted up to the number of assignments. Fewer than six inputs do not fill a word, and
the lanes beyond repeat the others.

The number of words of sixty-five inputs is still a 64-bit number, but no list of that length can be addressed
(`exhaustivePatterns_sixtyFive`).
-/

namespace LogicNet

/-- A word number and a lane that count are the high and the low bits of a number that counts. -/
theorem place_iff {n w p : Nat} (lt : p < 64) : w < 2 ^ (n - 6) ∧ p < min 64 (2 ^ n) ↔ 64 * w + p < 2 ^ n := by
  rcases Nat.lt_or_ge n 6 with few | many
  · have small : 2 ^ n ≤ 2 ^ 5 := Nat.pow_le_pow_right (by omega) (by omega)
    rw [Nat.sub_eq_zero_of_le (Nat.le_of_lt few), Nat.pow_zero]
    omega
  · have split : 2 ^ n = 64 * 2 ^ (n - 6) := by
      rw [show (64 : Nat) = 2 ^ 6 from rfl, ← Nat.pow_add, Nat.add_sub_cancel' many]
    omega

/-- In a lane of a word the inputs have the bits of the number of the place. -/
theorem map_lane_patternWord {n w p : Nat} (lt : p < 64) :
    ((List.range n).map (patternWord w)).map (lane · p) = (List.range n).map (64 * w + p).testBit := by
  rw [List.map_map]
  exact List.map_congr_left fun i _ => lane_patternWord lt

/-- The bits up to the size of a number determine it. -/
theorem eq_of_map_testBit_eq {n a b : Nat} (ltA : a < 2 ^ n) (ltB : b < 2 ^ n)
    (same : (List.range n).map a.testBit = (List.range n).map b.testBit) : a = b := by
  refine Nat.eq_of_testBit_eq fun i => ?_
  rcases Nat.lt_or_ge i n with low | high
  · exact List.map_inj_left.mp same i (List.mem_range.mpr low)
  · have beyond : 2 ^ n ≤ 2 ^ i := Nat.pow_le_pow_right (by omega) high
    rw [Nat.testBit_lt_two_pow (by omega), Nat.testBit_lt_two_pow (by omega)]

theorem mapM_laneOrBreach {p : Nat} (lt : p < 64) (row : List Word) :
    row.mapM (laneOrBreach · p) = .ok (row.map (lane · p)) := Result.mapM_of_each fun _ _ => if_pos lt

/-- The rows in which assignments of `n` inputs are looked up. -/
theorem getElem?_patternRows {n w : Nat} {row : List Word} : (Checker.patternRows n)[w]? = some row ↔
    w < 2 ^ (n - 6) ∧ row = (List.range n).map (patternWord w) := by
  rw [Checker.patternRows, List.getElem?_map, Option.map_eq_some_iff, wordCount_eq]
  constructor
  · rintro ⟨w', found, rfl⟩
    obtain ⟨lt, rfl⟩ := List.getElem?_eq_some_iff.mp found
    rw [List.length_range] at lt
    rw [List.getElem_range]
    exact ⟨lt, rfl⟩
  · rintro ⟨lt, rfl⟩
    exact ⟨w, List.getElem?_range lt, rfl⟩

/-- Some place has this assignment, and only one. -/
theorem existsUnique_place {n : Nat} {bits : List Bool} (length : bits.length = n) :
    ∃! place : Nat × Nat, place.2 < min 64 (2 ^ n) ∧
      ∃ row, (Checker.patternRows n)[place.1]? = some row ∧ row.mapM (laneOrBreach · place.2) = .ok bits := by
  obtain ⟨row, mem, _, p, lanes, reads⟩ := Checker.exists_row n length
  have lt : p < 64 := Nat.lt_of_lt_of_le lanes (Checker.laneCount_le n)
  obtain ⟨w, found⟩ := List.mem_iff_getElem?.mp mem
  obtain ⟨counts, rfl⟩ := getElem?_patternRows.mp found
  have counted : p < min 64 (2 ^ n) := by
    rw [Checker.laneCount_eq] at lanes
    have := Nat.pow_le_pow_right (n := 2) (by omega) (Nat.min_le_left n 6)
    omega
  refine ⟨(w, p), ⟨counted, _, found, by rw [mapM_laneOrBreach lt, reads]⟩, ?_⟩
  rintro ⟨w', p'⟩ ⟨counted', row', found', reads'⟩
  obtain ⟨counts', rfl⟩ := getElem?_patternRows.mp found'
  have lt' : p' < 64 := by omega
  rw [mapM_laneOrBreach lt', Except.ok.injEq, ← reads, map_lane_patternWord lt', map_lane_patternWord lt] at reads'
  have same := eq_of_map_testBit_eq ((place_iff lt').mp ⟨counts', counted'⟩) ((place_iff lt).mp ⟨counts, counted⟩)
    reads'
  simp only [Prod.mk.injEq]
  omega

/-- With fewer than six inputs the lanes repeat. -/
theorem mapM_laneOrBreach_mod {n : Nat} (few : n < 6) {row : List Word} (mem : row ∈ Checker.patternRows n) {p : Nat}
    (lt : p < 64) : row.mapM (laneOrBreach · p) = row.mapM (laneOrBreach · (p % 2 ^ n)) := by
  obtain ⟨w, found⟩ := List.mem_iff_getElem?.mp mem
  obtain ⟨single, rfl⟩ := getElem?_patternRows.mp found
  rw [Nat.sub_eq_zero_of_le (Nat.le_of_lt few), Nat.pow_zero, Nat.lt_one_iff] at single
  subst single
  have le := Nat.mod_le p (2 ^ n)
  rw [mapM_laneOrBreach lt, mapM_laneOrBreach (by omega), map_lane_patternWord lt, map_lane_patternWord (by omega)]
  congr 1
  refine List.map_congr_left fun i inside => ?_
  rw [Nat.mul_zero, Nat.zero_add, Nat.zero_add, Nat.testBit_mod_two_pow, decide_eq_true (List.mem_range.mp inside),
    Bool.true_and]

/-- ALL ASSIGNMENTS, EACH ONCE. For at most sixty-four inputs there are as many rows as words are needed, each with a
word for every input. Every assignment is read in exactly one row and one of the lanes that are counted, and with fewer
than six inputs the lanes beyond read the same as those. -/
theorem exhaustivePatterns_enumerates {n : Nat} (room : n ≤ 64) : ∃ rows, exhaustivePatterns n = .ok rows ∧
    rows.length = 2 ^ (n - 6) ∧ (∀ row ∈ rows, row.length = n) ∧
    (∀ bits : List Bool, bits.length = n → ∃! place : Nat × Nat, place.2 < min 64 (2 ^ n) ∧
      ∃ row, rows[place.1]? = some row ∧ row.mapM (laneOrBreach · place.2) = .ok bits) ∧
    (n < 6 → ∀ row ∈ rows, ∀ p < 64, row.mapM (laneOrBreach · p) = row.mapM (laneOrBreach · (p % 2 ^ n))) := by
  refine ⟨_, Checker.exhaustivePatterns_eq_ok.mpr ⟨room, rfl⟩, ?_, ?_, ?_, ?_⟩
  · rw [Checker.patternRows, List.length_map, List.length_range, wordCount_eq]
  · exact fun _ mem => Checker.length_of_mem_patternRows mem
  · exact fun bits length => existsUnique_place length
  · exact fun few row mem p lt => mapM_laneOrBreach_mod few mem lt

/-- Seven inputs need two words, and the assignment in which they are all set is in one place. -/
theorem exhaustivePatterns_seven : ∃ rows, exhaustivePatterns 7 = .ok rows ∧ rows.length = 2 ∧
    ∃! place : Nat × Nat, place.2 < 64 ∧
      ∃ row, rows[place.1]? = some row ∧ row.mapM (laneOrBreach · place.2) = .ok (List.replicate 7 true) := by
  obtain ⟨rows, made, count, _, places, _⟩ := @exhaustivePatterns_enumerates 7 (by decide)
  exact ⟨rows, made, count, places _ rfl⟩

/-- The words of sixty-five inputs can be numbered by a word, and there is no list of them. -/
theorem exhaustivePatterns_sixtyFive : wordCount 65 < 2 ^ 64 ∧ exhaustivePatterns 65 = .error (.breach .capacity) :=
  ⟨by decide, Checker.exhaustivePatterns_outgrown (by decide) (by decide)⟩

end LogicNet
