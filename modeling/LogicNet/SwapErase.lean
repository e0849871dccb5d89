/-!
# Erasing by swapping

Lists whose order is kept but carries no meaning (the gates of a part, the fan-out of a gate) lose
an element by moving the last one into its place. The result is the list without that element, in
another order: `swapEraseAt_perm`, `swapErase_perm`.
-/

namespace LogicNet

variable {α : Type}

/-- Drop the element at a position; the last one takes its place. -/
def swapEraseAt (xs : List α) (i : Nat) : List α :=
  match xs.getLast? with
  | some last => (xs.set i last).dropLast
  | none => []

/-- Drop the first occurrence of `x`; the last element takes its place. -/
def swapErase [DecidableEq α] (x : α) (xs : List α) : List α :=
  match xs.idxOf? x with
  | some i => swapEraseAt xs i
  | none => xs

theorem swapEraseAt_concat {xs : List α} {last : α} {i : Nat} (le : i ≤ xs.length) :
    swapEraseAt (xs ++ [last]) i = xs.set i last := by
  simp only [swapEraseAt, List.getLast?_concat]
  rcases Nat.lt_or_eq_of_le le with inside | rfl
  · rw [List.set_append_left _ _ inside, List.dropLast_concat]
  · simp [List.set_eq_of_length_le]

theorem swapEraseAt_perm {xs : List α} {i : Nat} (inside : i < xs.length) :
    (swapEraseAt xs i).Perm (xs.eraseIdx i) := by
  rcases List.eq_nil_or_concat xs with rfl | ⟨ys, last, rfl⟩
  · cases inside
  · rw [List.concat_eq_append, List.length_append, List.length_singleton] at inside
    rw [List.concat_eq_append, swapEraseAt_concat (Nat.le_of_lt_succ inside)]
    rcases Nat.lt_or_eq_of_le (Nat.le_of_lt_succ inside) with before | rfl
    · rw [List.eraseIdx_append_of_lt_length before, List.set_eq_take_append_cons_drop, if_pos before,
        List.eraseIdx_eq_take_drop_succ, List.append_assoc]
      exact (List.perm_append_singleton last _).symm.append_left _
    · simp [List.eraseIdx_append_of_length_le, List.set_eq_of_length_le]

theorem swapErase_perm [DecidableEq α] (x : α) (xs : List α) :
    (swapErase x xs).Perm (xs.erase x) := by
  rw [List.erase_eq_eraseIdx, swapErase]
  cases found : xs.idxOf? x with
  | none => exact .refl xs
  | some i =>
    obtain ⟨inside, _⟩ := List.idxOf?_eq_some_iff.mp found
    exact swapEraseAt_perm inside

/-- Every place but the vacated one and the last keeps its element. -/
theorem getElem?_swapEraseAt {xs : List α} {i j : Nat} (inside : i < xs.length) :
    (swapEraseAt xs i)[j]? =
      if j + 1 < xs.length then if i = j then xs.getLast? else xs[j]? else none := by
  rcases List.eq_nil_or_concat xs with rfl | ⟨ys, last, rfl⟩
  · cases inside
  · rw [List.concat_eq_append, List.length_append, List.length_singleton] at *
    rw [swapEraseAt_concat (Nat.le_of_lt_succ inside), List.getElem?_set, List.getLast?_concat]
    by_cases before : j < ys.length
    · rw [if_pos (Nat.succ_lt_succ before), List.getElem?_append_left before]
      split
      · next same => rw [same, if_pos before]
      · rfl
    · have past : ys[j]? = none := List.getElem?_eq_none (Nat.le_of_not_lt before)
      rw [if_neg (fun lt => before (Nat.lt_of_succ_lt_succ lt)), past]
      split
      · next same => rw [same, if_neg before]
      · rfl

end LogicNet
