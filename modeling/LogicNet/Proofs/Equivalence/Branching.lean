import LogicNet.Proofs.Equivalence.Strategies

/-!
# Deciding by branching

An oracle small enough to be run inside a proof. Variables take their values one after the other, false first.
After each value the clauses that it makes true are dropped and the literals that it makes false are removed
from the rest, so a branch ends as soon as a clause has no literal left.
-/

namespace LogicNet

namespace Branching

/-- The clauses that are left when a variable takes a value. -/
def assign (v : Nat) (b : Bool) (clauses : List Clause) : List Clause :=
  (clauses.filter fun c => !c.contains ⟨v, b⟩).map fun c => c.filter (· ≠ ⟨v, !b⟩)

/-- Values for the variables `v`, …, `v + k - 1` that make all clauses true. -/
def branch : Nat → Nat → List Clause → Option (List Bool)
  | 0, _, clauses => if clauses.isEmpty then some [] else none
  | k + 1, v, clauses =>
    if clauses.contains [] then none
    else
      match branch k (v + 1) (assign v false clauses) with
      | some bits => some (false :: bits)
      | none => (branch k (v + 1) (assign v true clauses)).map (true :: ·)

/-- Branch over all variables. Clauses over variables that were not handed out are refused. -/
def oracle : Oracle := fun n clauses =>
  if clauses.all (·.isBelow n) then .ok ((branch n 0 clauses).map List.toArray)
  else .error (.refusal (.solver "no such variable"))

variable {v : Nat} {b : Bool} {clauses : List Clause} {value : Nat → Bool}

theorem mem_assign {d : Clause} :
    d ∈ assign v b clauses ↔ ∃ c ∈ clauses, ⟨v, b⟩ ∉ c ∧ c.filter (· ≠ ⟨v, !b⟩) = d := by
  simp [assign, and_assoc]

/-- A false literal can be left out. -/
theorem holds_filter (given : value v = b) (c : Clause) :
    Clause.holds value (c.filter (· ≠ ⟨v, !b⟩)) = Clause.holds value c := by
  have fails : Lit.holds value ⟨v, !b⟩ = false := by simp [Lit.holds, given]
  refine Bool.eq_iff_iff.mpr ?_
  simp only [Clause.holds, List.any_eq_true, List.mem_filter, decide_eq_true_eq]
  constructor
  · rintro ⟨l, ⟨mem, _⟩, holds⟩
    exact ⟨l, mem, holds⟩
  · rintro ⟨l, mem, holds⟩
    refine ⟨l, ⟨mem, fun same => ?_⟩, holds⟩
    rw [same, fails] at holds
    cases holds

/-- Nothing is lost when a variable takes the value it has anyway. -/
theorem holds_assign (given : value v = b) :
    (∀ d ∈ assign v b clauses, Clause.holds value d = true) ↔ ∀ c ∈ clauses, Clause.holds value c = true := by
  constructor
  · intro left c mem
    by_cases settled : ⟨v, b⟩ ∈ c
    · exact List.any_eq_true.mpr ⟨_, settled, by simp [Lit.holds, given]⟩
    · rw [← holds_filter given]
      exact left _ (mem_assign.mpr ⟨c, mem, settled, rfl⟩)
  · intro all d mem
    obtain ⟨c, inside, _, rfl⟩ := mem_assign.mp mem
    rw [holds_filter given]
    exact all c inside

/-- All variables are among the `k` ones from `v` on. -/
def Within (v k : Nat) (clauses : List Clause) : Prop := ∀ c ∈ clauses, ∀ l ∈ c, v ≤ l.var ∧ l.var < v + k

theorem Within.assign {k : Nat} (h : Within v (k + 1) clauses) : Within (v + 1) k (assign v b clauses) := by
  intro d mem l inside
  obtain ⟨c, old, unsettled, rfl⟩ := mem_assign.mp mem
  obtain ⟨kept, other⟩ := List.mem_filter.mp inside
  obtain ⟨low, high⟩ := h c old l kept
  have ne : l.var ≠ v := by
    rintro rfl
    -- a literal of the variable is one of the two that are gone
    by_cases sign : l.positive = b
    · exact unsettled (sign ▸ kept)
    · exact of_decide_eq_true other (congrArg (Lit.mk l.var) (Bool.eq_not.mpr sign))
  omega

/-- What a branch finds makes all clauses true. -/
theorem holds_of_branch {k : Nat} {bits : List Bool} (found : branch k v clauses = some bits) :
    bits.length = k ∧ ∀ value : Nat → Bool, (∀ i b, bits[i]? = some b → value (v + i) = b) →
      ∀ c ∈ clauses, Clause.holds value c = true := by
  induction k generalizing v clauses bits with
  | zero =>
    simp only [branch, List.isEmpty_iff, Option.ite_none_right_eq_some, Option.some.injEq] at found
    obtain ⟨rfl, rfl⟩ := found
    exact ⟨rfl, by simp⟩
  | succ k ih =>
    have step {b : Bool} {rest : List Bool} (found : branch k (v + 1) (assign v b clauses) = some rest) :
        (b :: rest).length = k + 1 ∧ ∀ value : Nat → Bool,
          (∀ i b', (b :: rest)[i]? = some b' → value (v + i) = b') → ∀ c ∈ clauses, Clause.holds value c = true := by
      obtain ⟨length, holds⟩ := ih found
      refine ⟨congrArg Nat.succ length, fun value values => ?_⟩
      refine (holds_assign (values 0 b rfl)).mp (holds value fun i b' here => ?_)
      rw [Nat.add_assoc, Nat.add_comm 1]
      exact values (i + 1) b' here
    unfold branch at found
    split at found
    case isTrue => cases found
    case isFalse =>
      split at found
      case h_1 rest low =>
        cases found
        exact step low
      case h_2 =>
        obtain ⟨rest, high, rfl⟩ := Option.map_eq_some_iff.mp found
        exact step high

/-- Where a branch finds nothing, every assignment makes a clause false. -/
theorem not_holds_of_branch {k : Nat} (within : Within v k clauses) (refuted : branch k v clauses = none)
    (value : Nat → Bool) : ¬∀ c ∈ clauses, Clause.holds value c = true := by
  induction k generalizing v clauses with
  | zero =>
    intro all
    cases clauses with
    | nil => cases refuted
    | cons c rest =>
      obtain ⟨l, mem, _⟩ := List.any_eq_true.mp (all c List.mem_cons_self)
      obtain ⟨low, high⟩ := within c List.mem_cons_self l mem
      omega
  | succ k ih =>
    unfold branch at refuted
    split at refuted
    case isTrue empty =>
      intro all
      cases all [] (List.contains_iff_mem.mp empty)
    case isFalse =>
      split at refuted
      case h_1 => cases refuted
      case h_2 low =>
        have high := Option.map_eq_none_iff.mp refuted
        cases given : value v with
        | false => exact fun all => ih within.assign low ((holds_assign given).mpr all)
        | true => exact fun all => ih within.assign high ((holds_assign given).mpr all)

theorem oracle_decides : Oracle.Decides oracle where
  sound n clauses refuted value := by
    unfold oracle at refuted
    split at refuted
    case isFalse => cases refuted
    case isTrue below =>
      have none : branch n 0 clauses = none := by simpa using refuted
      have within : Within 0 n clauses := by
        intro c mem l inside
        have lt := of_decide_eq_true (List.all_eq_true.mp (List.all_eq_true.mp below c mem) l inside)
        omega
      by_contra always
      refine not_holds_of_branch within none value fun c mem => ?_
      by_contra low
      exact always ⟨c, mem, Bool.eq_false_iff.mpr low⟩
  model := by
    intro n clauses m found
    unfold oracle at found
    split at found
    case isFalse => cases found
    case isTrue =>
      obtain ⟨bits, here, rfl⟩ := Option.map_eq_some_iff.mp (Except.ok.inj found)
      obtain ⟨length, holds⟩ := holds_of_branch here
      refine ⟨by simp [length], List.all_eq_true.mpr (holds _ fun i b at_ => ?_)⟩
      simp [Model.value, at_]
  answers _ below := ⟨_, if_pos (List.all_eq_true.mpr below)⟩
  always below := ⟨_, if_pos (List.all_eq_true.mpr below)⟩

end Branching

end LogicNet
