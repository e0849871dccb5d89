import Mathlib.Algebra.Order.BigOperators.Group.List
import Mathlib.Algebra.Order.Group.Nat
import Mathlib.Data.List.Perm.Subperm
import LogicNet.Proofs.Cnf.Appending
import LogicNet.Proofs.Cnf.Encode

/-!
# The range of literals

A literal can be made of a variable up to a largest one. Variables are handed out beyond it all the same, and an
encoding stops at the first gate whose equation needs a literal that cannot be made.

**The law** (`Limits`): an encoding is its draft, stopped where it leaves the range. What it returns is the draft. If
there is a draft, it returns unless one of the new literals cannot be made, and then it stops for that reason and no
other. Sequences and loops keep this (`Limits.bind`, `Limits.foldlM`), so views have it because gates have it.

A formula whose clauses mention only variables that were handed out stays in range while its SIZE does
(`Fit.isNumberedFrom`), and the size is counted from the gates, before anything is encoded (`size_draftView_le`).
-/

namespace LogicNet

open Std

namespace Formula

variable {f f₁ f₂ : Formula} {n : Nat} {new : Array Clause}

/-! ## Clauses in range -/

theorem isNumberedFrom_iff :
    f.isNumberedFrom n = true ↔ ∀ c ∈ f.clauses.toList.drop n, c.isBelow (Lit.largestVar + 1) = true := by
  rw [isNumberedFrom, Array.all_iff_forall]
  simp only [List.mem_drop_iff_getElem]
  constructor
  · rintro all c ⟨i, lt, rfl⟩
    rw [Nat.add_comm] at lt
    exact all (n + i) lt ⟨Nat.le_add_right n i, lt⟩
  · rintro all i lt ⟨le, _⟩
    obtain ⟨j, rfl⟩ := Nat.exists_eq_add_of_le le
    exact all _ ⟨j, Nat.add_comm n j ▸ lt, rfl⟩

/-- Of clauses that were appended, the new ones have to be in range. -/
theorem isNumberedFrom_append (grown : f₂.clauses = f₁.clauses ++ new) :
    f₂.isNumberedFrom f₁.clauses.size = new.all (·.isBelow (Lit.largestVar + 1)) := by
  rw [Bool.eq_iff_iff, isNumberedFrom_iff, Array.all_eq_true', grown, Array.toList_append, ← Array.length_toList,
    List.drop_left]
  simp only [Array.mem_toList_iff]

/-- Clauses that are appended in two steps are in range if those of each step are. -/
theorem isNumberedFrom_split (grown : f₂.clauses = f₁.clauses ++ new) (le : n ≤ f₁.clauses.size) :
    f₂.isNumberedFrom n = (f₁.isNumberedFrom n && f₂.isNumberedFrom f₁.clauses.size) := by
  have earlier : n ≤ f₁.clauses.toList.length := le
  rw [isNumberedFrom_append grown, Bool.eq_iff_iff, Bool.and_eq_true, isNumberedFrom_iff, isNumberedFrom_iff, grown,
    Array.toList_append, List.drop_append_of_le_length earlier, List.forall_mem_append, Array.all_eq_true']
  simp only [Array.mem_toList_iff]

theorem requireNumberedFrom_eq :
    f.requireNumberedFrom n = if f.isNumberedFrom n then .ok f else .error (.breach .unnumberedVariable) := by
  unfold requireNumberedFrom Result.require
  cases f.isNumberedFrom n <;> rfl

@[simp] theorem requireNumberedFrom_eq_ok : f₁.requireNumberedFrom n = .ok f₂ ↔ f₁.isNumberedFrom n = true ∧ f₁ = f₂ := by
  rw [requireNumberedFrom_eq]
  cases f₁.isNumberedFrom n <;> simp

/-- A formula that is not too large is in range. -/
theorem Fit.isNumberedFrom (fit : f.Fit) (le : f.size ≤ Lit.largestVar + 1) (n : Nat) : f.isNumberedFrom n = true := by
  refine isNumberedFrom_iff.mpr fun c mem => List.all_eq_true.mpr fun l inside => decide_eq_true ?_
  exact Nat.lt_of_lt_of_le (fit.closed c (Array.mem_def.mpr (List.mem_of_mem_drop mem)) l inside) le

/-! ## Limited runs -/

/-- `limited` is `draft`, which appends clauses to `f`, stopped if one of their literals cannot be made. -/
structure Limits (f : Formula) (draft limited : Result Formula) : Prop where
  draft_of : ∀ f', limited = .ok f' → draft = .ok f'
  limited_of : ∀ f', draft = .ok f' → limited = f'.requireNumberedFrom f.clauses.size
  keeps : ∀ f', draft = .ok f' → ∃ new, f'.clauses = f.clauses ++ new

namespace Limits

variable {draft limited : Result Formula}

/-- A run that stopped for another reason has no draft. -/
theorem error (e : Fault) : Limits f (.error e) (.error e) := ⟨nofun, nofun, nofun⟩

theorem refl (f : Formula) : Limits f (.ok f) (.ok f) where
  draft_of f' same := same
  limited_of f' same := by
    cases same
    have nothing := @isNumberedFrom_append f f #[] (by simp)
    exact (requireNumberedFrom_eq_ok.mpr ⟨nothing.trans Array.all_empty, rfl⟩).symm
  keeps f' same := by
    cases same
    exact ⟨#[], by simp⟩

/-- The test after a draft. -/
theorem require (keeps : ∀ f', draft = .ok f' → ∃ new, f'.clauses = f.clauses ++ new) :
    Limits f draft (draft >>= fun f' => f'.requireNumberedFrom f.clauses.size) where
  draft_of f' made := by
    obtain ⟨f₁, drafted, made⟩ := Result.bind_eq_ok.mp made
    rw [drafted, (requireNumberedFrom_eq_ok.mp made).2]
  limited_of f' drafted := by rw [drafted, Result.ok_bind]
  keeps := keeps

/-- One limited run after another: the first literal that cannot be made stops them. -/
theorem bind {draft' limited' : Formula → Result Formula} (first : Limits f draft limited)
    (second : ∀ f₁, draft = .ok f₁ → Limits f₁ (draft' f₁) (limited' f₁)) :
    Limits f (draft >>= draft') (limited >>= limited') where
  draft_of f' made := by
    obtain ⟨f₁, made, rest⟩ := Result.bind_eq_ok.mp made
    have drafted := first.draft_of f₁ made
    exact Result.bind_eq_ok.mpr ⟨f₁, drafted, (second f₁ drafted).draft_of f' rest⟩
  limited_of f' drafted := by
    obtain ⟨f₁, drafted, rest⟩ := Result.bind_eq_ok.mp drafted
    obtain ⟨new, grown⟩ := first.keeps f₁ drafted
    obtain ⟨_, grown'⟩ := (second f₁ drafted).keeps f' rest
    have le : f.clauses.size ≤ f₁.clauses.size := by rw [grown, Array.size_append]; exact Nat.le_add_right ..
    rw [first.limited_of f₁ drafted, requireNumberedFrom_eq, requireNumberedFrom_eq, isNumberedFrom_split grown' le]
    cases f₁.isNumberedFrom f.clauses.size with
    | false => rfl
    | true =>
      rw [if_pos rfl, Result.ok_bind, (second f₁ drafted).limited_of f' rest, requireNumberedFrom_eq, Bool.true_and]
  keeps f' drafted := by
    obtain ⟨f₁, drafted, rest⟩ := Result.bind_eq_ok.mp drafted
    obtain ⟨new, grown⟩ := first.keeps f₁ drafted
    obtain ⟨new', grown'⟩ := (second f₁ drafted).keeps f' rest
    exact ⟨new ++ new', by rw [grown', grown, Array.append_assoc]⟩

theorem foldlM {α : Type} {draft limited : Formula → α → Result Formula}
    (each : ∀ f x, Limits f (draft f x) (limited f x)) (f : Formula) (xs : List α) :
    Limits f (xs.foldlM draft f) (xs.foldlM limited f) := by
  induction xs generalizing f with
  | nil => exact .refl f
  | cons x xs ih =>
    simp only [List.foldlM_cons]
    exact (each f x).bind fun f₁ _ => ih f₁

end Limits

end Formula

namespace Encode

open Formula

variable {f f' : Formula}

theorem limits_gate (net : Netlist) (index version : Nat) (f : Formula) (g : Gate) :
    Limits f (draftGate net index version f g) (gate net index version f g) := by
  refine Limits.require fun f' drafted => ?_
  obtain ⟨f₀, _, rfl⟩ := exists_draftGate_bare drafted
  exact ⟨f₀.clauses, rfl⟩

/-- ENCODING A VIEW STOPS ONLY FOR WANT OF LITERALS, where it can be drafted, and otherwise returns the draft. -/
theorem limits_view (v : View) (index version : Nat) (f : Formula) :
    Limits f (draftView v index version f) (view v index version f) := by
  unfold draftView view
  cases v.orderedGates with
  | error e => exact .error e
  | ok order =>
    refine Limits.foldlM (fun f id => ?_) f order
    cases v.net.gate id with
    | error e => exact .error e
    | ok g => exact limits_gate v.net index version f g

end Encode

/-! ## Sizes -/

namespace Formula

variable (f : Formula)

theorem size_var_le (s : Site) (version : Nat) : (f.var s version).2.size ≤ f.size + 1 := by
  simp only [var]
  cases f.vars[(⟨f.connected s, version⟩ : Moment)]? with
  | none => exact Nat.le_refl _
  | some v => exact Nat.le_succ _

theorem size_varsOf_le (keys : List (Site × Nat)) : (f.varsOf keys).2.size ≤ f.size + keys.length := by
  induction keys generalizing f with
  | nil => exact Nat.le_refl _
  | cons k keys ih =>
    have first := f.size_var_le k.1 k.2
    have rest := ih (f.var k.1 k.2).2
    simp only [varsOf, List.length_cons]
    omega

section Plain

variable (y a b c : Nat) (xs : List Nat) (sign : Bool)

@[simp] theorem size_fix : (f.fix y sign).size = f.size := rfl

@[simp] theorem size_buffer : (f.buffer y a sign).size = f.size := size_addAll f _

@[simp] theorem size_conj : (f.conj y xs sign).size = f.size := size_addAll f _

@[simp] theorem size_disj : (f.disj y xs sign).size = f.size := size_addAll f _

@[simp] theorem size_parity : (f.parity y a b sign).size = f.size := size_addAll f _

@[simp] theorem size_select : (f.select y a b c).size = f.size := size_addAll f _

@[simp] theorem size_majority3 : (f.majority3 y a b c).size = f.size := size_addAll f _

end Plain

theorem size_parityFrom_le (y : Nat) (sign : Bool) (a : Nat) (rest : List Nat) :
    (f.parityFrom y sign a rest).size ≤ f.size + rest.length := by
  fun_induction parityFrom f y sign a rest with
  | case1 f a => exact Nat.le_of_eq (size_buffer f y a sign)
  | case2 f a b => exact Nat.le_succ_of_le (Nat.le_of_eq (size_parity f y a b sign))
  | case3 f a b rest more t f₁ eq ih =>
    obtain ⟨rfl, rfl⟩ := Prod.mk.inj eq
    rw [size_parity] at ih
    rw [List.length_cons, ← Nat.add_assoc, Nat.add_right_comm]
    exact ih

theorem size_raiseLevel_le (level : Option Nat) (reason : Nat) : (f.raiseLevel level reason).2.size ≤ f.size + 1 := by
  cases level with
  | none => exact Nat.le_succ _
  | some c => exact Nat.le_of_eq (size_disj ..)

/-- Each level takes at most two variables for an operand, and none is lost. -/
theorem countAbove_le (x : Nat) (below : Option Nat) (levels : List (Option Nat)) :
    (f.countAbove x below levels).2.size ≤ f.size + 2 * levels.length ∧
      (f.countAbove x below levels).1.length = levels.length := by
  induction levels generalizing f below with
  | nil => cases below <;> exact ⟨Nat.le_refl _, rfl⟩
  | cons level levels ih =>
    cases below with
    | none =>
      obtain ⟨le, same⟩ := ih f level
      exact ⟨by simp only [countAbove, List.length_cons]; omega, congrArg Nat.succ same⟩
    | some c =>
      have raised := size_raiseLevel_le (f.fresh.2.conj f.size [c, x] true) level f.size
      obtain ⟨le, same⟩ := ih ((f.fresh.2.conj f.size [c, x] true).raiseLevel level f.size).2 level
      rw [size_conj] at raised
      refine ⟨?_, congrArg Nat.succ same⟩
      simp only [countAbove, fresh, List.length_cons] at *
      omega

theorem countOperand_le (x : Nat) (levels : List (Option Nat)) :
    (f.countOperand x levels).2.size ≤ f.size + 2 * levels.length ∧
      (f.countOperand x levels).1.length = levels.length := by
  cases levels with
  | nil => exact ⟨Nat.le_refl _, rfl⟩
  | cons level levels =>
    have raised := f.size_raiseLevel_le level x
    obtain ⟨le, same⟩ := countAbove_le (f.raiseLevel level x).2 x level levels
    exact ⟨by simp only [countOperand, List.length_cons]; omega, congrArg Nat.succ same⟩

theorem size_countAll_le (levels : List (Option Nat)) (xs : List Nat) :
    (f.countAll levels xs).2.size ≤ f.size + 2 * levels.length * xs.length := by
  induction xs generalizing f levels with
  | nil => exact Nat.le_refl _
  | cons x xs ih =>
    obtain ⟨le, same⟩ := f.countOperand_le x levels
    have rest := ih (f.countOperand x levels).2 (f.countOperand x levels).1
    rw [same] at rest
    simp only [countAll, List.length_cons, Nat.mul_succ]
    omega

theorem size_atLeast_le (y : Nat) (xs : List Nat) (k : Nat) : (f.atLeast y xs k).size ≤ f.size + 2 * k * xs.length := by
  have counted := f.size_countAll_le (List.replicate k none) xs
  rw [List.length_replicate] at counted
  simp only [atLeast]
  cases (f.countAll (List.replicate k none) xs).1.getLast?.join with
  | none => exact counted
  | some c =>
    rw [size_buffer]
    exact counted

theorem size_majority_le {f f' : Formula} {y : Nat} {xs : List Nat} (made : f.majority y xs = .ok f') :
    f'.size ≤ f.size + (xs.length + 1) * xs.length := by
  unfold majority at made
  split at made
  · split at made
    · cases made
      rw [size_buffer]
      exact Nat.le_add_right ..
    · cases made
      rw [size_majority3]
      exact Nat.le_add_right ..
    · cases made
      refine Nat.le_trans (size_atLeast_le f y xs _) (Nat.add_le_add_left ?_ _)
      exact Nat.mul_le_mul_right _ (Nat.mul_div_le _ _)
  · cases made

end Formula

/-- The variables that a function of so many operands takes for itself, at most. -/
def GateFn.spares (fn : GateFn) (arity : Nat) : Nat :=
  match fn with
  | .xor | .xnor => arity
  | .majority => (arity + 1) * arity
  | .latch => 1
  | .flipFlopRS => 2
  | _ => 0

/-- The variables that a gate takes at one version, at most: for itself, its operands and its function. -/
def Gate.demand (g : Gate) : Nat := 1 + g.arity + g.fn.spares g.arity

/-- The variables that all gates of a view take. -/
def View.demand (v : View) : Nat := (v.part.gates.map fun id => (v.net.gate? id).elim 0 Gate.demand).sum

/-- Fewer gates demand no more. -/
theorem View.demand_le_of_subset {v w : View} (same : v.net = w.net) (nodup : v.part.gates.Nodup)
    (inside : v.part.gates ⊆ w.part.gates) : v.demand ≤ w.demand := by
  obtain ⟨gates, perm, sublist⟩ := nodup.subperm inside
  calc
    v.demand = (gates.map fun id => (v.net.gate? id).elim 0 Gate.demand).sum := (perm.map _).sum_nat.symm
    _ ≤ w.demand := by
      rw [same]
      exact (sublist.map _).sum_le_sum fun _ _ => Nat.zero_le _

namespace Encode

open Formula

variable {f f' : Formula}

theorem size_equation_le {g : Gate} {index version y : Nat} {xs : List Nat}
    (made : equation f g index version y xs = .ok f') : f'.size ≤ f.size + g.fn.spares xs.length := by
  unfold equation at made
  cases fn : g.fn <;> rw [fn] at made <;> simp only [GateFn.spares]
  case output | buffer =>
    cases xs with
    | nil =>
      cases made
      exact Nat.le_refl _
    | cons a rest =>
      cases made
      simp
  case xor | xnor =>
    cases xs with
    | nil => cases made
    | cons a rest =>
      cases made
      exact Nat.le_succ_of_le (size_parityFrom_le f y _ a rest)
  case majority => exact size_majority_le made
  case latch =>
    cases version with
    | zero =>
      cases made
      exact Nat.le_succ _
    | succ before =>
      cases made
      exact size_var_le f ⟨index, g.id⟩ before
  case flipFlop | flipFlopRS =>
    cases version with
    | zero =>
      cases made
      exact Nat.le_add_right ..
    | succ before =>
      cases made
      simp
  case custom => cases made
  all_goals
    cases made
    simp

theorem size_draftGate_le {net : Netlist} {index version : Nat} {g : Gate}
    (made : draftGate net index version f g = .ok f') : f'.size ≤ f.size + g.demand := by
  have own := f.size_var_le ⟨index, g.id⟩ version
  have operands := size_varsOf_le (f.var ⟨index, g.id⟩ version).2
    (g.inputs.map fun s => (⟨index, s.driver⟩, readVersion net s.driver version))
  simp only [draftGate] at made
  have equation := size_equation_le made
  rw [length_varsOf] at equation
  rw [List.length_map] at operands equation
  unfold Gate.demand Shape.arity
  omega

/-- What every step of a loop takes, the loop takes for all. -/
theorem foldlM_size_le {α : Type} {step : Formula → α → Result Formula} {c : α → Nat} {xs : List α}
    (each : ∀ x ∈ xs, ∀ f f', step f x = .ok f' → f'.size ≤ f.size + c x) (made : xs.foldlM step f = .ok f') :
    f'.size ≤ f.size + (xs.map c).sum := by
  induction xs generalizing f with
  | nil =>
    cases made
    exact Nat.le_refl _
  | cons x xs ih =>
    rw [List.forall_mem_cons] at each
    obtain ⟨f₁, first, rest⟩ := Result.bind_eq_ok.mp made
    have head := each.1 f f₁ first
    have tail := ih each.2 rest
    rw [List.map_cons, List.sum_cons]
    omega

/-- The size of a drafted view is counted from its gates. -/
theorem size_draftView_le {v : View} (coherent : v.Coherent) {index version : Nat}
    (made : draftView v index version f = .ok f') : f'.size ≤ f.size + v.demand := by
  obtain ⟨order, ordered, folded⟩ := Result.bind_eq_ok.mp made
  have perm := (coherent.orderedGates_spec ordered).1
  have same : (order.map fun id => (v.net.gate? id).elim 0 Gate.demand).sum = v.demand := (perm.map _).sum_nat
  rw [← same]
  refine foldlM_size_le (fun id _ f f' step => ?_) folded
  obtain ⟨g, found, step⟩ := Result.bind_eq_ok.mp step
  rw [Netlist.gate_eq_ok.mp found]
  exact size_draftGate_le step

end Encode

end LogicNet
