import LogicNet.Cnf.Rule
import LogicNet.Proofs.Cnf.Extension

/-!
# The equations of the rules

Every rule adds one equation, `value y = …`, and nothing else. Rules without variables of their own add
it as a list of clauses that are true exactly when the equation is. The chain of `xor` and the counter
take variables; each of these is defined by what is there before it, so that it can always be given
its value.

The counter is a THERMOMETER: after `n` operands that are set, its first `n` levels are set and the
others are not. A level that was never reached has no variable and counts as not set.
-/

namespace LogicNet

@[simp] theorem holds_lit (value : Nat → Bool) (v : Nat) (positive : Bool) :
    Lit.holds value (lit v positive) = (value v == positive) := rfl

@[simp] theorem negate_lit (v : Nat) (positive : Bool) : (lit v positive).negate = lit v !positive := rfl

@[simp] theorem var_lit (v : Nat) (positive : Bool) : (lit v positive).var = v := rfl

@[simp] theorem Clause.holds_nil (value : Nat → Bool) : Clause.holds value [] = false := rfl

@[simp] theorem Clause.holds_cons (value : Nat → Bool) (l : Lit) (c : Clause) :
    Clause.holds value (l :: c) = (l.holds value || Clause.holds value c) := rfl

@[simp] theorem Clause.holds_append (value : Nat → Bool) (c d : Clause) :
    Clause.holds value (c ++ d) = (Clause.holds value c || Clause.holds value d) := List.any_append

theorem Clause.holds_map_lit (value : Nat → Bool) (xs : List Nat) (positive : Bool) :
    Clause.holds value (xs.map (lit · positive)) = xs.any fun x => value x == positive := List.any_map

namespace Formula

variable {f : Formula}

theorem add_addAll (f : Formula) (cs : List Clause) (c : Clause) :
    (f.addAll cs).add c = f.addAll (cs ++ [c]) := by
  simp [addAll, List.foldl_append]

/-! ## Rules without variables -/

/-- The clauses of a conjunction mention its operands and its value. -/
theorem all_below {n y : Nat} {xs : List Nat} (hy : y < n) (below : ∀ x ∈ xs, x < n) (p q : Bool) :
    ∀ c ∈ xs.map (fun x => [lit y !q, lit x p]) ++ [xs.map (lit · !p) ++ [lit y q]], ∀ l ∈ c, l.var < n := by
  simpa [or_imp, forall_and, hy] using below

section Plain

variable {y a b c : Nat} (fit : f.Fit) (hy : y < f.size)
include fit hy

theorem fix_adds (b : Bool) : Adds f (f.fix y b) fun _ value => value y = b := by
  refine (add_adds fit (by simpa using hy)).congr fun _ value => ?_
  simp

theorem buffer_adds (ha : a < f.size) (sign : Bool) :
    Adds f (f.buffer y a sign) fun _ value => value y = (value a == sign) := by
  refine (addAll_adds fit (by simp [hy, ha])).congr fun _ value => ?_
  cases vy : value y <;> cases va : value a <;> cases sign <;> simp [vy, va]

/-- `y` has value `q` exactly if all of `xs` have value `p`. Conjunctions and disjunctions are both of
this form. -/
theorem all_adds {xs : List Nat} (below : ∀ x ∈ xs, x < f.size) (p q : Bool) :
    Adds f (f.addAll (xs.map (fun x => [lit y !q, lit x p]) ++ [xs.map (lit · !p) ++ [lit y q]]))
      fun _ value => value y = ((xs.all fun x => value x == p) == q) := by
  refine (addAll_adds fit (all_below hy below p q)).congr fun _ value => ?_
  have last : (xs.any fun x => value x == !p) = !xs.all fun x => value x == p := by
    rw [List.not_all_eq_any_not]
    congr 1
    funext x
    cases value x <;> cases p <;> rfl
  simp only [List.forall_mem_append, List.forall_mem_map, List.forall_mem_singleton, Clause.holds_append,
    Clause.holds_map_lit, Clause.holds_cons, holds_lit, Clause.holds_nil, Bool.or_false, last]
  cases all : xs.all fun x => value x == p with
  | true =>
    rw [List.all_eq_true] at all
    have each : ∀ x ∈ xs, (value y == !q || value x == p) = true := by
      intro x mem
      rw [all x mem, Bool.or_true]
    simpa using fun _ => each
  | false =>
    obtain ⟨x, mem, other⟩ := List.all_eq_false.mp all
    have each : (∀ x ∈ xs, (value y == !q || value x == p) = true) ↔ (value y == !q) = true := by
      refine ⟨fun every => ?_, fun low x _ => by rw [low, Bool.true_or]⟩
      simpa [Bool.eq_false_iff.mpr other] using every x mem
    rw [each]
    simp

theorem conj_adds {xs : List Nat} (below : ∀ x ∈ xs, x < f.size) (sign : Bool) :
    Adds f (f.conj y xs sign) fun _ value => value y = (xs.all value == sign) := by
  unfold conj
  rw [add_addAll]
  refine (all_adds fit hy below true sign).congr fun _ value => ?_
  simp

theorem disj_adds {xs : List Nat} (below : ∀ x ∈ xs, x < f.size) (sign : Bool) :
    Adds f (f.disj y xs sign) fun _ value => value y = (xs.any value == sign) := by
  unfold disj
  rw [add_addAll]
  have rule := all_adds fit hy below false !sign
  simp only [Bool.not_not, Bool.not_false] at rule
  refine rule.congr fun _ value => ?_
  have none : (xs.all fun x => value x == false) = !xs.any value := by
    rw [List.not_any_eq_all_not]
    simp
  rw [none]
  cases xs.any value <;> cases sign <;> rfl

theorem parity_adds (ha : a < f.size) (hb : b < f.size) (sign : Bool) :
    Adds f (f.parity y a b sign) fun _ value => value y = ((value a).xor (value b) == sign) := by
  refine (addAll_adds fit (by simp [hy, ha, hb])).congr fun _ value => ?_
  cases vy : value y <;> cases va : value a <;> cases vb : value b <;> cases sign <;> simp [vy, va, vb]

theorem select_adds {s : Nat} (hs : s < f.size) (ha : a < f.size) (hb : b < f.size) :
    Adds f (f.select y s a b) fun _ value => value y = if value s then value a else value b := by
  refine (addAll_adds fit (by simp [hy, hs, ha, hb])).congr fun _ value => ?_
  cases vy : value y <;> cases vs : value s <;> cases va : value a <;> cases vb : value b <;> simp [vy, vs, va, vb]

theorem majority3_adds (ha : a < f.size) (hb : b < f.size) (hc : c < f.size) :
    Adds f (f.majority3 y a b c) fun _ value =>
      value y = decide (3 < 2 * ([a, b, c].map value).count true) := by
  refine (addAll_adds fit (by simp [hy, ha, hb, hc])).congr fun _ value => ?_
  cases vy : value y <;> cases va : value a <;> cases vb : value b <;> cases vc : value c <;>
    simp [vy, va, vb, vc]

end Plain

/-- A gate is given a value at a time step. -/
theorem fix_var_adds (fit : f.Fit) (m : Moment) (b : Bool) :
    Adds f ((f.var m.site m.version).2.fix (f.var m.site m.version).1 b) fun val _ =>
      val ⟨f.connected m.site, m.version⟩ = b := by
  obtain ⟨known, lt⟩ := var_defines fit m.site m.version
  refine known.thenAdds (fix_adds known.fit lt b) ?_ fun _ _ _ _ h => h
  intro val value eq
  rw [eq]

/-! ## Chains -/

theorem parityFrom_adds (fit : f.Fit) {y a : Nat} (hy : y < f.size) (ha : a < f.size) (sign : Bool)
    {rest : List Nat} (below : ∀ x ∈ rest, x < f.size) :
    Adds f (f.parityFrom y sign a rest) fun _ value =>
      value y = ((rest.map value).foldl Bool.xor (value a) == sign) := by
  fun_induction parityFrom f y sign a rest with
  | case1 f a => exact buffer_adds fit hy ha sign
  | case2 f a b => exact parity_adds fit hy ha (below b List.mem_cons_self) sign
  | case3 f a b rest more t f₁ eq ih =>
    obtain ⟨rfl, rfl⟩ := Prod.mk.inj eq
    rw [List.forall_mem_cons] at below
    have grown {x : Nat} (lt : x < f.size) : x < f.fresh.2.size := Nat.lt_succ_of_lt lt
    have link := (parity_adds fit.fresh (Nat.lt_succ_self f.size) (grown ha) (grown below.1) true).define
      fit ?_
    case refine_1 =>
      intro value value' agree
      rw [agree a ha, agree b below.1]
    have later {x : Nat} (lt : x < f.size) := Nat.lt_of_lt_of_le lt link.size_le
    have chain := ih link.fit (later hy) (Nat.lt_succ_self f.size)
      fun x mem => later (below.2 x mem)
    refine link.thenAdds chain ?_ ?_
    · intro _ value linked
      rw [linked]
      simp
    · intro _ value value' agree equation
      rw [← agree y hy, ← agree a ha, ← agree.map_eq (List.forall_mem_cons.mpr below)]
      exact equation

theorem parityChain_adds (fit : f.Fit) {y : Nat} (hy : y < f.size) (sign : Bool) {xs : List Nat}
    (below : ∀ x ∈ xs, x < f.size) {f' : Formula} (made : f.parityChain y xs sign = .ok f') :
    Adds f f' fun _ value => value y = ((xs.map value).foldl Bool.xor false == sign) := by
  unfold parityChain at made
  split at made
  · cases made
  · next a rest =>
    cases made
    rw [List.forall_mem_cons] at below
    refine (parityFrom_adds fit hy below.1 sign below.2).congr fun _ value => ?_
    simp

/-! ## Counting -/

/-- Levels after one more operand, given the level below the first of them. -/
def climb (x : Bool) : Bool → List Bool → List Bool
  | _, [] => []
  | below, level :: levels => (level || (below && x)) :: climb x level levels

/-- `k` levels of which the first `n` are set. -/
def thermometer (k n : Nat) : List Bool := (List.range k).map fun j => decide (j < n)

theorem climb_range (x : Bool) (n i k : Nat) :
    climb x (decide (i ≤ n)) ((List.range' i k).map fun j => decide (j < n)) =
      (List.range' i k).map fun j => decide (j < n + x.toNat) := by
  induction k generalizing i with
  | zero => rfl
  | succ k ih =>
    simp only [List.range'_succ, List.map_cons, climb]
    congr 1
    · rw [Bool.eq_iff_iff]
      cases x <;> simp
      omega
    · exact ih (i + 1)

/-- One more operand moves the thermometer by one if it is set. -/
theorem climb_thermometer (x : Bool) (k n : Nat) :
    climb x true (thermometer k n) = thermometer k (n + x.toNat) := by
  unfold thermometer
  rw [List.range_eq_range']
  exact climb_range x n 0 k

theorem foldl_climb (xs : List Bool) (k n : Nat) :
    xs.foldl (fun levels x => climb x true levels) (thermometer k n) = thermometer k (n + xs.count true) := by
  induction xs generalizing n with
  | nil => rfl
  | cons x xs ih =>
    rw [List.foldl_cons, climb_thermometer, ih, List.count_cons]
    cases x <;> simp [Nat.add_comm, Nat.add_left_comm]

theorem thermometer_zero (k : Nat) : thermometer k 0 = List.replicate k false := by
  simp [thermometer, List.map_const']

theorem getLast?_thermometer {k : Nat} (pos : 0 < k) (n : Nat) :
    (thermometer k n).getLast? = some (decide (k ≤ n)) := by
  obtain ⟨k, rfl⟩ := Nat.exists_eq_succ_of_ne_zero (Nat.ne_of_gt pos)
  unfold thermometer
  rw [List.range_succ, List.map_append, List.map_singleton, List.getLast?_append, List.getLast?_singleton]
  rfl

/-- The values of levels; a level without a variable is not set. -/
def levelValues (levels : List (Option Nat)) (value : Nat → Bool) : List Bool := levels.map (·.any value)

/-- Levels whose variables have been handed out. -/
def Issued (f : Formula) (levels : List (Option Nat)) : Prop := ∀ level ∈ levels, ∀ c ∈ level, c < f.size

theorem Issued.mono {f f' : Formula} {levels : List (Option Nat)} (h : f.Issued levels) (le : f.size ≤ f'.size) :
    f'.Issued levels := fun level mem c eq => Nat.lt_of_lt_of_le (h level mem c eq) le

theorem raiseLevel_defines (fit : f.Fit) {level : Option Nat} {reason : Nat} (hl : f.Issued [level])
    (hr : reason < f.size) :
    Defines f (f.raiseLevel level reason).2
        (fun _ value => (f.raiseLevel level reason).1.any value = (level.any value || value reason)) ∧
      (f.raiseLevel level reason).2.Issued [(f.raiseLevel level reason).1] := by
  cases level with
  | none =>
    refine ⟨(Extends.refl fit).weaken (fun _ _ h => h) fun _ _ _ => rfl, ?_⟩
    simpa [raiseLevel, Issued] using hr
  | some c =>
    have hc : c < f.size := hl (some c) List.mem_cons_self c rfl
    have rule := (@disj_adds _ f.size fit.fresh (Nat.lt_succ_self f.size) [c, reason] ?_ true).define fit ?_
    · refine ⟨rule.weaken (fun _ _ h => h) fun _ value equation => ?_, ?_⟩
      · simpa [raiseLevel, fresh] using equation
      · simp [raiseLevel, Issued, disj, fresh, add]
    · simp only [List.forall_mem_cons]
      exact ⟨Nat.lt_succ_of_lt hc, Nat.lt_succ_of_lt hr, by simp⟩
    · intro value value' agree
      simp [agree c hc, agree reason hr]

theorem issued_cons {level : Option Nat} {levels : List (Option Nat)} :
    f.Issued (level :: levels) ↔ f.Issued [level] ∧ f.Issued levels := by
  simp [Issued]

theorem countAbove_defines (fit : f.Fit) {x : Nat} (hx : x < f.size) {below : Option Nat}
    {levels : List (Option Nat)} (issued : f.Issued (below :: levels)) :
    Defines f (f.countAbove x below levels).2
        (fun _ value => levelValues (f.countAbove x below levels).1 value =
          climb (value x) (below.any value) (levelValues levels value)) ∧
      (f.countAbove x below levels).2.Issued (f.countAbove x below levels).1 := by
  induction levels generalizing f below with
  | nil =>
    cases below <;>
      exact ⟨(Extends.refl fit).weaken (fun _ _ h => h) fun _ _ _ => rfl, by simp [countAbove, Issued]⟩
  | cons level levels ih =>
    obtain ⟨first, others⟩ := issued_cons.mp issued
    cases below with
    | none =>
      obtain ⟨rest, later⟩ := ih fit hx others
      refine ⟨rest.weaken (fun _ _ h => h) fun _ value equation => ?_, ?_⟩
      · simpa [countAbove, climb, levelValues] using equation
      · exact issued_cons.mpr ⟨(issued_cons.mp others).1.mono rest.size_le, later⟩
    | some c =>
      have hc : c < f.size := first (some c) List.mem_cons_self c rfl
      have both := (@conj_adds _ f.size fit.fresh (Nat.lt_succ_self f.size) [c, x] ?_ true).define fit ?_
      · obtain ⟨raise, raised⟩ := @raiseLevel_defines _ both.fit level f.size
          ((issued_cons.mp others).1.mono both.size_le) (Nat.lt_succ_self f.size)
        have twice := both.andThen raise
        obtain ⟨rest, later⟩ := ih twice.fit (Nat.lt_of_lt_of_le hx twice.size_le) (others.mono twice.size_le)
        refine ⟨(twice.andThen rest).weaken (fun _ _ h => h) ?_, ?_⟩
        · rintro _ value ⟨⟨bothSet, raisedSet⟩, restSet⟩
          simp only [List.all_cons, List.all_nil, Bool.and_true, beq_true] at bothSet
          rw [bothSet] at raisedSet
          simp only [levelValues, countAbove, List.map_cons, climb, Option.any_some]
          exact List.cons_eq_cons.mpr ⟨raisedSet, restSet⟩
        · exact issued_cons.mpr ⟨raised.mono rest.size_le, later⟩
      · simp only [List.forall_mem_cons]
        exact ⟨Nat.lt_succ_of_lt hc, Nat.lt_succ_of_lt hx, by simp⟩
      · intro value value' agree
        simp [agree c hc, agree x hx]

/-- An operand climbs as if all levels had a set one below them. -/
theorem countOperand_defines (fit : f.Fit) {x : Nat} (hx : x < f.size) {levels : List (Option Nat)}
    (issued : f.Issued levels) :
    Defines f (f.countOperand x levels).2
        (fun _ value => levelValues (f.countOperand x levels).1 value =
          climb (value x) true (levelValues levels value)) ∧
      (f.countOperand x levels).2.Issued (f.countOperand x levels).1 := by
  cases levels with
  | nil => exact ⟨(Extends.refl fit).weaken (fun _ _ h => h) fun _ _ _ => rfl, by simp [countOperand, Issued]⟩
  | cons level levels =>
    obtain ⟨raise, raised⟩ := raiseLevel_defines fit (issued_cons.mp issued).1 hx
    obtain ⟨rest, later⟩ := countAbove_defines raise.fit (Nat.lt_of_lt_of_le hx raise.size_le)
      (issued.mono raise.size_le)
    refine ⟨(raise.andThen rest).weaken (fun _ _ h => h) ?_, ?_⟩
    · rintro _ value ⟨raisedSet, restSet⟩
      simp only [levelValues, countOperand, List.map_cons, climb, Bool.true_and]
      exact List.cons_eq_cons.mpr ⟨raisedSet, restSet⟩
    · exact issued_cons.mpr ⟨raised.mono rest.size_le, later⟩

theorem countAll_defines (fit : f.Fit) {xs : List Nat} (below : ∀ x ∈ xs, x < f.size)
    {levels : List (Option Nat)} (issued : f.Issued levels) :
    Defines f (f.countAll levels xs).2
        (fun _ value => levelValues (f.countAll levels xs).1 value =
          (xs.map value).foldl (fun levels x => climb x true levels) (levelValues levels value)) ∧
      (f.countAll levels xs).2.Issued (f.countAll levels xs).1 := by
  induction xs generalizing f levels with
  | nil => exact ⟨(Extends.refl fit).weaken (fun _ _ h => h) fun _ _ _ => rfl, issued⟩
  | cons x xs ih =>
    rw [List.forall_mem_cons] at below
    obtain ⟨head, issued⟩ := countOperand_defines fit below.1 issued
    obtain ⟨tail, issued⟩ := ih head.fit (fun x mem => Nat.lt_of_lt_of_le (below.2 x mem) head.size_le) issued
    refine ⟨(head.andThen tail).weaken (fun _ _ h => h) ?_, issued⟩
    rintro _ value ⟨first, rest⟩
    rw [List.map_cons, List.foldl_cons, ← first]
    exact rest

theorem atLeast_adds (fit : f.Fit) {y : Nat} (hy : y < f.size) {xs : List Nat} (below : ∀ x ∈ xs, x < f.size)
    {k : Nat} (pos : 0 < k) :
    Adds f (f.atLeast y xs k) fun _ value => value y = decide (k ≤ (xs.map value).count true) := by
  obtain ⟨count, issued⟩ := @countAll_defines f fit xs below (List.replicate k none) (by simp [Issued])
  unfold atLeast
  generalize f.countAll (List.replicate k none) xs = counted at *
  obtain ⟨levels, f'⟩ := counted
  simp only at count issued ⊢
  -- The last level is set when the count has reached `k`.
  have top : Defines f f' fun _ value => levels.getLast?.join.any value = decide (k ≤ (xs.map value).count true) := by
    refine count.weaken (fun _ _ h => h) fun _ value equation => ?_
    have start : levelValues (List.replicate k none) value = thermometer k 0 := by
      simp [levelValues, thermometer_zero]
    rw [start, foldl_climb, Nat.zero_add] at equation
    have last := getLast?_thermometer pos ((xs.map value).count true)
    rw [← equation, levelValues, List.getLast?_map] at last
    obtain ⟨level, found, set⟩ := Option.map_eq_some_iff.mp last
    rw [found]
    exact set
  have grown := Nat.lt_of_lt_of_le hy top.size_le
  have old : ∀ (_ : Moment → Bool) value value', AgreeBelow f.size value value' →
      value y = decide (k ≤ (xs.map value).count true) → value' y = decide (k ≤ (xs.map value').count true) := by
    intro _ value value' agree equation
    rw [← agree y hy, ← agree.map_eq below]
    exact equation
  cases last : levels.getLast?.join with
  | none =>
    refine top.thenAdds (fix_adds top.fit grown false) (fun _ value set => ?_) old
    rw [← set, last]
    rfl
  | some c =>
    have hc : c < f'.size := by
      obtain ⟨level, found, eq⟩ := Option.bind_eq_some_iff.mp last
      exact issued level (List.mem_of_getLast? found) c eq
    refine top.thenAdds (buffer_adds top.fit grown hc true) (fun _ value set => ?_) old
    rw [← set, last]
    simp

theorem majority_adds (fit : f.Fit) {y : Nat} (hy : y < f.size) {xs : List Nat} (below : ∀ x ∈ xs, x < f.size)
    {f' : Formula} (made : f.majority y xs = .ok f') :
    Adds f f' fun _ value => value y = decide (xs.length < 2 * (xs.map value).count true) := by
  unfold majority at made
  split at made
  case isFalse => cases made
  case isTrue odd =>
    split at made
    · next x =>
      cases made
      refine (buffer_adds fit hy (below x List.mem_cons_self) true).congr fun _ value => ?_
      cases vx : value x <;> simp [vx]
    · next a b c =>
      cases made
      simp only [List.forall_mem_cons] at below
      exact majority3_adds fit hy below.1 below.2.1 below.2.2.1
    · cases made
      refine (atLeast_adds fit hy below (by omega)).congr fun _ value => ?_
      have : (xs.length + 1) / 2 ≤ (xs.map value).count true ↔ xs.length < 2 * (xs.map value).count true := by
        omega
      rw [decide_eq_decide.mpr this]

end Formula

end LogicNet
