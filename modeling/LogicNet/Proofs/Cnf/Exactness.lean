import LogicNet.Proofs.Cnf.Range

/-!
# Encoded gates are exact

The variables of a formula are those of gates and AUXILIARY ones, which the rules take for themselves. What a rule says
is a matter of the others: which values of theirs can be completed to values that make the new clauses true.

**The law** (`gate_exact`): encoding a gate appends clauses whose completable assignments are those under which the
equation of the gate holds, and each of them has one completion. This is so for every function with a meaning, every
number of operands that it accepts, every version, and on every formula that can come about (`Made`), whatever its
clauses say and whichever gates share a variable. Encoding stops exactly if a literal of these clauses cannot be made.

**What it does not establish.** That the clauses and the earlier ones can be true together: earlier clauses may mention
the variables that are taken later.
-/

namespace LogicNet

open Std

namespace Formula

/-- Formulas that can come about: from a reconnection, by variables, by clauses of any literals, by encoded gates and by
answers of oracles, in any order. -/
inductive Made : Formula → Prop
  | start (reconnection : Reconnection) : Made (withReconnection reconnection)
  | var {f : Formula} (s : Site) (version : Nat) (before : Made f) : Made (f.var s version).2
  | fresh {f : Formula} (before : Made f) : Made f.fresh.2
  | add {f : Formula} (c : Clause) (before : Made f) : Made (f.add c)
  | gate {f f' : Formula} {net : Netlist} {index version : Nat} {g : Gate} (before : Made f) (arity : g.hasArity = true)
    (encoded : Encode.gate net index version f g = .ok f') : Made f'
  | solve {f f' : Formula} {oracle : Oracle} {found : Bool} (before : Made f)
    (solved : f.solve oracle = .ok (found, f')) : Made f'

/-- A variable that was taken on the way from `f` to `f'` and is not that of a gate. -/
def Auxiliary (f f' : Formula) (v : Nat) : Prop := f.size ≤ v ∧ v < f'.size ∧ ∀ key : Moment, f'.vars[key]? ≠ some v

/-- The second assignment is the first one, with other values of auxiliary variables. -/
def Completes (f f' : Formula) (value value' : Nat → Bool) : Prop := ∀ v, ¬Auxiliary f f' v → value' v = value v

variable {f f' : Formula}

/-! ## Formulas without clauses -/

theorem Fit.bare_onTop (fit : f.Fit) (cs : Array Clause) : (f.onTop cs).bare.Fit :=
  ⟨fit.interned, fun c mem => by simp [bare] at mem⟩

/-- The variables of gates have been handed out, whatever the clauses mention. -/
theorem Made.fit_bare (h : f.Made) : f.bare.Fit := by
  induction h with
  | start reconnection => exact fit_withReconnection reconnection
  | @var f s version _ ih =>
    rw [← f.bare_onTop, var_onTop]
    exact (var_defines ih s version).1.fit.bare_onTop f.clauses
  | fresh _ ih => exact ih.fresh
  | add _ _ ih => exact ih
  | gate _ arity encoded ih =>
    obtain ⟨f₀, bare, rfl⟩ := Encode.exists_draftGate_bare ((Encode.limits_gate ..).draft_of _ encoded)
    exact (Encode.draftGate_adds ih arity bare).fit.bare_onTop _
  | solve _ solved ih =>
    obtain ⟨model, _, same⟩ := Result.bind_eq_ok.mp solved
    cases same
    exact ⟨ih.interned, ih.closed⟩

/-! ## Completions -/

variable {C : (Moment → Bool) → Prop}

/-- Assignments that differ in auxiliary variables only say the same of the gates. -/
theorem reading_congr {value value' : Nat → Bool} (same : Completes f f' value value') :
    f'.reading value' = f'.reading value := by
  funext key
  cases found : f'.vars[key]? with
  | none => rw [reading, reading, found, Option.any_none, Option.any_none]
  | some v =>
    rw [reading_of_some found, reading_of_some found]
    exact same v fun auxiliary => auxiliary.2.2 key found

/-- From no clauses, the extension has the completable assignments that its condition says. -/
theorem Extends.completable_iff (h : Adds f f' fun val _ => C val) (empty : f.clauses = #[]) (value : Nat → Bool) :
    (∃ value', Completes f f' value value' ∧ ∀ c ∈ f'.clauses, Clause.holds value' c = true) ↔
      C (f'.reading value) := by
  constructor
  · rintro ⟨value', same, holds⟩
    rw [← reading_congr same]
    exact (h.sound _ value' (meets_reading holds)).2
  · intro condition
    have start : f.Meets (f'.reading value) value := by
      refine ⟨fun c mem => ?_, fun known => (reading_of_some (h.vars_le known) value).symm⟩
      simp [empty] at mem
    obtain ⟨given, agree, met⟩ := h.complete _ value start condition
    -- Above the variables handed out, the assignment has to stay as it is.
    let value' := fun v => if v < f'.size then given v else value v
    have below : AgreeBelow f'.size given value' := fun v lt => (if_pos lt).symm
    have met' := met.congr h.fit below
    refine ⟨value', fun v other => ?_, met'.clauses⟩
    by_cases issued : v < f'.size
    · by_cases old : v < f.size
      · exact (below v issued).symm.trans (agree v old).symm
      · obtain ⟨key, found⟩ : ∃ key : Moment, f'.vars[key]? = some v := by
          by_contra none
          exact other ⟨Nat.le_of_not_lt old, issued, not_exists.mp none⟩
        rw [met'.interned found, reading_of_some found]
    · exact if_neg issued

/-- An assignment has at most one completion. -/
theorem Extends.completion_unique (h : Adds f f' fun val _ => C val) {value value' : Nat → Bool}
    (same : Completes f f' value value') (holds : ∀ c ∈ f'.clauses, Clause.holds value c = true)
    (holds' : ∀ c ∈ f'.clauses, Clause.holds value' c = true) : value' = value := by
  have met' := meets_reading holds'
  rw [reading_congr same] at met'
  have old : AgreeBelow f.size value' value := fun v lt => same v fun auxiliary => Nat.not_lt.mpr auxiliary.1 lt
  have all := h.unique _ value' value met' (meets_reading holds) old
  funext v
  by_cases issued : v < f'.size
  · exact all v issued
  · exact same v fun auxiliary => issued auxiliary.2.1

end Formula

namespace Encode

open Formula

/-- ENCODED GATES ARE EXACT. Encoding a gate, of whichever view of its netlist, succeeds while the size of the formula is
in the range of literals, and it stops exactly if a literal of the new clauses cannot be made. It takes no more variables
than the gate demands, keeps the clauses and the variables there are, and appends clauses over variables for every moment
of the equation. The clauses can be made true by auxiliary variables alone exactly under the assignments under which the
equation holds, and in one way. -/
theorem gate_exact {net : Netlist} (h : net.Reachable) {id : GateId} {g : Gate} (found : net.gate? id = some g)
    (interpreted : g.fn.isUninterpreted = false) {f : Formula} (made : f.Made) (index version : Nat) :
    ∃ f' new,
      gate net index version f g = (if new.all (·.isBelow (Lit.largestVar + 1)) then .ok f'
        else .error (.breach .unnumberedVariable)) ∧
      (f'.size ≤ Lit.largestVar + 1 → gate net index version f g = .ok f') ∧
      f'.clauses = f.clauses ++ new ∧ f.size ≤ f'.size ∧ f'.size ≤ f.size + g.demand ∧
      (∀ (key : Moment) (x : Nat), f.vars[key]? = some x → f'.vars[key]? = some x) ∧
      (∀ m, Mentions g net index version m → f'.Knows ⟨f.connected m.site, m.version⟩) ∧
      (∀ value, (∃ value', Completes f f' value value' ∧ ∀ c ∈ new, Clause.holds value' c = true) ↔
        g.HoldsAt net f.connected (f'.reading value) index version) ∧
      ∀ value value', Completes f f' value value' → (∀ c ∈ new, Clause.holds value c = true) →
        (∀ c ∈ new, Clause.holds value' c = true) → value' = value := by
  have arity : g.hasArity = true := (Bool.and_eq_true_iff.mp (h.consistent.wired.valid found)).1
  obtain ⟨f', drafted⟩ := @exists_draftGate f net index version g interpreted arity
  have limited := (limits_gate net index version f g).limited_of f' drafted
  obtain ⟨f₀, bare, rfl⟩ := exists_draftGate_bare drafted
  have adds := draftGate_adds made.fit_bare arity bare
  rw [requireNumberedFrom_eq, @isNumberedFrom_append f (f₀.onTop f.clauses) f₀.clauses rfl] at limited
  refine ⟨_, f₀.clauses, limited, fun small => ?_, rfl, adds.size_le, size_draftGate_le drafted,
    fun key x => adds.vars_le, ?_, ?_, ?_⟩
  · have inRange := adds.fit.isNumberedFrom small 0
    rw [limited, if_pos]
    exact inRange
  · exact fun m mentioned => draftGate_knows made.fit_bare arity bare mentioned
  · exact fun value => adds.completable_iff rfl value
  · exact fun value value' same => adds.completion_unique same

/-- A majority of five operands that are three gates, one of them a latch. -/
def votingNet : Netlist := .made [⟨.input, []⟩, ⟨.input, []⟩, ⟨.latch, [.plain ⟨0⟩, ⟨.high, ⟨1⟩⟩]⟩,
  .nary .majority [⟨0⟩, ⟨2⟩, ⟨0⟩, ⟨1⟩, ⟨2⟩]]

/-- A formula with a clause over a variable that is handed out later. -/
def strayFormula : Formula := (withReconnection {}).add [lit 7 true]

theorem votingNet_exact : ∃ g f' new, votingNet.gate? ⟨3⟩ = some g ∧ gate votingNet 0 2 strayFormula g = .ok f' ∧
    f'.clauses = #[[lit 7 true]] ++ new ∧ ∀ value,
      (∃ value', Completes strayFormula f' value value' ∧ ∀ c ∈ new, Clause.holds value' c = true) ↔
        let r (n version : Nat) : Bool := f'.reading value ⟨⟨0, ⟨n⟩⟩, version⟩
        r 3 2 = decide (5 < 2 * [r 0 2, r 2 1, r 0 2, r 1 2, r 2 1].count true) := by
  obtain ⟨g, found, facts⟩ : ∃ g, votingNet.gate? ⟨3⟩ = some g ∧ (g.fn == .majority && g.id == ⟨3⟩ &&
      g.inputs == [.plain ⟨0⟩, .plain ⟨2⟩, .plain ⟨0⟩, .plain ⟨1⟩, .plain ⟨2⟩]) = true :=
    (Option.any_eq_true _ _).mp (by decide +kernel)
  simp only [Bool.and_eq_true, beq_iff_eq] at facts
  obtain ⟨⟨fn, self⟩, inputs⟩ := facts
  have reachable : votingNet.Reachable := Netlist.reachable_made _
  have made : strayFormula.Made := .add _ (.start {})
  obtain ⟨f', new, limited, _, clauses, _, _, _, _, iff, _⟩ := gate_exact reachable found (by rw [fn]; rfl) made 0 2
  have returned : (votingNet.gate ⟨3⟩ >>= gate votingNet 0 2 strayFormula).isOk = true := by decide +kernel
  rw [Netlist.gate_eq_ok.mpr found, Result.ok_bind] at returned
  have encoded : gate votingNet 0 2 strayFormula g = .ok f' := by
    split at limited
    · exact limited
    · rw [limited] at returned
      cases returned
  refine ⟨g, f', new, found, encoded, clauses, fun value => (iff value).trans ?_⟩
  have place : strayFormula.connected = id := connected_empty
  have read : readVersion votingNet ⟨0⟩ 2 = 2 ∧ readVersion votingNet ⟨1⟩ 2 = 2 ∧ readVersion votingNet ⟨2⟩ 2 = 1 := by
    decide +kernel
  rw [Gate.HoldsAt, GateFn.Relates, fn, self, inputs, place]
  simp [Signal.plain, read, GateFn.evalBit]

end Encode

end LogicNet
