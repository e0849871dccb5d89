import LogicNet.Proofs.Cnf.Range
import LogicNet.Proofs.Cnf.Search
import LogicNet.Proofs.Equivalence.Exhaustive

/-!
# Comparing by solving

The formula of a query says that every view has a valuation, that bound inputs agree and that some pair of
bound outputs differs. So it has a model exactly if there are such valuations, whatever the bindings
are: inputs that are not bound are free on their side, and without outputs nothing can differ.

What an oracle has to be for a verdict to be right depends on the verdict. Equality rests on refutations
only (`Oracle.Sound`). A difference rests on models.

A query is a draft: it says what is asked for, whether or not its literals can be made. Solving stops exactly if one
of them cannot (`outcome_of_query`). So a verdict is always about a query (`query_of_bySolving`), and a query has a
verdict while its size is in the range of literals.
-/

namespace LogicNet

/-! ## Oracles -/

/-- A refuted formula has no model. -/
def Oracle.Sound (oracle : Oracle) : Prop :=
  ∀ n clauses, oracle n clauses = .ok none → ∀ value, ∃ c ∈ clauses, Clause.holds value c = false

/-- Refutations and models are right, and there is an answer as long as all literals can be made. -/
structure Oracle.Correct (oracle : Oracle) : Prop where
  sound : oracle.Sound
  model : ∀ {n clauses m}, oracle n clauses = .ok (some m) → n ≤ m.size ∧ m.satisfies clauses = true
  answers : ∀ {n clauses}, n ≤ Lit.largestVar + 1 → (∀ c ∈ clauses, c.isBelow n = true) →
    ∃ answer, oracle n clauses = .ok answer

namespace Checker

open Formula

/-! ## Queries -/

/-- The values of two gates at version zero. -/
def siteValues (place : Site → Site) (val : Moment → Bool) (p : SitePair) : ValuePair :=
  (val ⟨place p.1, 0⟩, val ⟨place p.2, 0⟩)

def varValues (value : Nat → Bool) (x : Nat × Nat) : ValuePair := (value x.1, value x.2)

/-- Both variables have been handed out. -/
def IssuedPairs (f : Formula) (vars : List (Nat × Nat)) : Prop := ∀ x ∈ vars, x.1 < f.size ∧ x.2 < f.size

variable {f f' : Formula}

theorem IssuedPairs.mono {vars : List (Nat × Nat)} (h : IssuedPairs f vars) (le : f.size ≤ f'.size) :
    IssuedPairs f' vars :=
  fun x mem => ⟨Nat.lt_of_lt_of_le (h x mem).1 le, Nat.lt_of_lt_of_le (h x mem).2 le⟩

/-- The variables of two gates, both known after asking for them. -/
theorem pair_defines (fit : f.Fit) (p : SitePair) :
    Defines f ((f.var p.1 0).2.var p.2 0).2
        (fun val value => varValues value ((f.var p.1 0).1, ((f.var p.1 0).2.var p.2 0).1) =
          siteValues f.connected val p) ∧
      IssuedPairs ((f.var p.1 0).2.var p.2 0).2 [((f.var p.1 0).1, ((f.var p.1 0).2.var p.2 0).1)] := by
  obtain ⟨left, hx⟩ := var_defines fit p.1 0
  obtain ⟨right, hy⟩ := var_defines left.fit p.2 0
  refine ⟨(left.andThen right).weaken (fun _ _ h => h) ?_, ?_⟩
  · rintro val value ⟨first, second⟩
    rw [connected_congr left.reconnection_eq] at second
    exact Prod.ext first second
  · simpa [IssuedPairs] using ⟨Nat.lt_of_lt_of_le hx right.size_le, hy⟩

theorem bindInputs_extends (fit : f.Fit) (pairs : List SitePair) :
    Extends f (bindInputs f pairs).2
        (fun val _ => ∀ p ∈ pairs, (siteValues f.connected val p).1 = (siteValues f.connected val p).2)
        (fun val value => (∀ p ∈ pairs, (siteValues f.connected val p).1 = (siteValues f.connected val p).2) ∧
          (bindInputs f pairs).1.map (varValues value) = pairs.map (siteValues f.connected val)) ∧
      IssuedPairs (bindInputs f pairs).2 (bindInputs f pairs).1 := by
  induction pairs generalizing f with
  | nil =>
    refine ⟨(Extends.refl fit).weaken (fun _ _ _ => trivial) fun _ _ _ => ⟨by simp, rfl⟩, ?_⟩
    simp [bindInputs, IssuedPairs]
  | cons p pairs ih =>
    obtain ⟨known, issued⟩ := pair_defines fit p
    have lt := issued _ List.mem_cons_self
    have tie := buffer_adds known.fit lt.2 lt.1 true
    have head := known.constrain (C := fun val _ =>
      (siteValues f.connected val p).1 = (siteValues f.connected val p).2) tie ?_ fun _ _ _ _ h => h
    · obtain ⟨tail, later⟩ := ih head.fit
      rw [connected_congr head.reconnection_eq] at tail
      refine ⟨(head.both tail).weaken (fun _ _ all => List.forall_mem_cons.mp all) ?_, ?_⟩
      · rintro val value ⟨⟨here, agree⟩, all, there⟩
        exact ⟨List.forall_mem_cons.mpr ⟨agree, all⟩, List.cons_eq_cons.mpr ⟨here, there⟩⟩
      · refine List.forall_mem_cons.mpr ⟨?_, later⟩
        exact issued.mono (Nat.le_trans tie.size_le tail.size_le) _ List.mem_cons_self
    · intro val value eq
      rw [← eq]
      simp [varValues, eq_comm]

/-- The variable for a difference is set exactly when there is one. -/
theorem compareOutputs_defines (fit : f.Fit) (pairs : List SitePair) :
    Defines f (compareOutputs f pairs).2.2
        (fun val value => (compareOutputs f pairs).1.map (varValues value) = pairs.map (siteValues f.connected val) ∧
          (compareOutputs f pairs).2.1.map value =
            pairs.map fun p => (siteValues f.connected val p).1 != (siteValues f.connected val p).2) ∧
      IssuedPairs (compareOutputs f pairs).2.2 (compareOutputs f pairs).1 ∧
      ∀ d ∈ (compareOutputs f pairs).2.1, d < (compareOutputs f pairs).2.2.size := by
  induction pairs generalizing f with
  | nil =>
    refine ⟨(Extends.refl fit).weaken (fun _ _ _ => trivial) fun _ _ _ => ⟨rfl, rfl⟩, ?_⟩
    simp [compareOutputs, IssuedPairs]
  | cons p pairs ih =>
    obtain ⟨known, issued⟩ := pair_defines fit p
    obtain ⟨hx, hy⟩ := issued _ List.mem_cons_self
    have differ := (parity_adds known.fit.fresh (Nat.lt_succ_self _) (Nat.lt_succ_of_lt hx) (Nat.lt_succ_of_lt hy)
      true).define known.fit fun value value' agree => by rw [agree _ hx, agree _ hy]
    have head := known.andThen differ
    obtain ⟨tail, later, below⟩ := ih head.fit
    rw [connected_congr head.reconnection_eq] at tail
    refine ⟨(head.andThen tail).weaken (fun _ _ h => h) ?_, ?_, ?_⟩
    · rintro val value ⟨⟨here, set⟩, there, rest⟩
      have first : value ((f.var p.1 0).2.var p.2 0).2.size =
          ((siteValues f.connected val p).1 != (siteValues f.connected val p).2) := by
        rw [← here, set]
        simp [varValues]
      exact ⟨List.cons_eq_cons.mpr ⟨here, there⟩, List.cons_eq_cons.mpr ⟨first, rest⟩⟩
    · refine List.forall_mem_cons.mpr ⟨?_, later⟩
      exact issued.mono (Nat.le_trans differ.size_le tail.size_le) _ List.mem_cons_self
    · exact List.forall_mem_cons.mpr ⟨Nat.lt_of_lt_of_le (Nat.lt_succ_self _) tail.size_le, below⟩

/-- The formula that asks for one of the differences. -/
def askDifference (f : Formula) (pairs : List SitePair) : Formula :=
  (compareOutputs f pairs).2.2.add ((compareOutputs f pairs).2.1.map (lit · true))

theorem difference_extends (fit : f.Fit) (pairs : List SitePair) :
    Extends f (askDifference f pairs)
      (fun val _ => ∃ p ∈ pairs, (siteValues f.connected val p).1 ≠ (siteValues f.connected val p).2)
      (fun val value => (compareOutputs f pairs).1.map (varValues value) = pairs.map (siteValues f.connected val) ∧
        ∃ p ∈ pairs, (siteValues f.connected val p).1 ≠ (siteValues f.connected val p).2) := by
  obtain ⟨compared, _, below⟩ := compareOutputs_defines fit pairs
  have belowLits : ∀ l ∈ (compareOutputs f pairs).2.1.map (lit · true), l.var < (compareOutputs f pairs).2.2.size := by
    intro l mem
    obtain ⟨d, inside, rfl⟩ := List.mem_map.mp mem
    exact below d inside
  refine (compared.constrain (add_adds compared.fit belowLits) ?_ fun _ _ _ _ h => h).weaken (fun _ _ h => h) ?_
  · rintro val value ⟨_, set⟩
    have any : ((compareOutputs f pairs).2.1.any fun d => value d == true) =
        ((compareOutputs f pairs).2.1.map value).any id := by simp
    rw [Clause.holds_map_lit, any, set, List.any_map, List.any_eq_true]
    simp only [Function.comp_apply, id_eq, bne_iff_ne]
  · exact fun _ _ h => ⟨h.1.1, h.2⟩

/-- A formula that asks for a difference, and the variables whose values are reported. -/
structure Query where
  formula : Formula
  inputs : List (Nat × Nat)
  outputs : List (Nat × Nat)

/-- All views of a query, each under its position, whether or not their literals can be made. -/
def draftViews (f : Formula) (views : List View) : Result Formula :=
  views.zipIdx.foldlM (fun f (v, index) => Encode.draftView v index 0 f) f

/-- The formula to be solved, whether or not its literals can be made. -/
def query (views : List View) (reconnection : Reconnection) (inputs outputs : List SitePair) : Result Query := do
  let (inVars, f) := bindInputs (.withReconnection reconnection) inputs
  let f ← draftViews f views
  return ⟨askDifference f outputs, inVars, (compareOutputs f outputs).1⟩

/-- What a query asks for: valuations of all views with equal inputs and different outputs. -/
structure Asked (views : List View) (place : Site → Site) (inputs outputs : List SitePair)
    (val : Moment → Bool) : Prop where
  valuations : ∀ x ∈ views.zipIdx, x.1.Valuation fun id => val ⟨place ⟨x.2, id⟩, 0⟩
  agree : ∀ p ∈ inputs, (siteValues place val p).1 = (siteValues place val p).2
  differ : ∃ p ∈ outputs, (siteValues place val p).1 ≠ (siteValues place val p).2

theorem draftViews_adds (fit : f.Fit) {views : List View} (coherent : ∀ v ∈ views, v.Coherent)
    (made : draftViews f views = .ok f') :
    Adds f f' fun val _ => ∀ x ∈ views.zipIdx, x.1.Valuation fun id => val ⟨f.connected ⟨x.2, id⟩, 0⟩ := by
  refine Encode.foldlM_adds (P := fun x val => x.1.Valuation fun id => val ⟨f.connected ⟨x.2, id⟩, 0⟩) fit ?_ made
  rintro ⟨v, index⟩ mem g g' fit same made
  rw [← connected_congr same]
  exact Encode.draftView_adds_valuation fit (coherent v (List.fst_mem_of_mem_zipIdx mem)) made

theorem query_extends {views : List View} {reconnection : Reconnection} {inputs outputs : List SitePair} {q : Query}
    (coherent : ∀ v ∈ views, v.Coherent) (made : query views reconnection inputs outputs = .ok q) :
    let start := withReconnection reconnection
    Extends start q.formula (fun val _ => Asked views start.connected inputs outputs val)
        (fun val value => Asked views start.connected inputs outputs val ∧
          q.inputs.map (varValues value) = inputs.map (siteValues start.connected val) ∧
          q.outputs.map (varValues value) = outputs.map (siteValues start.connected val)) ∧
      IssuedPairs q.formula q.inputs ∧ IssuedPairs q.formula q.outputs := by
  intro start
  obtain ⟨f₂, encoded, made⟩ := Result.bind_eq_ok.mp made
  cases made
  obtain ⟨tied, issuedIn⟩ := bindInputs_extends (fit_withReconnection reconnection) inputs
  have valued := draftViews_adds tied.fit coherent encoded
  obtain ⟨compared, issuedOut, _⟩ := compareOutputs_defines valued.fit outputs
  have differ := difference_extends valued.fit outputs
  rw [connected_congr valued.reconnection_eq] at differ
  rw [connected_congr tied.reconnection_eq] at valued differ
  refine ⟨((tied.both valued).both differ).weaken ?_ ?_, ?_, issuedOut⟩
  · exact fun _ _ asked => ⟨⟨asked.agree, asked.valuations⟩, asked.differ⟩
  · rintro val value ⟨⟨⟨agree, ins⟩, valuations⟩, outs, differ⟩
    exact ⟨⟨valuations, agree, differ⟩, ins, outs⟩
  · exact issuedIn.mono (Nat.le_trans valued.size_le compared.size_le)

/-- Views that can be ordered and have a meaning can be asked about. -/
theorem exists_query {views : List View} {reconnection : Reconnection} {inputs outputs : List SitePair}
    (each : ∀ v ∈ views, v.Coherent ∧ v.CustomFree ∧ ∃ order, v.orderedGates = .ok order) :
    ∃ q, query views reconnection inputs outputs = .ok q := by
  have drafted : ∃ f', draftViews (bindInputs (.withReconnection reconnection) inputs).2 views = .ok f' := by
    refine Result.exists_foldlM (fun x mem f => ?_) _
    obtain ⟨coherent, customFree, order, ordered⟩ := each x.1 (List.fst_mem_of_mem_zipIdx mem)
    exact Encode.exists_draftView coherent customFree ordered x.2 0 f
  obtain ⟨f', drafted⟩ := drafted
  exact ⟨_, Result.bind_eq_ok.mpr ⟨f', drafted, rfl⟩⟩

/-! ## Verdicts -/

/-- The verdict that an oracle gives on a query. -/
def Query.verdict (q : Query) (oracle : Oracle) : Result Verdict := do
  let (satisfiable, f) ← q.formula.solve oracle
  if !satisfiable then return .equal
  let inputs ← valuesOf f q.inputs
  let outputs ← valuesOf f q.outputs
  return .different ⟨inputs, outputs, some f.dimacs⟩

@[simp] theorem outcome_dumpFormula (c : Checker) (f : Formula) : (c.dumpFormula f).outcome = .ok () := by
  unfold dumpFormula
  split <;> rfl

section Range

variable {c : Checker} {views : List View} {reconnection : Reconnection} {inputs outputs : List SitePair} {q : Query}

theorem compareOutputs_onTop (f : Formula) (cs : Array Clause) (pairs : List SitePair) :
    compareOutputs (f.onTop cs) pairs =
      ((compareOutputs f pairs).1, (compareOutputs f pairs).2.1, (compareOutputs f pairs).2.2.onTop cs) := by
  induction pairs generalizing f with
  | nil => rfl
  | cons p pairs ih => simp only [compareOutputs, var_onTop, fresh_onTop, parity_onTop, ih]

theorem difference_keeps (f : Formula) (pairs : List SitePair) :
    ∃ new, (askDifference f pairs).clauses = f.clauses ++ new := by
  refine ⟨(askDifference f.bare pairs).clauses, ?_⟩
  conv_lhs => rw [← f.bare_onTop]
  rw [askDifference, compareOutputs_onTop, add_onTop]
  rfl

/-- Views are encoded as they are drafted, up to the first literal that cannot be made, of the inputs or of a view. -/
theorem limits_encodeViews :
    Limits (withReconnection reconnection) (draftViews (bindInputs (withReconnection reconnection) inputs).2 views)
      ((bindInputs (withReconnection reconnection) inputs).2.requireNumbered >>= fun f => encodeViews f views) := by
  have bound := @Limits.require (withReconnection reconnection)
    (.ok (bindInputs (withReconnection reconnection) inputs).2) fun f' _ => ⟨f'.clauses, by simp [withReconnection]⟩
  exact bound.bind fun f _ => Limits.foldlM (fun f x => Encode.limits_view x.1 x.2 0 f) f views.zipIdx

theorem outcome_bySolving : (c.bySolving views reconnection inputs outputs).outcome =
    ((bindInputs (withReconnection reconnection) inputs).2.requireNumbered >>= fun f => encodeViews f views) >>= fun f =>
      (askDifference f outputs).requireNumberedFrom f.clauses.size >>= fun g =>
        Query.verdict ⟨g, (bindInputs (withReconnection reconnection) inputs).1, (compareOutputs f outputs).1⟩
          c.oracle := by
  unfold bySolving
  simp only [Traced.outcome_bind, Traced.outcome_liftM, Traced.outcome_note, bind_assoc, Result.ok_bind]
  congr 1
  funext f
  congr 1
  funext f
  congr 1
  funext g
  unfold Query.verdict
  congr 1
  funext ⟨satisfiable, answered⟩
  cases satisfiable with
  | false => rfl
  | true =>
    simp only [Bool.not_true, Bool.false_eq_true, if_false, Traced.outcome_bind, Traced.outcome_liftM,
      Traced.outcome_note, outcome_dumpFormula, Traced.outcome_pure, Result.ok_bind]
    rfl

/-- A verdict by solving is the verdict on a query. -/
theorem query_of_bySolving {verdict : Verdict}
    (made : (c.bySolving views reconnection inputs outputs).outcome = .ok verdict) :
    ∃ q, query views reconnection inputs outputs = .ok q ∧ q.verdict c.oracle = .ok verdict := by
  rw [outcome_bySolving] at made
  obtain ⟨f, encoded, made⟩ := Result.bind_eq_ok.mp made
  obtain ⟨g, numbered, verdict⟩ := Result.bind_eq_ok.mp made
  obtain ⟨_, rfl⟩ := requireNumberedFrom_eq_ok.mp numbered
  exact ⟨_, Result.bind_eq_ok.mpr ⟨f, limits_encodeViews.draft_of f encoded, rfl⟩, verdict⟩

/-- SOLVING STOPS EXACTLY FOR WANT OF LITERALS, where there is a query, and otherwise gives the verdict on it. -/
theorem outcome_of_query (made : query views reconnection inputs outputs = .ok q) :
    (c.bySolving views reconnection inputs outputs).outcome =
      if q.formula.isNumbered then q.verdict c.oracle else .error (.breach .unnumberedVariable) := by
  obtain ⟨f, drafted, same⟩ := Result.bind_eq_ok.mp made
  cases same
  obtain ⟨_, grown⟩ := difference_keeps f outputs
  rw [outcome_bySolving, limits_encodeViews.limited_of f drafted, requireNumberedFrom_eq, isNumbered,
    isNumberedFrom_split grown (Nat.zero_le _)]
  change (if f.isNumberedFrom 0 then _ else _ : Result Formula) >>= _ = _
  cases f.isNumberedFrom 0 with
  | false => rfl
  | true =>
    rw [if_pos rfl, Result.ok_bind, requireNumberedFrom_eq, Bool.true_and]
    cases (askDifference f outputs).isNumberedFrom f.clauses.size <;> rfl

/-- A query that is not too large has a verdict, as far as the oracle has an answer. -/
theorem verdict_of_query (coherent : ∀ v ∈ views, v.Coherent) (made : query views reconnection inputs outputs = .ok q)
    (inRange : q.formula.size ≤ Lit.largestVar + 1) :
    (c.bySolving views reconnection inputs outputs).outcome = q.verdict c.oracle := by
  rw [outcome_of_query made, if_pos]
  exact (query_extends coherent made).1.fit.isNumberedFrom inRange 0

/-! A query takes two variables for a pair of inputs, three for a pair of outputs, and what its views demand. -/

theorem size_bindInputs_le (f : Formula) (pairs : List SitePair) :
    (bindInputs f pairs).2.size ≤ f.size + 2 * pairs.length := by
  induction pairs generalizing f with
  | nil => exact Nat.le_refl _
  | cons p pairs ih =>
    have left := f.size_var_le p.1 0
    have right := (f.var p.1 0).2.size_var_le p.2 0
    refine Nat.le_trans (ih _) ?_
    rw [size_buffer, List.length_cons]
    show ((f.var p.1 0).2.var p.2 0).2.size + 2 * pairs.length ≤ _
    omega

theorem size_compareOutputs_le (f : Formula) (pairs : List SitePair) :
    (compareOutputs f pairs).2.2.size ≤ f.size + 3 * pairs.length := by
  induction pairs generalizing f with
  | nil => exact Nat.le_refl _
  | cons p pairs ih =>
    have left := f.size_var_le p.1 0
    have right := (f.var p.1 0).2.size_var_le p.2 0
    refine Nat.le_trans (ih _) ?_
    rw [size_parity, List.length_cons]
    show ((f.var p.1 0).2.var p.2 0).2.size + 1 + 3 * pairs.length ≤ _
    omega

theorem size_draftViews_le (coherent : ∀ v ∈ views, v.Coherent) (made : draftViews f views = .ok f') :
    f'.size ≤ f.size + (views.map View.demand).sum := by
  have whole := Encode.foldlM_size_le (c := fun x : View × Nat => x.1.demand) (fun x mem _ _ step =>
    Encode.size_draftView_le (coherent x.1 (List.fst_mem_of_mem_zipIdx mem)) step) made
  have same : views.zipIdx.map (fun x => x.1.demand) = views.map View.demand := by
    conv_rhs => rw [← List.zipIdx_map_fst 0 views, List.map_map]
    rfl
  rwa [same] at whole

theorem size_query_le (coherent : ∀ v ∈ views, v.Coherent) (made : query views reconnection inputs outputs = .ok q) :
    q.formula.size ≤ 2 * inputs.length + (views.map View.demand).sum + 3 * outputs.length := by
  obtain ⟨f, drafted, same⟩ := Result.bind_eq_ok.mp made
  cases same
  have bound := size_bindInputs_le (withReconnection reconnection) inputs
  have encoded := size_draftViews_le coherent drafted
  have compared := size_compareOutputs_le f outputs
  rw [show (withReconnection reconnection).size = 0 from rfl] at bound
  show (compareOutputs f outputs).2.2.size ≤ _
  omega

end Range

theorem valuesOf_eq {m : Model} (model : f.model = some m) {vars : List (Nat × Nat)}
    (known : ∀ x ∈ vars, x.1 < m.size ∧ x.2 < m.size) : valuesOf f vars = .ok (vars.map (varValues m.value)) := by
  have value : ∀ v < m.size, f.value v = .ok (m.value v) := by
    intro v lt
    simp [Formula.value, model, Model.value, lt, Result.getOrBreach]
  unfold valuesOf
  induction vars with
  | nil => rfl
  | cons x vars ih =>
    obtain ⟨a, b⟩ := x
    rw [List.forall_mem_cons] at known
    simp only [List.mapM_cons, ih known.2, value a known.1.1, value b known.1.2]
    rfl

variable {q : Query} {oracle : Oracle}

theorem verdict_of_none (refuted : oracle q.formula.size q.formula.clauses.toList = .ok none) :
    q.verdict oracle = .ok .equal := by
  simp [Query.verdict, solve, refuted]

theorem verdict_of_some {m : Model} (found : oracle q.formula.size q.formula.clauses.toList = .ok (some m))
    (size : q.formula.size ≤ m.size) (inputs : IssuedPairs q.formula q.inputs)
    (outputs : IssuedPairs q.formula q.outputs) :
    q.verdict oracle = .ok (.different
      ⟨q.inputs.map (varValues m.value), q.outputs.map (varValues m.value), some q.formula.dimacs⟩) := by
  have known {vars : List (Nat × Nat)} (issued : IssuedPairs q.formula vars) :
      valuesOf { q.formula with model := some m } vars = .ok (vars.map (varValues m.value)) :=
    valuesOf_eq rfl fun x mem => ⟨Nat.lt_of_lt_of_le (issued x mem).1 size, Nat.lt_of_lt_of_le (issued x mem).2 size⟩
  simp only [Query.verdict, solve, found, Result.ok_bind, Option.isSome_some, Bool.not_true, Bool.false_eq_true,
    if_false, pure_bind, known inputs, known outputs]
  rfl

theorem refuted_of_equal (equal : q.verdict oracle = .ok .equal) :
    oracle q.formula.size q.formula.clauses.toList = .ok none := by
  unfold Query.verdict solve at equal
  cases answer : oracle q.formula.size q.formula.clauses.toList with
  | error e =>
    rw [answer] at equal
    cases equal
  | ok model =>
    cases model with
    | none => rfl
    | some m =>
      simp only [answer, Result.ok_bind, pure_bind, Option.isSome_some, Bool.not_true, Bool.false_eq_true,
        if_false] at equal
      obtain ⟨_, _, rest⟩ := Result.bind_eq_ok.mp equal
      obtain ⟨_, _, rest⟩ := Result.bind_eq_ok.mp rest
      cases rest

/-- Valuations of two views that agree on the pairs `pins` and differ on one of the pairs `reads`. -/
structure Separates (left right : View) (pins reads : List (GateId × GateId)) (vl vr : GateId → Bool) : Prop where
  left : left.Valuation vl
  right : right.Valuation vr
  agree : ∀ x ∈ pins, vl x.1 = vr x.2
  differ : ∃ x ∈ reads, vl x.1 ≠ vr x.2

/-- The values that two valuations give to pairs of gates. -/
def gateValues (vl vr : GateId → Bool) (x : GateId × GateId) : ValuePair := (vl x.1, vr x.2)

theorem siteValues_sitePairs (b : Binding) (val : Moment → Bool) :
    (sitePairs b 0 1).map (siteValues (withReconnection {}).connected val) =
      (driverPairs b).map (gateValues (fun id => val ⟨⟨0, id⟩, 0⟩) fun id => val ⟨⟨1, id⟩, 0⟩) := by
  rw [connected_empty, sitePairs, List.map_map]
  rfl

/-- Without reconnection a query about two views asks for valuations that separate them. -/
theorem asked_iff {left right : View} {sources targets : Binding} {val : Moment → Bool} :
    Asked [left, right] (withReconnection {}).connected (sitePairs sources 0 1) (sitePairs targets 0 1) val ↔
      Separates left right (driverPairs sources) (driverPairs targets) (fun id => val ⟨⟨0, id⟩, 0⟩)
        fun id => val ⟨⟨1, id⟩, 0⟩ := by
  rw [connected_empty]
  constructor
  · rintro ⟨valuations, agree, p, mem, differ⟩
    refine ⟨valuations (left, 0) (by simp), valuations (right, 1) (by simp), ?_, ?_⟩
    · exact List.forall_mem_map.mp agree
    · obtain ⟨x, read, rfl⟩ := List.mem_map.mp mem
      exact ⟨x, read, differ⟩
  · rintro ⟨valueLeft, valueRight, agree, x, read, differ⟩
    refine ⟨?_, List.forall_mem_map.mpr agree, _, List.mem_map.mpr ⟨x, read, rfl⟩, differ⟩
    simp only [List.zipIdx_cons, List.zipIdx_nil, List.forall_mem_cons]
    exact ⟨valueLeft, valueRight, by simp⟩

variable {left right : View} {sources targets : Binding}

/-- The query about two views under bindings. -/
abbrev pairQuery (left right : View) (sources targets : Binding) : Result Query :=
  query [left, right] {} (sitePairs sources 0 1) (sitePairs targets 0 1)

theorem coherent_pair (coherentLeft : left.Coherent) (coherentRight : right.Coherent) :
    ∀ v ∈ [left, right], v.Coherent := by
  simp only [List.forall_mem_cons]
  exact ⟨coherentLeft, coherentRight, by simp⟩

/-- Valuations that separate the views make a model. -/
theorem exists_model_of_separates (coherentLeft : left.Coherent) (coherentRight : right.Coherent)
    (made : pairQuery left right sources targets = .ok q) {vl vr : GateId → Bool}
    (separates : Separates left right (driverPairs sources) (driverPairs targets) vl vr) :
    ∃ value, ∀ c ∈ q.formula.clauses.toList, Clause.holds value c = true := by
  obtain ⟨extends_, _⟩ := query_extends (coherent_pair coherentLeft coherentRight) made
  let val : Moment → Bool := fun key => if key.site.net = 0 then vl key.site.gate else vr key.site.gate
  obtain ⟨value, _, met⟩ := extends_.complete val (fun _ => false)
    (meets_withReconnection {} val _) (asked_iff.mpr separates)
  exact ⟨value, fun c mem => met.clauses c (Array.mem_def.mpr mem)⟩

/-- A model is made of valuations that separate the views, and reports their values. -/
theorem separates_of_model (coherentLeft : left.Coherent) (coherentRight : right.Coherent)
    (made : pairQuery left right sources targets = .ok q) {value : Nat → Bool}
    (holds : ∀ c ∈ q.formula.clauses.toList, Clause.holds value c = true) :
    ∃ vl vr, Separates left right (driverPairs sources) (driverPairs targets) vl vr ∧
      q.inputs.map (varValues value) = (driverPairs sources).map (gateValues vl vr) ∧
      q.outputs.map (varValues value) = (driverPairs targets).map (gateValues vl vr) := by
  obtain ⟨extends_, _⟩ := query_extends (coherent_pair coherentLeft coherentRight) made
  obtain ⟨val, met⟩ := exists_meets fun c mem => holds c (Array.mem_def.mp mem)
  obtain ⟨_, asked, inputs, outputs⟩ := extends_.sound val value met
  rw [siteValues_sitePairs] at inputs outputs
  exact ⟨_, _, asked_iff.mp asked, inputs, outputs⟩

/-- An equal verdict rests on refutation alone. -/
theorem not_separates_of_equal {c : Checker} (sound : c.oracle.Sound) (coherentLeft : left.Coherent)
    (coherentRight : right.Coherent)
    (equal : (c.bySolving [left, right] {} (sitePairs sources 0 1) (sitePairs targets 0 1)).outcome = .ok .equal)
    {vl vr : GateId → Bool} : ¬Separates left right (driverPairs sources) (driverPairs targets) vl vr := by
  intro separates
  obtain ⟨q, made, verdict⟩ := query_of_bySolving equal
  obtain ⟨value, holds⟩ := exists_model_of_separates coherentLeft coherentRight made separates
  obtain ⟨clause, mem, fails⟩ := sound _ _ (refuted_of_equal verdict) value
  rw [holds clause mem] at fails
  cases fails

/-- A difference rests on models alone: its values are those of valuations that separate the views. -/
theorem separates_of_different {c : Checker} (faithful : c.oracle.Faithful) (coherentLeft : left.Coherent)
    (coherentRight : right.Coherent) {cex : Counterexample}
    (different : (c.bySolving [left, right] {} (sitePairs sources 0 1) (sitePairs targets 0 1)).outcome =
      .ok (.different cex)) :
    ∃ vl vr, Separates left right (driverPairs sources) (driverPairs targets) vl vr ∧
      cex.inputs = (driverPairs sources).map (gateValues vl vr) ∧
      cex.outputs = (driverPairs targets).map (gateValues vl vr) := by
  obtain ⟨q, made, verdict⟩ := query_of_bySolving different
  obtain ⟨extends_, inputs, outputs⟩ := query_extends (coherent_pair coherentLeft coherentRight) made
  cases answer : c.oracle q.formula.size q.formula.clauses.toList with
  | error e =>
    rw [Query.verdict, solve, answer] at verdict
    cases verdict
  | ok model =>
    cases model with
    | none =>
      rw [verdict_of_none answer] at verdict
      cases verdict
    | some m =>
      obtain ⟨size, satisfies⟩ := faithful extends_.fit.isBelow answer
      rw [verdict_of_some answer size inputs outputs] at verdict
      cases verdict
      exact separates_of_model coherentLeft coherentRight made fun d mem => List.all_eq_true.mp satisfies d mem

theorem exists_pairQuery_of_customFree (coherentLeft : left.Coherent) (coherentRight : right.Coherent)
    (customFreeLeft : left.CustomFree) (customFreeRight : right.CustomFree)
    {leftOrder rightOrder : List GateId} (orderedLeft : left.orderedGates = .ok leftOrder)
    (orderedRight : right.orderedGates = .ok rightOrder) : ∃ q, pairQuery left right sources targets = .ok q := by
  refine exists_query ?_
  simp only [List.forall_mem_cons]
  exact ⟨⟨coherentLeft, customFreeLeft, leftOrder, orderedLeft⟩, ⟨coherentRight, customFreeRight, rightOrder, orderedRight⟩,
    by simp⟩

theorem exists_pairQuery (statelessLeft : left.Stateless) (statelessRight : right.Stateless)
    {leftOrder rightOrder : List GateId} (orderedLeft : left.orderedGates = .ok leftOrder)
    (orderedRight : right.orderedGates = .ok rightOrder) : ∃ q, pairQuery left right sources targets = .ok q :=
  exists_pairQuery_of_customFree statelessLeft.ofReachable.coherent statelessRight.ofReachable.coherent
    statelessLeft.customFree statelessRight.customFree orderedLeft orderedRight

/-- SOLVING DECIDES EQUIVALENCE under any bindings. The verdict is that the views are equal exactly if no
valuations separate them, and otherwise a counterexample made of the values of such valuations. -/
theorem bySolving_decides {c : Checker} (correct : c.oracle.Correct) (statelessLeft : left.Stateless)
    (statelessRight : right.Stateless) {leftOrder rightOrder : List GateId}
    (orderedLeft : left.orderedGates = .ok leftOrder) (orderedRight : right.orderedGates = .ok rightOrder)
    (inRange : ∀ q, pairQuery left right sources targets = .ok q → q.formula.size ≤ Lit.largestVar + 1) :
    let outcome := (c.bySolving [left, right] {} (sitePairs sources 0 1) (sitePairs targets 0 1)).outcome
    let Separated := Separates left right (driverPairs sources) (driverPairs targets)
    (outcome = .ok .equal ↔ ¬∃ vl vr, Separated vl vr) ∧
      ((∃ vl vr, Separated vl vr) → ∃ cex, outcome = .ok (.different cex)) ∧
      ∀ cex, outcome = .ok (.different cex) → ∃ vl vr, Separated vl vr ∧
        cex.inputs = (driverPairs sources).map (gateValues vl vr) ∧
        cex.outputs = (driverPairs targets).map (gateValues vl vr) := by
  intro outcome Separated
  have coherentLeft := statelessLeft.ofReachable.coherent
  have coherentRight := statelessRight.ofReachable.coherent
  obtain ⟨q, made⟩ : ∃ q, pairQuery left right sources targets = .ok q :=
    exists_pairQuery statelessLeft statelessRight orderedLeft orderedRight
  obtain ⟨extends_, inputs, outputs⟩ := query_extends (coherent_pair coherentLeft coherentRight) made
  have verdict : outcome = q.verdict c.oracle :=
    verdict_of_query (coherent_pair coherentLeft coherentRight) made (inRange q made)
  obtain ⟨answer, answered⟩ := correct.answers (inRange q made) extends_.fit.isBelow
  cases answer with
  | none =>
    rw [verdict, verdict_of_none answered]
    have never : ¬∃ vl vr, Separated vl vr := by
      rintro ⟨vl, vr, separates⟩
      obtain ⟨value, holds⟩ := exists_model_of_separates coherentLeft coherentRight made separates
      obtain ⟨clause, mem, fails⟩ := correct.sound _ _ answered value
      rw [holds clause mem] at fails
      cases fails
    exact ⟨⟨fun _ => never, fun _ => rfl⟩, fun separated => absurd separated never, nofun⟩
  | some m =>
    obtain ⟨size, satisfies⟩ := correct.model answered
    rw [verdict, verdict_of_some answered size inputs outputs]
    obtain ⟨vl, vr, separates, ins, outs⟩ := separates_of_model coherentLeft coherentRight made
      fun d mem => List.all_eq_true.mp satisfies d mem
    refine ⟨⟨nofun, fun never => absurd ⟨vl, vr, separates⟩ never⟩, fun _ => ⟨_, rfl⟩, ?_⟩
    intro cex same
    cases same
    exact ⟨vl, vr, separates, ins, outs⟩

section Samples

/-- All lists of `n` bits. -/
def bitLists : Nat → List (List Bool)
  | 0 => [[]]
  | n + 1 => (bitLists n).flatMap fun bits => [false :: bits, true :: bits]

theorem mem_bitLists {n : Nat} {bits : List Bool} : bits ∈ bitLists n ↔ bits.length = n := by
  induction n generalizing bits with
  | zero => simp [bitLists]
  | succ n ih =>
    cases bits with
    | nil => simp [bitLists]
    | cons b bits => cases b <;> simp [bitLists, ih]

/-- Try all assignments. Clauses over variables that were not handed out are refused. -/
def trying : Oracle := fun n clauses =>
  if clauses.all (·.isBelow n) then
    .ok (((bitLists n).find? fun bits => Model.satisfies bits.toArray clauses).map List.toArray)
  else .error (.refusal (.solver "no such variable"))

theorem trying_correct : Oracle.Correct trying where
  sound n clauses refuted value := by
    unfold trying at refuted
    split at refuted
    case isFalse => cases refuted
    case isTrue below =>
      have none : (bitLists n).find? (fun bits => Model.satisfies bits.toArray clauses) = none := by
        simpa using refuted
      have fails := List.find?_eq_none.mp none ((List.range n).map value) (mem_bitLists.mpr (by simp))
      rw [Model.satisfies, List.all_eq_true] at fails
      by_contra always
      refine fails fun c mem => ?_
      have holds : Clause.holds value c = true := by
        by_contra low
        exact always ⟨c, mem, Bool.eq_false_iff.mpr low⟩
      refine Clause.holds_congr (n := n) (fun l inside => ?_) (fun v lt => ?_) holds
      · exact of_decide_eq_true (List.all_eq_true.mp (List.all_eq_true.mp below c mem) l inside)
      · simp [Model.value, lt]
  model := by
    intro n clauses m found
    unfold trying at found
    split at found
    case isFalse => cases found
    case isTrue =>
      obtain ⟨bits, here, rfl⟩ := Option.map_eq_some_iff.mp (Except.ok.inj found)
      have length := mem_bitLists.mp (List.mem_of_find?_eq_some here)
      have satisfied := List.find?_some here
      exact ⟨by simp [length], satisfied⟩
  answers := by
    intro n clauses _ below
    refine ⟨_, if_pos (List.all_eq_true.mpr below)⟩

/-- A negated exclusive or. -/
def xnorView : View :=
  (Netlist.made [⟨.input, []⟩, ⟨.input, []⟩, .nary .xnor [⟨0⟩, ⟨1⟩]]).view

/-- An exclusive or and a negation after it. -/
def notXorView : View :=
  (Netlist.made [⟨.input, []⟩, ⟨.input, []⟩, .nary .xor [⟨0⟩, ⟨1⟩], .nary .not [⟨2⟩]]).view

theorem xnor_equals_notXor :
    let c : Checker := { oracle := trying }
    let sources := portPairs [(0, 0), (1, 1)]
    let targets := portPairs [(2, 3)]
    (c.bySolving [xnorView, notXorView] {} (sitePairs sources 0 1) (sitePairs targets 0 1)).outcome = .ok .equal ∧
      ¬∃ vl vr, Separates xnorView notXorView (driverPairs sources) (driverPairs targets) vl vr := by
  intro c sources targets
  have equal : (c.bySolving [xnorView, notXorView] {} (sitePairs sources 0 1) (sitePairs targets 0 1)).outcome =
      .ok .equal := by decide +kernel
  have statelessLeft : xnorView.Stateless := (View.circuit_made (by decide +kernel)).toStateless
  have statelessRight : notXorView.Stateless := (View.circuit_made (by decide +kernel)).toStateless
  have orderedLeft : xnorView.orderedGates = .ok xnorView.part.gates := by decide +kernel
  have orderedRight : notXorView.orderedGates = .ok notXorView.part.gates := by decide +kernel
  have inRange : ∀ q, pairQuery xnorView notXorView sources targets = .ok q → q.formula.size ≤ Lit.largestVar + 1 :=
    Result.forall_of_all (by decide +kernel)
  exact ⟨equal, (bySolving_decides (c := c) trying_correct statelessLeft statelessRight orderedLeft orderedRight
    inRange).1.mp equal⟩

end Samples

end Checker

end LogicNet
