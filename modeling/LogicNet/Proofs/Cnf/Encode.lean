import LogicNet.Cnf.Encode
import LogicNet.Proofs.Cnf.Rule
import LogicNet.Proofs.Valuation

/-!
# Encoded views

The clauses of an encoded view say of the values of its gates what the functions of the gates say. This
holds at every version: a triggered gate is related to its value one version before, except at version
zero, where it is free. At version zero the encoding of a view has the valuations of the view.

What the clauses say does not depend on which literals can be made, so it is said of DRAFTS, which do not stop for
want of literals.
-/

namespace LogicNet

/-- The value `y` of a function of `xs`, where its gate held `held`. Nothing is said without operands, and
nothing of memory at version zero. -/
def GateFn.Relates (fn : GateFn) (version : Nat) (held y : Bool) (xs : List Bool) : Prop :=
  (fn.isConstant = false → xs ≠ []) → (version = 0 → fn.isTriggered = false) → y = fn.evalBit held xs

/-- The equation of a gate at a version, over the values at the places whose variables stand for it. -/
def Gate.HoldsAt (g : Gate) (net : Netlist) (place : Site → Site) (val : Moment → Bool)
    (index version : Nat) : Prop :=
  g.fn.Relates version (val ⟨place ⟨index, g.id⟩, version - 1⟩) (val ⟨place ⟨index, g.id⟩, version⟩)
    (g.inputs.map fun s => val ⟨place ⟨index, s.driver⟩, Encode.readVersion net s.driver version⟩)

namespace Encode

open Formula

variable {f f' : Formula}

/-! ## Gates -/

theorem adds_nothing {condition : Condition} (fit : f.Fit) (vacuous : ∀ val value, condition val value) :
    Adds f f condition :=
  (Extends.refl fit).weaken (fun _ _ _ => trivial) fun val value _ => vacuous val value

/-- A rule for the function of a gate that is not free relates its value. -/
theorem adds_relates {fn : GateFn} {version y : Nat} {xs : List Nat} {held : (Moment → Bool) → Bool}
    {rule : Condition} (adds : Adds f f' rule) (operands : fn.isConstant = false → xs ≠ [])
    (later : version = 0 → fn.isTriggered = false)
    (eq : ∀ val value, rule val value ↔ value y = fn.evalBit (held val) (xs.map value)) :
    Adds f f' fun val value => fn.Relates version (held val) (value y) (xs.map value) := by
  refine adds.congr fun val value => (eq val value).trans ⟨fun h _ _ => h, fun h => h ?_ later⟩
  intro plain
  simpa using operands plain

theorem ne_nil_of_le {α : Type} {xs : List α} (h : decide (1 ≤ xs.length) = true) : xs ≠ [] :=
  List.ne_nil_of_length_pos (of_decide_eq_true h)

/-- A latch follows its data while it is enabled, and else its own value at the version before. -/
theorem latch_adds (fit : f.Fit) {y enable data version : Nat} (s : Site) (hy : y < f.size) (he : enable < f.size)
    (hd : data < f.size) :
    Adds f ((f.var s version).2.select y enable data (f.var s version).1) fun val value =>
      value y = if value enable then value data else val ⟨f.connected s, version⟩ := by
  obtain ⟨held, lt⟩ := var_defines fit s version
  have grown {x : Nat} (lt : x < f.size) := Nat.lt_of_lt_of_le lt held.size_le
  refine held.thenAdds (select_adds held.fit (grown hy) (grown he) (grown hd) lt) ?_ ?_
  · intro val value known
    rw [known]
  · intro val value value' agree equation
    rw [← agree y hy, ← agree enable he, ← agree data hd]
    exact equation

/-- Reset wins over set, and set over data. -/
theorem resettable_adds (fit : f.Fit) {y set reset data : Nat} (hy : y < f.size) (hs : set < f.size)
    (hr : reset < f.size) (hd : data < f.size) :
    let f₁ := f.fresh.2.disj f.size [set, data] true
    let f₂ := f₁.fresh.2.buffer f₁.size reset false
    Adds f (f₂.conj y [f₁.size, f.size] true) fun _ value =>
      value y = (!value reset && (value set || value data)) := by
  intro f₁ f₂
  have chosen : Defines f f₁ fun _ value => value f.size = (value set || value data) := by
    have rule := @disj_adds _ f.size fit.fresh (Nat.lt_succ_self _) [set, data] ?_ true
    · refine Extends.define (rule.congr fun _ value => by simp) fit fun value value' agree => ?_
      rw [agree set hs, agree data hd]
    · simp only [List.forall_mem_cons]
      exact ⟨Nat.lt_succ_of_lt hs, Nat.lt_succ_of_lt hd, by simp⟩
  have grown {x : Nat} (lt : x < f.size) := Nat.lt_of_lt_of_le lt chosen.size_le
  have running : Defines f₁ f₂ fun _ value => value f₁.size = !value reset := by
    have rule := buffer_adds chosen.fit.fresh (Nat.lt_succ_self f₁.size) (Nat.lt_succ_of_lt (grown hr)) false
    refine Extends.define (rule.congr fun _ value => by simp) chosen.fit fun value value' agree => ?_
    rw [agree reset (grown hr)]
  have both := chosen.andThen running
  refine both.thenAdds (conj_adds both.fit (Nat.lt_of_lt_of_le hy both.size_le) ?_ true) ?_ ?_
  · have lt : f.size < f₁.size := Nat.lt_succ_self _
    have le : f₁.size < f₂.size := Nat.lt_succ_self _
    simp only [List.forall_mem_cons]
    exact ⟨le, Nat.lt_trans lt le, by simp⟩
  · rintro _ value ⟨first, second⟩
    simp [first, second]
  · intro _ value value' agree equation
    rw [← agree y hy, ← agree reset hr, ← agree set hs, ← agree data hd]
    exact equation

theorem equation_adds (fit : f.Fit) {g : Gate} {index version y : Nat} {xs : List Nat}
    (arity : g.fn.accepts xs.length = true) (hy : y < f.size) (below : ∀ x ∈ xs, x < f.size)
    (made : equation f g index version y xs = .ok f') :
    Adds f f' fun val value =>
      g.fn.Relates version (val ⟨f.connected ⟨index, g.id⟩, version - 1⟩) (value y) (xs.map value) := by
  unfold equation at made
  cases fn : g.fn <;> rw [fn] at arity made
  case input =>
    cases made
    obtain rfl := List.eq_nil_of_length_eq_zero (beq_iff_eq.mp arity)
    exact adds_nothing fit fun _ _ operands => absurd rfl (operands rfl)
  case zero =>
    cases made
    exact adds_relates (fix_adds fit hy false) nofun (fun _ => rfl) fun _ _ => Iff.rfl
  case one =>
    cases made
    exact adds_relates (fix_adds fit hy true) nofun (fun _ => rfl) fun _ _ => Iff.rfl
  case output =>
    obtain ⟨a, rfl⟩ := List.length_eq_one_iff.mp (beq_iff_eq.mp arity)
    cases made
    refine adds_relates (buffer_adds fit hy (below a List.mem_cons_self) true) nofun (fun _ => rfl) ?_
    simp [GateFn.evalBit]
  case buffer =>
    match xs with
    | [] =>
      cases made
      exact adds_nothing fit fun _ _ operands => absurd rfl (operands rfl)
    | [a] =>
      cases made
      refine adds_relates (buffer_adds fit hy (below a List.mem_cons_self) true) nofun (fun _ => rfl) ?_
      simp [GateFn.evalBit]
    | _ :: _ :: _ => simp [GateFn.accepts] at arity
  case not =>
    obtain ⟨a, rfl⟩ := List.length_eq_one_iff.mp (beq_iff_eq.mp arity)
    cases made
    refine adds_relates (buffer_adds fit hy (below a List.mem_cons_self) false) nofun (fun _ => rfl) ?_
    simp [GateFn.evalBit]
  case and =>
    cases made
    refine adds_relates (conj_adds fit hy below true) (fun _ => ne_nil_of_le arity) (fun _ => rfl) ?_
    simp [GateFn.evalBit]
  case nand =>
    cases made
    refine adds_relates (conj_adds fit hy below false) (fun _ => ne_nil_of_le arity) (fun _ => rfl) ?_
    simp [GateFn.evalBit]
  case or =>
    cases made
    refine adds_relates (disj_adds fit hy below true) (fun _ => ne_nil_of_le arity) (fun _ => rfl) ?_
    simp [GateFn.evalBit]
  case nor =>
    cases made
    refine adds_relates (disj_adds fit hy below false) (fun _ => ne_nil_of_le arity) (fun _ => rfl) ?_
    simp [GateFn.evalBit]
  case xor =>
    refine adds_relates (parityChain_adds fit hy true below made) (fun _ => ne_nil_of_le arity) (fun _ => rfl) ?_
    simp [GateFn.evalBit]
  case xnor =>
    refine adds_relates (parityChain_adds fit hy false below made) (fun _ => ne_nil_of_le arity) (fun _ => rfl) ?_
    simp [GateFn.evalBit]
  case majority =>
    have odd : xs.length % 2 = 1 := beq_iff_eq.mp arity
    refine adds_relates (majority_adds fit hy below made) (fun _ => ?_) (fun _ => rfl) ?_
    · exact List.ne_nil_of_length_pos (by omega)
    · simp [GateFn.evalBit]
  case latch =>
    obtain ⟨data, enable, rfl⟩ := List.length_eq_two.mp (beq_iff_eq.mp arity)
    cases version with
    | zero =>
      cases made
      exact adds_nothing fit fun _ _ _ later => absurd (later rfl) nofun
    | succ before =>
      cases made
      simp only [List.forall_mem_cons] at below
      refine adds_relates (latch_adds fit ⟨index, g.id⟩ hy below.2.1 below.1) nofun nofun ?_
      simp [GateFn.evalBit]
  case flipFlop =>
    obtain ⟨data, clock, rfl⟩ := List.length_eq_two.mp (beq_iff_eq.mp arity)
    cases version with
    | zero =>
      cases made
      exact adds_nothing fit fun _ _ _ later => absurd (later rfl) nofun
    | succ before =>
      cases made
      refine adds_relates (buffer_adds fit hy (below data List.mem_cons_self) true) nofun nofun ?_
      simp [GateFn.evalBit]
  case flipFlopRS =>
    obtain ⟨data, clock, reset, set, rfl⟩ : ∃ a b c d, xs = [a, b, c, d] := by
      match xs, beq_iff_eq.mp arity with
      | [a, b, c, d], _ => exact ⟨a, b, c, d, rfl⟩
    cases version with
    | zero =>
      cases made
      exact adds_nothing fit fun _ _ _ later => absurd (later rfl) nofun
    | succ before =>
      cases made
      simp only [List.forall_mem_cons] at below
      obtain ⟨hd, _, hr, hs, _⟩ := below
      refine adds_relates (resettable_adds fit hy hs hr hd) nofun nofun ?_
      simp [GateFn.evalBit]
  case custom => cases made

/-! ## Views -/

theorem draftGate_adds (fit : f.Fit) {net : Netlist} {index version : Nat} {g : Gate} (arity : g.hasArity = true)
    (made : draftGate net index version f g = .ok f') :
    Adds f f' fun val _ => g.HoldsAt net f.connected val index version := by
  obtain ⟨out, hy⟩ := var_defines fit ⟨index, g.id⟩ version
  obtain ⟨operands, below⟩ := varsOf_defines out.fit
    (g.inputs.map fun s => (⟨index, s.driver⟩, readVersion net s.driver version))
  have both := out.andThen operands
  simp only [draftGate] at made
  refine both.thenAdds (equation_adds both.fit ?_ (Nat.lt_of_lt_of_le hy operands.size_le) below made) ?_ ?_
  · rw [length_varsOf, List.length_map]
    exact arity
  · rintro val value ⟨known, read⟩
    rw [known, read, connected_congr both.reconnection_eq, connected_congr out.reconnection_eq, List.map_map]
    exact Iff.rfl
  · exact fun _ _ _ _ holds => holds

/-- The moments that the equation of a gate is about. -/
inductive Mentions (g : Gate) (net : Netlist) (index version : Nat) : Moment → Prop
  | value : Mentions g net index version ⟨⟨index, g.id⟩, version⟩
  | operand {s : Signal} (mem : s ∈ g.inputs) :
    Mentions g net index version ⟨⟨index, s.driver⟩, readVersion net s.driver version⟩
  | held (latch : g.fn = .latch) (later : 0 < version) : Mentions g net index version ⟨⟨index, g.id⟩, version - 1⟩

theorem equation_knows {g : Gate} {index version y : Nat} {xs : List Nat} (latch : g.fn = .latch) (later : 0 < version)
    (made : equation f g index version y xs = .ok f') : f'.Knows ⟨f.connected ⟨index, g.id⟩, version - 1⟩ := by
  obtain ⟨before, rfl⟩ := Nat.exists_eq_succ_of_ne_zero (Nat.ne_of_gt later)
  simp only [equation, latch] at made
  cases made
  obtain ⟨v, found⟩ := knows_var f ⟨index, g.id⟩ before
  refine ⟨v, ?_⟩
  rw [select, vars_addAll]
  exact found

/-- A gate is encoded with a variable for every moment that its equation is about. -/
theorem draftGate_knows (fit : f.Fit) {net : Netlist} {index version : Nat} {g : Gate} (arity : g.hasArity = true)
    (made : draftGate net index version f g = .ok f') {m : Moment} (mentioned : Mentions g net index version m) :
    f'.Knows ⟨f.connected m.site, m.version⟩ := by
  obtain ⟨out, hy⟩ := var_defines fit ⟨index, g.id⟩ version
  obtain ⟨operands, below⟩ := varsOf_defines out.fit
    (g.inputs.map fun s => (⟨index, s.driver⟩, readVersion net s.driver version))
  simp only [draftGate] at made
  have equation := equation_adds operands.fit (by rw [length_varsOf, List.length_map]; exact arity)
    (Nat.lt_of_lt_of_le hy operands.size_le) below made
  cases mentioned with
  | value => exact equation.knows (operands.knows (knows_var f ⟨index, g.id⟩ version))
  | operand mem =>
    rw [← connected_congr out.reconnection_eq]
    exact equation.knows (knows_varsOf out.fit _ (List.mem_map_of_mem mem))
  | held latch later =>
    have known := equation_knows latch later made
    rwa [connected_congr operands.reconnection_eq, connected_congr out.reconnection_eq] at known

/-- The formula with all gates of a view, whether or not their literals can be made. -/
def draftView (v : View) (index version : Nat) (f : Formula) : Result Formula := do
  let order ← v.orderedGates
  order.foldlM (fun f id => do draftGate v.net index version f (← v.net.gate id)) f

/-- What every step of a loop adds, the loop adds for all. -/
theorem foldlM_adds {α : Type} {step : Formula → α → Result Formula} {P : α → (Moment → Bool) → Prop}
    {xs : List α} (fit : f.Fit)
    (each : ∀ x ∈ xs, ∀ g g', g.Fit → g.reconnection = f.reconnection → step g x = .ok g' →
      Adds g g' fun val _ => P x val)
    (made : xs.foldlM step f = .ok f') : Adds f f' fun val _ => ∀ x ∈ xs, P x val := by
  induction xs generalizing f with
  | nil =>
    cases made
    exact adds_nothing fit (by simp)
  | cons x xs ih =>
    rw [List.foldlM_cons] at made
    obtain ⟨f₁, first, rest⟩ := Result.bind_eq_ok.mp made
    rw [List.forall_mem_cons] at each
    have head := each.1 f f₁ fit rfl first
    have tail := ih head.fit (fun y mem g g' fit same => each.2 y mem g g' fit (same.trans head.reconnection_eq)) rest
    exact (head.both tail).congr fun val _ => by rw [List.forall_mem_cons]

theorem draftView_adds (fit : f.Fit) {v : View} (coherent : v.Coherent) {index version : Nat}
    (made : draftView v index version f = .ok f') :
    Adds f f' fun val _ => ∀ id ∈ v.part.gates, ∀ g, v.net.gate? id = some g →
      g.HoldsAt v.net f.connected val index version := by
  obtain ⟨order, ordered, made⟩ := Result.bind_eq_ok.mp made
  obtain ⟨perm, _⟩ := coherent.orderedGates_spec ordered
  have all := foldlM_adds (P := fun id val => ∀ g, v.net.gate? id = some g →
    g.HoldsAt v.net f.connected val index version) fit ?_ made
  · exact all.congr fun val _ => ⟨fun each id mem => each id (perm.mem_iff.mpr mem),
      fun each id mem => each id (perm.mem_iff.mp mem)⟩
  · intro id mem h h' fit same made
    obtain ⟨g, found, made⟩ := Result.bind_eq_ok.mp made
    rw [Netlist.gate_eq_ok] at found
    have arity : g.hasArity = true := (Bool.and_eq_true_iff.mp (coherent.wired.valid found)).1
    refine (draftGate_adds fit arity made).congr fun val _ => ?_
    rw [connected_congr same, found]
    simp

/-- Every gate of an encoded view has a variable. -/
theorem draftView_knows (fit : f.Fit) {v : View} (coherent : v.Coherent) {index version : Nat}
    (made : draftView v index version f = .ok f') :
    ∀ id ∈ v.part.gates, f'.Knows ⟨f.connected ⟨index, id⟩, version⟩ := by
  obtain ⟨order, ordered, folded⟩ := Result.bind_eq_ok.mp made
  have perm := (coherent.orderedGates_spec ordered).1
  suffices all : (∀ m, f.Knows m → f'.Knows m) ∧ ∀ id ∈ order, f'.Knows ⟨f.connected ⟨index, id⟩, version⟩ from
    fun id mem => all.2 id (perm.mem_iff.mpr mem)
  clear made ordered perm
  induction order generalizing f with
  | nil =>
    cases folded
    exact ⟨fun _ known => known, by simp⟩
  | cons id order ih =>
    rw [List.foldlM_cons] at folded
    obtain ⟨f₁, step, rest⟩ := Result.bind_eq_ok.mp folded
    obtain ⟨g, found, first⟩ := Result.bind_eq_ok.mp step
    rw [Netlist.gate_eq_ok] at found
    obtain rfl := coherent.wired.keyed found
    have arity : g.hasArity = true := (Bool.and_eq_true_iff.mp (coherent.wired.valid found)).1
    have head := draftGate_adds fit arity first
    obtain ⟨keep, later⟩ := ih head.fit rest
    rw [connected_congr head.reconnection_eq] at later
    refine ⟨fun m known => keep m (head.knows known), List.forall_mem_cons.mpr ⟨?_, later⟩⟩
    exact keep _ (draftGate_knows fit arity first .value)

/-! ## Version zero -/

/-- A gate has operands, or is a constant, unless it is a source. -/
theorem operands_iff {g : Gate} {x : Signal → Bool} :
    (g.fn.isConstant = false → g.inputs.map x ≠ []) ↔ g.isSource = false := by
  cases empty : g.inputs with
  | nil => simp [Shape.isSource, empty]
  | cons s rest => simp [Shape.isSource, empty]

@[simp] theorem readVersion_zero (net : Netlist) (driver : GateId) : readVersion net driver 0 = 0 := by
  unfold readVersion
  split <;> rfl

/-- At version zero the equation of a gate is that the gate obeys. -/
theorem holdsAt_zero {g : Gate} {net : Netlist} {place : Site → Site} {val : Moment → Bool} {index : Nat} :
    g.HoldsAt net place val index 0 ↔ g.Obeys fun id => val ⟨place ⟨index, id⟩, 0⟩ := by
  unfold Gate.HoldsAt GateFn.Relates Gate.Obeys
  simp only [readVersion_zero]
  rw [operands_iff, Shape.isFree]
  cases isSource : g.isSource with
  | true => simp
  | false =>
    cases triggered : g.fn.isTriggered with
    | true => simp
    | false =>
      rw [GateFn.evalBit_held triggered _ false]
      simp

/-- At version zero the encoding adds the valuations of the view. -/
theorem draftView_adds_valuation (fit : f.Fit) {v : View} (coherent : v.Coherent) {index : Nat}
    (made : draftView v index 0 f = .ok f') :
    Adds f f' fun val _ => v.Valuation fun id => val ⟨f.connected ⟨index, id⟩, 0⟩ := by
  refine (draftView_adds fit coherent made).congr fun val _ => ?_
  simp only [holdsAt_zero]
  exact Iff.rfl

theorem exists_equation {g : Gate} {index version y : Nat} {xs : List Nat} (interpreted : g.fn.isUninterpreted = false)
    (arity : g.fn.accepts xs.length = true) : ∃ f', equation f g index version y xs = .ok f' := by
  unfold equation
  cases fn : g.fn <;> rw [fn] at arity interpreted <;> simp only
  case output | buffer =>
    cases xs with
    | nil => exact ⟨_, rfl⟩
    | cons a rest => exact ⟨_, rfl⟩
  case xor | xnor =>
    cases xs with
    | nil => cases arity
    | cons a rest => exact ⟨_, rfl⟩
  case majority =>
    unfold Formula.majority
    rw [if_pos (beq_iff_eq.mp arity)]
    split <;> exact ⟨_, rfl⟩
  case latch | flipFlop | flipFlopRS => cases version <;> exact ⟨_, rfl⟩
  case custom => cases interpreted
  all_goals exact ⟨_, rfl⟩

theorem exists_draftGate {net : Netlist} {index version : Nat} {g : Gate} (interpreted : g.fn.isUninterpreted = false)
    (arity : g.hasArity = true) : ∃ f', draftGate net index version f g = .ok f' := by
  refine exists_equation interpreted ?_
  rw [length_varsOf, List.length_map]
  exact arity

/-- Ordered gates that all have a meaning can be drafted. -/
theorem exists_draftView {v : View} (coherent : v.Coherent) (customFree : v.CustomFree) {order : List GateId}
    (ordered : v.orderedGates = .ok order) (index version : Nat) (f : Formula) :
    ∃ f', draftView v index version f = .ok f' := by
  have inside : ∀ id ∈ order, id ∈ v.part.gates :=
    fun id mem => (coherent.orderedGates_spec ordered).1.mem_iff.mp mem
  unfold draftView
  rw [ordered, Result.ok_bind]
  clear ordered
  induction order generalizing f with
  | nil => exact ⟨f, rfl⟩
  | cons id order ih =>
    rw [List.forall_mem_cons] at inside
    obtain ⟨g, found, _⟩ := coherent.known inside.1
    have arity : g.hasArity = true := (Bool.and_eq_true_iff.mp (coherent.wired.valid found)).1
    rw [List.foldlM_cons, Netlist.gate_eq_ok.mpr found, Result.ok_bind]
    obtain ⟨f₁, made⟩ := @exists_draftGate f v.net index version g (customFree id inside.1 g found) arity
    rw [made, Result.ok_bind]
    exact ih f₁ inside.2

end Encode

end LogicNet
