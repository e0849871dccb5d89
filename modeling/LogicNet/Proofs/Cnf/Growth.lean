import Mathlib.Logic.Relation
import LogicNet.Proofs.Cnf.Exactness

/-!
# How a formula grows

Whatever is asked of a formula, three things can happen to it: an auxiliary variable is taken, the variable of a gate is
looked up or taken, and a clause is added over variables that have been handed out. `Grows` is any number of these steps.

Every rule grows the formula when it is given variables that have been handed out, and so does the encoding of a gate or
of a view, which asks for its variables itself. Nothing is assumed of gates and views: an operand that a gate lacks is
read as variable zero, and this one has been handed out by then, since the gate has a variable of its own.

**The laws** are about one step each, and hold of growth by induction. `Grows.retains`: no moment loses its variable, and
none gets a variable that was there before. `Grows.interning`: the table stays one-to-one, and what the formula mentions
stays below its size.
-/

namespace LogicNet

open Std

namespace Formula

/-- What can happen to a formula at once. -/
inductive Step : Formula → Formula → Prop
  | fresh (f : Formula) : Step f f.fresh.2
  | var (f : Formula) (s : Site) (version : Nat) : Step f (f.var s version).2
  | add {f : Formula} {c : Clause} (below : ∀ l ∈ c, l.var < f.size) : Step f (f.add c)

/-- Any number of steps. -/
abbrev Grows : Formula → Formula → Prop := Relation.ReflTransGen Step

/-- What is there stays, and moments that get a variable get a new one. -/
structure Retains (f f' : Formula) : Prop where
  size_le : f.size ≤ f'.size
  reconnection_eq : f'.reconnection = f.reconnection
  vars_le : ∀ {key : Moment} {v : Nat}, f.vars[key]? = some v → f'.vars[key]? = some v
  taken : ∀ {key : Moment} {v : Nat}, f'.vars[key]? = some v → f.vars[key]? = some v ∨ f.size ≤ v

/-- What the formula mentions has been handed out, and no two moments share a variable. -/
structure Interning (f : Formula) : Prop extends f.Fit where
  distinct : ∀ {key key' : Moment} {v : Nat}, f.vars[key]? = some v → f.vars[key']? = some v → key = key'

variable {f f' f'' : Formula}

/-! ## Laws of growth -/

theorem Retains.refl (f : Formula) : f.Retains f := ⟨Nat.le_refl _, rfl, id, .inl⟩

theorem Retains.trans (h : f.Retains f') (h' : f'.Retains f'') : f.Retains f'' where
  size_le := Nat.le_trans h.size_le h'.size_le
  reconnection_eq := h'.reconnection_eq.trans h.reconnection_eq
  vars_le known := h'.vars_le (h.vars_le known)
  taken known := by
    rcases h'.taken known with before | new
    · exact h.taken before
    · exact .inr (Nat.le_trans h.size_le new)

theorem Step.retains (h : Step f f') : f.Retains f' := by
  cases h with
  | fresh => exact ⟨Nat.le_succ _, rfl, id, .inl⟩
  | add => exact ⟨Nat.le_refl _, rfl, id, .inl⟩
  | var s version =>
    cases found : f.vars[(⟨f.connected s, version⟩ : Moment)]? with
    | some v =>
      rw [var_of_some found]
      exact .refl f
    | none =>
      rw [var_of_none found]
      refine ⟨Nat.le_succ _, rfl, fun known => (getElem?_insert_missing found).mpr (.inr known), fun known => ?_⟩
      rcases (getElem?_insert_missing found).mp known with ⟨_, rfl⟩ | before
      · exact .inr (Nat.le_refl _)
      · exact .inl before

theorem Grows.retains (h : f.Grows f') : f.Retains f' := by
  induction h with
  | refl => exact .refl f
  | tail _ step ih => exact ih.trans step.retains

theorem Step.fit (fit : f.Fit) (h : Step f f') : f'.Fit := by
  cases h with
  | fresh => exact fit.fresh
  | var s version => exact (var_defines fit s version).1.fit
  | add below => exact (add_adds fit below).fit

theorem Grows.fit (fit : f.Fit) (h : f.Grows f') : f'.Fit := by
  induction h with
  | refl => exact fit
  | tail _ step ih => exact step.fit ih

theorem Step.interning (h : f.Interning) (step : Step f f') : f'.Interning := by
  refine ⟨step.fit h.toFit, ?_⟩
  cases step with
  | fresh => exact h.distinct
  | add => exact h.distinct
  | var s version =>
    cases found : f.vars[(⟨f.connected s, version⟩ : Moment)]? with
    | some v =>
      rw [var_of_some found]
      exact h.distinct
    | none =>
      rw [var_of_none found]
      intro key key' v known known'
      -- The new variable is the size, and the variables of other moments are below it.
      rcases (getElem?_insert_missing found).mp known with ⟨rfl, rfl⟩ | before <;>
        rcases (getElem?_insert_missing found).mp known' with ⟨rfl, new⟩ | before'
      · rfl
      · exact absurd (h.interned before') (Nat.lt_irrefl _)
      · exact absurd (h.interned before) (Nat.not_lt.mpr (Nat.le_of_eq new.symm))
      · exact h.distinct before before'

theorem Grows.interning (h : f.Interning) (growth : f.Grows f') : f'.Interning := by
  induction growth with
  | refl => exact h
  | tail _ step ih => exact step.interning ih

theorem interning_withReconnection (reconnection : Reconnection) : (withReconnection reconnection).Interning where
  toFit := fit_withReconnection reconnection
  distinct found := by simp [withReconnection] at found

/-- An auxiliary variable stays one. -/
theorem Retains.auxiliary {v : Nat} (auxiliary : Auxiliary f f' v) (h : f'.Retains f'') : Auxiliary f f'' v := by
  obtain ⟨new, lt, free⟩ := auxiliary
  refine ⟨new, Nat.lt_of_lt_of_le lt h.size_le, fun key known => ?_⟩
  rcases h.taken known with before | later
  · exact free key before
  · exact Nat.not_lt.mpr later lt

/-! ## Rules without variables -/

theorem grows_addAll {cs : List Clause} (below : ∀ c ∈ cs, ∀ l ∈ c, l.var < f.size) : f.Grows (f.addAll cs) := by
  induction cs generalizing f with
  | nil => exact .refl
  | cons c cs ih =>
    rw [List.forall_mem_cons] at below
    exact .head (.add below.1) (ih (f := f.add c) below.2)

section Plain

variable {y a b c : Nat} (hy : y < f.size)
include hy

theorem grows_fix (value : Bool) : f.Grows (f.fix y value) := .single (.add (by simpa using hy))

theorem grows_buffer (ha : a < f.size) (sign : Bool) : f.Grows (f.buffer y a sign) :=
  grows_addAll (by simp [hy, ha])

theorem grows_conj {xs : List Nat} (below : ∀ x ∈ xs, x < f.size) (sign : Bool) : f.Grows (f.conj y xs sign) := by
  unfold conj
  rw [add_addAll]
  exact grows_addAll (all_below hy below true sign)

theorem grows_disj {xs : List Nat} (below : ∀ x ∈ xs, x < f.size) (sign : Bool) : f.Grows (f.disj y xs sign) := by
  have inside := all_below hy below false !sign
  rw [Bool.not_not] at inside
  unfold disj
  rw [add_addAll]
  exact grows_addAll inside

theorem grows_parity (ha : a < f.size) (hb : b < f.size) (sign : Bool) : f.Grows (f.parity y a b sign) :=
  grows_addAll (by simp [hy, ha, hb])

theorem grows_select {s : Nat} (hs : s < f.size) (ha : a < f.size) (hb : b < f.size) : f.Grows (f.select y s a b) :=
  grows_addAll (by simp [hy, hs, ha, hb])

theorem grows_majority3 (ha : a < f.size) (hb : b < f.size) (hc : c < f.size) : f.Grows (f.majority3 y a b c) :=
  grows_addAll (by simp [hy, ha, hb, hc])

end Plain

/-! ## Rules with variables of their own -/

theorem grows_parityFrom {y a : Nat} (hy : y < f.size) (ha : a < f.size) (sign : Bool) {rest : List Nat}
    (below : ∀ x ∈ rest, x < f.size) : f.Grows (f.parityFrom y sign a rest) := by
  fun_induction parityFrom f y sign a rest with
  | case1 f a => exact grows_buffer hy ha sign
  | case2 f a b => exact grows_parity hy ha (below b List.mem_cons_self) sign
  | case3 f a b rest more t f₁ eq ih =>
    obtain ⟨rfl, rfl⟩ := Prod.mk.inj eq
    rw [List.forall_mem_cons] at below
    have link : f.Grows (f.fresh.2.parity f.size a b true) :=
      .head (.fresh f) (grows_parity (Nat.lt_succ_self _) (Nat.lt_succ_of_lt ha) (Nat.lt_succ_of_lt below.1) true)
    have later {x : Nat} (lt : x < f.size) := Nat.lt_of_lt_of_le lt link.retains.size_le
    exact link.trans (ih (later hy) (Nat.lt_succ_self f.size) fun x mem => later (below.2 x mem))

theorem grows_parityChain {y : Nat} (hy : y < f.size) (sign : Bool) {xs : List Nat} (below : ∀ x ∈ xs, x < f.size)
    (made : f.parityChain y xs sign = .ok f') : f.Grows f' := by
  cases xs with
  | nil => cases made
  | cons a rest =>
    cases made
    rw [List.forall_mem_cons] at below
    exact grows_parityFrom hy below.1 sign below.2

theorem grows_raiseLevel {level : Option Nat} {reason : Nat} (hl : f.Issued [level]) (hr : reason < f.size) :
    f.Grows (f.raiseLevel level reason).2 := by
  cases level with
  | none => exact .refl
  | some c =>
    have hc : c < f.size := hl (some c) List.mem_cons_self c rfl
    refine .head (.fresh f) (grows_disj (Nat.lt_succ_self _) ?_ true)
    simp only [List.forall_mem_cons]
    exact ⟨Nat.lt_succ_of_lt hc, Nat.lt_succ_of_lt hr, by simp⟩

theorem grows_countAbove {x : Nat} (hx : x < f.size) {below : Option Nat} {levels : List (Option Nat)}
    (issued : f.Issued (below :: levels)) : f.Grows (f.countAbove x below levels).2 := by
  induction levels generalizing f below with
  | nil => cases below <;> exact .refl
  | cons level levels ih =>
    obtain ⟨first, others⟩ := issued_cons.mp issued
    cases below with
    | none => exact ih hx others
    | some c =>
      have hc : c < f.size := first (some c) List.mem_cons_self c rfl
      have both : f.Grows (f.fresh.2.conj f.size [c, x] true) := by
        refine .head (.fresh f) (grows_conj (Nat.lt_succ_self _) ?_ true)
        simp only [List.forall_mem_cons]
        exact ⟨Nat.lt_succ_of_lt hc, Nat.lt_succ_of_lt hx, by simp⟩
      have raised : f.Grows ((f.fresh.2.conj f.size [c, x] true).raiseLevel level f.size).2 :=
        both.trans (grows_raiseLevel ((issued_cons.mp others).1.mono both.retains.size_le) (Nat.lt_succ_self _))
      have le := raised.retains.size_le
      exact raised.trans (ih (Nat.lt_of_lt_of_le hx le) (others.mono le))

theorem grows_countOperand {x : Nat} (hx : x < f.size) {levels : List (Option Nat)} (issued : f.Issued levels) :
    f.Grows (f.countOperand x levels).2 := by
  cases levels with
  | nil => exact .refl
  | cons level levels =>
    have raised := grows_raiseLevel (issued_cons.mp issued).1 hx
    have le := raised.retains.size_le
    exact raised.trans (grows_countAbove (Nat.lt_of_lt_of_le hx le) (issued.mono le))

theorem grows_countAll (fit : f.Fit) {xs : List Nat} (below : ∀ x ∈ xs, x < f.size) {levels : List (Option Nat)}
    (issued : f.Issued levels) : f.Grows (f.countAll levels xs).2 := by
  induction xs generalizing f levels with
  | nil => exact .refl
  | cons x xs ih =>
    rw [List.forall_mem_cons] at below
    have head := grows_countOperand below.1 issued
    have le := head.retains.size_le
    exact head.trans (ih (head.fit fit) (fun x mem => Nat.lt_of_lt_of_le (below.2 x mem) le)
      (countOperand_defines fit below.1 issued).2)

theorem grows_atLeast (fit : f.Fit) {y : Nat} (hy : y < f.size) {xs : List Nat} (below : ∀ x ∈ xs, x < f.size)
    (k : Nat) : f.Grows (f.atLeast y xs k) := by
  have start : f.Issued (List.replicate k none) := by simp [Issued]
  have counted := grows_countAll fit below start
  have issued := (countAll_defines fit below start).2
  have grown := Nat.lt_of_lt_of_le hy counted.retains.size_le
  unfold atLeast
  generalize f.countAll (List.replicate k none) xs = result at *
  obtain ⟨levels, f'⟩ := result
  simp only at counted issued grown ⊢
  cases last : levels.getLast?.join with
  | none => exact counted.trans (grows_fix grown false)
  | some c =>
    obtain ⟨level, found, eq⟩ := Option.bind_eq_some_iff.mp last
    exact counted.trans (grows_buffer grown (issued level (List.mem_of_getLast? found) c eq) true)

theorem grows_majority (fit : f.Fit) {y : Nat} (hy : y < f.size) {xs : List Nat} (below : ∀ x ∈ xs, x < f.size)
    (made : f.majority y xs = .ok f') : f.Grows f' := by
  unfold majority at made
  split at made
  case isFalse => cases made
  case isTrue odd =>
    split at made
    · next x =>
      cases made
      exact grows_buffer hy (below x List.mem_cons_self) true
    · next a b c =>
      cases made
      simp only [List.forall_mem_cons] at below
      exact grows_majority3 hy below.1 below.2.1 below.2.2.1
    · cases made
      exact grows_atLeast fit hy below _

theorem grows_varsOf (f : Formula) (keys : List (Site × Nat)) : f.Grows (f.varsOf keys).2 := by
  induction keys generalizing f with
  | nil => exact .refl
  | cons k keys ih => exact .head (.var f k.1 k.2) (ih _)

end Formula

/-! ## Encoded gates and views -/

namespace Encode

open Formula

variable {f f' : Formula}

theorem getD_lt {xs : List Nat} {n : Nat} (below : ∀ x ∈ xs, x < n) (pos : 0 < n) (i : Nat) : xs.getD i 0 < n := by
  rw [List.getD_eq_getElem?_getD]
  cases found : xs[i]? with
  | none => exact pos
  | some x => exact below x (List.mem_of_getElem? found)

theorem grows_resettable {y set reset data : Nat} (hy : y < f.size) (hs : set < f.size) (hr : reset < f.size)
    (hd : data < f.size) :
    let f₁ := f.fresh.2.disj f.size [set, data] true
    let f₂ := f₁.fresh.2.buffer f₁.size reset false
    f.Grows (f₂.conj y [f₁.size, f.size] true) := by
  intro f₁ f₂
  have chosen : f.Grows f₁ := by
    refine .head (.fresh f) (grows_disj (Nat.lt_succ_self _) ?_ true)
    simp only [List.forall_mem_cons]
    exact ⟨Nat.lt_succ_of_lt hs, Nat.lt_succ_of_lt hd, by simp⟩
  have grown {x : Nat} (lt : x < f.size) := Nat.lt_of_lt_of_le lt chosen.retains.size_le
  have running : f₁.Grows f₂ :=
    .head (.fresh f₁) (grows_buffer (Nat.lt_succ_self _) (Nat.lt_succ_of_lt (grown hr)) false)
  have both : f.Grows f₂ := chosen.trans running
  refine both.trans (grows_conj (Nat.lt_of_lt_of_le hy both.retains.size_le) ?_ true)
  have lt : f.size < f₁.size := Nat.lt_succ_self _
  have le : f₁.size < f₂.size := Nat.lt_succ_self _
  simp only [List.forall_mem_cons]
  exact ⟨le, Nat.lt_trans lt le, by simp⟩

theorem grows_equation (fit : f.Fit) {g : Gate} {index version y : Nat} {xs : List Nat} (hy : y < f.size)
    (below : ∀ x ∈ xs, x < f.size) (made : equation f g index version y xs = .ok f') : f.Grows f' := by
  have operand := getD_lt below (Nat.zero_lt_of_lt hy)
  unfold equation at made
  cases fn : g.fn <;> rw [fn] at made
  case input =>
    cases made
    exact .refl
  case zero | one =>
    cases made
    exact grows_fix hy _
  case output | buffer =>
    cases xs with
    | nil =>
      cases made
      exact .refl
    | cons a rest =>
      cases made
      exact grows_buffer hy (below a List.mem_cons_self) true
  case not =>
    cases made
    exact grows_buffer hy (operand 0) false
  case and | nand =>
    cases made
    exact grows_conj hy below _
  case or | nor =>
    cases made
    exact grows_disj hy below _
  case xor | xnor => exact grows_parityChain hy _ below made
  case majority => exact grows_majority fit hy below made
  case latch =>
    cases version with
    | zero =>
      cases made
      exact .refl
    | succ before =>
      cases made
      have held : f.Grows (f.var ⟨index, g.id⟩ before).2 := .single (.var ..)
      have later {x : Nat} (lt : x < f.size) := Nat.lt_of_lt_of_le lt held.retains.size_le
      exact held.trans (grows_select (later hy) (later (operand 1)) (later (operand 0)) (var_defines fit _ before).2)
  case flipFlop =>
    cases version with
    | zero =>
      cases made
      exact .refl
    | succ before =>
      cases made
      exact grows_buffer hy (operand 0) true
  case flipFlopRS =>
    cases version with
    | zero =>
      cases made
      exact .refl
    | succ before =>
      cases made
      exact grows_resettable hy (operand 3) (operand 2) (operand 0)
  case custom => cases made

theorem grows_gate (fit : f.Fit) {net : Netlist} {index version : Nat} {g : Gate}
    (made : gate net index version f g = .ok f') : f.Grows f' := by
  have made := (limits_gate ..).draft_of _ made
  have out : f.Grows (f.var ⟨index, g.id⟩ version).2 := .single (.var ..)
  obtain ⟨known, hy⟩ := var_defines fit ⟨index, g.id⟩ version
  obtain ⟨operands, below⟩ := varsOf_defines known.fit
    (g.inputs.map fun s => (⟨index, s.driver⟩, readVersion net s.driver version))
  have asked := out.trans (grows_varsOf _ (g.inputs.map fun s =>
    (⟨index, s.driver⟩, readVersion net s.driver version)))
  simp only [draftGate] at made
  exact asked.trans (grows_equation operands.fit (Nat.lt_of_lt_of_le hy operands.size_le) below made)

theorem grows_view (fit : f.Fit) {v : View} {index version : Nat} (made : view v index version f = .ok f') :
    f.Grows f' := by
  obtain ⟨order, _, made⟩ := Result.bind_eq_ok.mp made
  refine Result.foldlM_induction (f.Grows ·) order made .refl fun h id h' _ before made => ?_
  obtain ⟨g, _, made⟩ := Result.bind_eq_ok.mp made
  exact before.trans (grows_gate (before.fit fit) made)

end Encode

end LogicNet
