import LogicNet.Cnf.Encode
import LogicNet.Proofs.Cnf.Rule

/-!
# Rules append

No rule looks at the clauses that are there. On top of earlier clauses it does what it does without them, and the
earlier clauses stay as they are, in front of the new ones.

So what a rule says can be read off the formula WITHOUT clauses. There nothing is assumed of the earlier clauses, which
may mention variables that were never handed out.
-/

namespace LogicNet

open Std

namespace Formula

/-- The formula with earlier clauses in front of its own. -/
def onTop (f : Formula) (cs : Array Clause) : Formula := { f with clauses := cs ++ f.clauses }

/-- The formula without its clauses. -/
def bare (f : Formula) : Formula := { f with clauses := #[] }

theorem bare_onTop (f : Formula) : f.bare.onTop f.clauses = f := by
  simp [bare, onTop]

variable (f : Formula) (cs : Array Clause)

@[simp] theorem vars_onTop : (f.onTop cs).vars = f.vars := rfl

@[simp] theorem connected_onTop : (f.onTop cs).connected = f.connected := rfl

/-! ## Variables -/

@[simp] theorem fresh_onTop : (f.onTop cs).fresh = (f.fresh.1, f.fresh.2.onTop cs) := rfl

@[simp] theorem var_onTop (s : Site) (version : Nat) :
    (f.onTop cs).var s version = ((f.var s version).1, (f.var s version).2.onTop cs) := by
  simp only [var, connected_onTop, vars_onTop]
  cases f.vars[(⟨f.connected s, version⟩ : Moment)]? <;> rfl

@[simp] theorem varsOf_onTop (keys : List (Site × Nat)) :
    (f.onTop cs).varsOf keys = ((f.varsOf keys).1, (f.varsOf keys).2.onTop cs) := by
  induction keys generalizing f with
  | nil => rfl
  | cons k keys ih => simp only [varsOf, var_onTop, ih]

/-! ## Clauses -/

@[simp] theorem add_onTop (c : Clause) : (f.onTop cs).add c = (f.add c).onTop cs := by
  simp only [add, onTop, Array.append_push]

@[simp] theorem addAll_onTop (new : List Clause) : (f.onTop cs).addAll new = (f.addAll new).onTop cs := by
  unfold addAll
  induction new generalizing f with
  | nil => rfl
  | cons c new ih => rw [List.foldl_cons, add_onTop, ih, List.foldl_cons]

section Plain

variable (y a b c : Nat) (xs : List Nat) (sign : Bool)

@[simp] theorem fix_onTop : (f.onTop cs).fix y sign = (f.fix y sign).onTop cs := add_onTop f cs _

@[simp] theorem buffer_onTop : (f.onTop cs).buffer y a sign = (f.buffer y a sign).onTop cs := addAll_onTop f cs _

@[simp] theorem conj_onTop : (f.onTop cs).conj y xs sign = (f.conj y xs sign).onTop cs := by
  simp only [conj, addAll_onTop, add_onTop]

@[simp] theorem disj_onTop : (f.onTop cs).disj y xs sign = (f.disj y xs sign).onTop cs := by
  simp only [disj, addAll_onTop, add_onTop]

@[simp] theorem parity_onTop : (f.onTop cs).parity y a b sign = (f.parity y a b sign).onTop cs := addAll_onTop f cs _

@[simp] theorem select_onTop (s : Nat) : (f.onTop cs).select y s a b = (f.select y s a b).onTop cs := addAll_onTop f cs _

@[simp] theorem majority3_onTop : (f.onTop cs).majority3 y a b c = (f.majority3 y a b c).onTop cs := addAll_onTop f cs _

end Plain

/-! ## Chains -/

@[simp] theorem parityFrom_onTop (y : Nat) (sign : Bool) (a : Nat) (rest : List Nat) :
    (f.onTop cs).parityFrom y sign a rest = (f.parityFrom y sign a rest).onTop cs := by
  fun_induction parityFrom f y sign a rest with
  | case1 f a => exact buffer_onTop f cs y a sign
  | case2 f a b => exact parity_onTop f cs y a b sign
  | case3 f a b rest more t f₁ eq ih =>
    obtain ⟨rfl, rfl⟩ := Prod.mk.inj eq
    rw [← ih, ← parity_onTop, parityFrom]
    · rfl
    · exact more

@[simp] theorem parityChain_onTop (y : Nat) (xs : List Nat) (sign : Bool) :
    (f.onTop cs).parityChain y xs sign = (f.parityChain y xs sign).map (·.onTop cs) := by
  cases xs with
  | nil => rfl
  | cons a rest => exact congrArg Except.ok (parityFrom_onTop f cs y sign a rest)

/-! ## Counting -/

@[simp] theorem raiseLevel_onTop (level : Option Nat) (reason : Nat) :
    (f.onTop cs).raiseLevel level reason = ((f.raiseLevel level reason).1, (f.raiseLevel level reason).2.onTop cs) := by
  cases level with
  | none => rfl
  | some c => simp only [raiseLevel, fresh_onTop, disj_onTop]

@[simp] theorem countAbove_onTop (x : Nat) (below : Option Nat) (levels : List (Option Nat)) :
    (f.onTop cs).countAbove x below levels =
      ((f.countAbove x below levels).1, (f.countAbove x below levels).2.onTop cs) := by
  induction levels generalizing f below with
  | nil => cases below <;> rfl
  | cons level levels ih =>
    cases below with
    | none => simp only [countAbove, ih]
    | some c => simp only [countAbove, fresh_onTop, conj_onTop, raiseLevel_onTop, ih]

@[simp] theorem countOperand_onTop (x : Nat) (levels : List (Option Nat)) :
    (f.onTop cs).countOperand x levels = ((f.countOperand x levels).1, (f.countOperand x levels).2.onTop cs) := by
  cases levels with
  | nil => rfl
  | cons level levels => simp only [countOperand, raiseLevel_onTop, countAbove_onTop]

@[simp] theorem countAll_onTop (levels : List (Option Nat)) (xs : List Nat) :
    (f.onTop cs).countAll levels xs = ((f.countAll levels xs).1, (f.countAll levels xs).2.onTop cs) := by
  induction xs generalizing f levels with
  | nil => rfl
  | cons x xs ih => simp only [countAll, countOperand_onTop, ih]

@[simp] theorem atLeast_onTop (y : Nat) (xs : List Nat) (k : Nat) :
    (f.onTop cs).atLeast y xs k = (f.atLeast y xs k).onTop cs := by
  simp only [atLeast, countAll_onTop]
  cases (f.countAll (List.replicate k none) xs).1.getLast?.join with
  | none => exact fix_onTop _ cs y false
  | some c => exact buffer_onTop _ cs y c true

@[simp] theorem majority_onTop (y : Nat) (xs : List Nat) :
    (f.onTop cs).majority y xs = (f.majority y xs).map (·.onTop cs) := by
  unfold majority
  split
  · split
    · exact congrArg Except.ok (buffer_onTop f cs y _ true)
    · exact congrArg Except.ok (majority3_onTop f cs y _ _ _)
    · exact congrArg Except.ok (atLeast_onTop f cs y xs _)
  · rfl

end Formula

namespace Encode

open Formula

variable (f : Formula) (cs : Array Clause)

theorem equation_onTop (g : Gate) (index version y : Nat) (xs : List Nat) :
    equation (f.onTop cs) g index version y xs = (equation f g index version y xs).map (·.onTop cs) := by
  unfold equation
  cases g.fn <;> simp only [parityChain_onTop, majority_onTop]
  case output | buffer =>
    cases xs with
    | nil => rfl
    | cons a rest => exact congrArg Except.ok (buffer_onTop f cs y a true)
  case latch | flipFlop | flipFlopRS =>
    cases version with
    | zero => rfl
    | succ before =>
      simp only [var_onTop, select_onTop, buffer_onTop, fresh_onTop, disj_onTop, conj_onTop]
      rfl
  case not | zero | one | and | nand | or | nor =>
    simp only [buffer_onTop, fix_onTop, conj_onTop, disj_onTop]
    rfl
  case input | custom => rfl

/-- Drafting a gate on top of clauses leaves them, and adds to them what it adds to none. -/
theorem draftGate_onTop (net : Netlist) (index version : Nat) (g : Gate) :
    draftGate net index version (f.onTop cs) g = (draftGate net index version f g).map (·.onTop cs) := by
  simp only [draftGate, var_onTop, varsOf_onTop, equation_onTop]

/-- What a gate adds to a formula is what it adds to the formula without clauses. -/
theorem exists_draftGate_bare {f f' : Formula} {net : Netlist} {index version : Nat} {g : Gate}
    (encoded : draftGate net index version f g = .ok f') :
    ∃ f₀, draftGate net index version f.bare g = .ok f₀ ∧ f' = f₀.onTop f.clauses := by
  rw [← f.bare_onTop, draftGate_onTop] at encoded
  cases result : draftGate net index version f.bare g with
  | error e =>
    rw [result] at encoded
    cases encoded
  | ok f₀ =>
    rw [result] at encoded
    cases encoded
    exact ⟨f₀, rfl, rfl⟩

end Encode

end LogicNet
