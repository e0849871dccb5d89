import LogicNet.Proofs.Cnf.Growth

/-!
# Interned variables

Gates and rules draw their variables from one counter, in whatever order they are asked. A variable that two of them got
would say of two signals that they are equal, and no clause would show it.

**The law** (`performAll_interns`) is about any sequence of calls that are given variables of earlier answers. A gate gets
one variable for each version, which it shares with the gates of its connection and with nothing else. An auxiliary
variable, asked for or taken by a rule, is the answer of no other call and never the variable of a gate. All literals are
below the size of the formula, so its text has a correct header, and a model with one value for each variable knows them.

What carries it is `Grows`: the formula grows from call to call, and an answer is in the table from its call on (`var`) or
above all that was handed out before (`fresh`).

**What it does not establish.** What the clauses say of the variables. That is `Encode.draftGate_adds` and the laws of the
rules.
-/

namespace LogicNet

open Std

/-! ## Texts -/

/-- The number that stands for the literal in a text. -/
def Lit.number (l : Lit) : Int := if l.positive then l.var + 1 else -(l.var + 1)

theorem Lit.text_eq (l : Lit) : l.text = toString l.number := by
  obtain ⟨v, positive⟩ := l
  cases positive <;> rfl

theorem Lit.number_ne_zero (l : Lit) : l.number ≠ 0 := by
  unfold number
  split <;> omega

theorem Lit.natAbs_number (l : Lit) : l.number.natAbs = l.var + 1 := by
  unfold number
  split <;> omega

/-- The text is in DIMACS format: a header with the numbers of variables and of clauses, and a line for each clause, whose
numbers are those of variables that the header counts, up to a zero at the end. -/
structure IsDimacs (text : String) (count : Nat) (clauses : List (List Int)) : Prop where
  layout : text = "p cnf " ++ toString count ++ " " ++ toString clauses.length ++ "\n" ++
    String.join (clauses.map fun c => String.join (c.map fun n => toString n ++ " ") ++ "0\n")
  counted : ∀ c ∈ clauses, ∀ n ∈ c, n ≠ 0 ∧ n.natAbs ≤ count

namespace Formula

variable {f f' : Formula}

theorem Fit.isDimacs (fit : f.Fit) : IsDimacs f.dimacs f.size (f.clauses.toList.map (·.map Lit.number)) where
  layout := by
    have line (c : Clause) :
        clauseLine c = String.join ((c.map Lit.number).map fun n => toString n ++ " ") ++ "0\n" := by
      rw [clauseLine, List.map_map]
      congr 3
      funext l
      rw [l.text_eq]
      rfl
    rw [dimacs, List.map_map, List.length_map, Array.length_toList]
    congr 3
    funext c
    exact line c
  counted := by
    simp only [List.forall_mem_map]
    intro c mem l inside
    rw [Lit.natAbs_number]
    exact ⟨l.number_ne_zero, fit.closed c (Array.mem_def.mpr mem) l inside⟩

theorem Fit.requireWritable (fit : f.Fit) (le : f.size ≤ Lit.largestVar) : f.requireWritable = .ok f := by
  have all : (f.clauses.all (·.isBelow Lit.largestVar)) = true := by
    rw [Array.all_eq_true']
    intro c mem
    exact List.all_eq_true.mpr fun l inside => decide_eq_true (Nat.lt_of_lt_of_le (fit.closed c mem l inside) le)
  rw [Formula.requireWritable, all]
  rfl

/-! ## Calls -/

/-- Clauses that a formula can be asked for. -/
inductive Rule
  | clause (c : Clause)
  | fix (y : Nat) (value : Bool)
  | buffer (y x : Nat) (sign : Bool)
  | conj (y : Nat) (xs : List Nat) (sign : Bool)
  | disj (y : Nat) (xs : List Nat) (sign : Bool)
  | parity (y a b : Nat) (sign : Bool)
  | parityChain (y : Nat) (xs : List Nat) (sign : Bool)
  | select (y s a b : Nat)
  | majority (y : Nat) (xs : List Nat)
  | gate (net : Netlist) (index version : Nat) (g : Gate)
  | view (v : View) (index version : Nat)

/-- The variables that a rule is given. -/
def Rule.operands : Rule → List Nat
  | .clause c => c.map (·.var)
  | .fix y _ => [y]
  | .buffer y x _ => [y, x]
  | .conj y xs _ | .disj y xs _ | .parityChain y xs _ | .majority y xs => y :: xs
  | .parity y a b _ => [y, a, b]
  | .select y s a b => [y, s, a, b]
  | .gate .. | .view .. => []

def apply (f : Formula) : Rule → Result Formula
  | .clause c => .ok (f.add c)
  | .fix y value => .ok (f.fix y value)
  | .buffer y x sign => .ok (f.buffer y x sign)
  | .conj y xs sign => .ok (f.conj y xs sign)
  | .disj y xs sign => .ok (f.disj y xs sign)
  | .parity y a b sign => .ok (f.parity y a b sign)
  | .parityChain y xs sign => f.parityChain y xs sign
  | .select y s a b => .ok (f.select y s a b)
  | .majority y xs => f.majority y xs
  | .gate net index version g => Encode.gate net index version f g
  | .view v index version => Encode.view v index version f

/-- What a formula can be asked for. -/
inductive Call
  | var (s : Site) (version : Nat)
  | fresh
  | rule (r : Rule)

/-- The variables that a call is given. -/
def Call.operands : Call → List Nat
  | .var .. | .fresh => []
  | .rule r => r.operands

/-- The answer to a call, which is a variable or nothing, and the formula after it. -/
def perform (f : Formula) : Call → Result (Option Nat × Formula)
  | .var s version => .ok (some (f.var s version).1, (f.var s version).2)
  | .fresh => .ok (some f.fresh.1, f.fresh.2)
  | .rule r => do
    let f ← f.apply r
    let f ← f.requireNumbered
    return (none, f)

/-- The answers to calls, made one after the other. -/
def performAll (f : Formula) : List Call → Result (List (Option Nat) × Formula)
  | [] => .ok ([], f)
  | c :: calls => do
    let (answer, f) ← f.perform c
    let (answers, f) ← f.performAll calls
    return (answer :: answers, f)

/-- The calls are given known variables only: at first `known` ones, and the answer to every call from then on. -/
def Informed (known : List (Option Nat)) : List Call → List (Option Nat) → Prop
  | c :: calls, answer :: answers => (∀ x ∈ c.operands, some x ∈ known) ∧ Informed (known ++ [answer]) calls answers
  | _, _ => True

/-! ## One call -/

theorem grows_apply (fit : f.Fit) {r : Rule} (below : ∀ x ∈ r.operands, x < f.size) (made : f.apply r = .ok f') :
    f.Grows f' := by
  cases r <;> simp only [Rule.operands, List.forall_mem_cons, List.forall_mem_map] at below
  case clause c =>
    cases made
    exact .single (.add below)
  case fix y value =>
    cases made
    exact grows_fix below.1 value
  case buffer y x sign =>
    cases made
    exact grows_buffer below.1 below.2.1 sign
  case conj y xs sign =>
    cases made
    exact grows_conj below.1 below.2 sign
  case disj y xs sign =>
    cases made
    exact grows_disj below.1 below.2 sign
  case parity y a b sign =>
    cases made
    exact grows_parity below.1 below.2.1 below.2.2.1 sign
  case parityChain y xs sign => exact grows_parityChain below.1 sign below.2 made
  case select y s a b =>
    cases made
    exact grows_select below.1 below.2.1 below.2.2.1 below.2.2.2.1
  case majority y xs => exact grows_majority fit below.1 below.2 made
  case gate net index version g => exact Encode.grows_gate fit made
  case view v index version => exact Encode.grows_view fit made

/-- The answer to a call is the variable of the gate in the table, or a new auxiliary variable, or nothing. -/
inductive Answered (f f' : Formula) : Call → Option Nat → Prop
  | var {s : Site} {version x : Nat} (known : f'.vars[(⟨f.connected s, version⟩ : Moment)]? = some x) :
    Answered f f' (.var s version) (some x)
  | fresh {x : Nat} (auxiliary : Auxiliary f f' x) : Answered f f' .fresh (some x)
  | rule (r : Rule) : Answered f f' (.rule r) none

/-- A call grows the formula and is answered. -/
theorem perform_spec (fit : f.Fit) {c : Call} {answer : Option Nat} (below : ∀ x ∈ c.operands, x < f.size)
    (done : f.perform c = .ok (answer, f')) : f.Grows f' ∧ Answered f f' c answer := by
  cases c with
  | var s version =>
    cases done
    exact ⟨.single (.var f s version), .var (getElem?_vars_var f s version)⟩
  | fresh =>
    cases done
    refine ⟨.single (.fresh f), .fresh ⟨Nat.le_refl _, Nat.lt_succ_self _, fun key known => ?_⟩⟩
    exact Nat.lt_irrefl _ (fit.interned known)
  | rule r =>
    obtain ⟨g, made, done⟩ := Result.bind_eq_ok.mp done
    obtain ⟨g', numbered, done⟩ := Result.bind_eq_ok.mp done
    obtain ⟨_, _, same⟩ := Result.bind_eq_ok.mp numbered
    cases same
    cases done
    exact ⟨grows_apply fit below made, .rule r⟩

namespace Answered

variable {c : Call} {answer : Option Nat}

/-- An answer stays right while the formula grows, and is right for what it has grown from. -/
theorem mono {g g' : Formula} (h : Answered g g' c answer) (before : f.Retains g) (after : g'.Retains f') :
    Answered f f' c answer := by
  cases h with
  | var known =>
    rw [connected_congr before.reconnection_eq] at known
    exact .var (after.vars_le known)
  | fresh auxiliary =>
    obtain ⟨new, issued, free⟩ := after.auxiliary auxiliary
    exact .fresh ⟨Nat.le_trans before.size_le new, issued, free⟩
  | rule r => exact .rule r

theorem lt_size (fit : f'.Fit) {x : Nat} (h : Answered f f' c (some x)) : x < f'.size := by
  cases h with
  | var known => exact fit.interned known
  | fresh auxiliary => exact auxiliary.2.1

/-- An auxiliary variable of earlier is no answer any more. -/
theorem not_auxiliary {g : Formula} {x : Nat} (h : Answered f f' c (some x)) (retains : f.Retains f') :
    ¬Auxiliary g f x := by
  intro auxiliary
  cases h with
  | var known => exact (retains.auxiliary auxiliary).2.2 _ known
  | fresh again => exact Nat.not_lt.mpr again.1 auxiliary.2.1

end Answered

/-! ## Runs -/

variable {known answers : List (Option Nat)} {calls : List Call}

theorem performAll_cons {c : Call} : f.performAll (c :: calls) = .ok (answers, f') ↔
    ∃ answer g rest, f.perform c = .ok (answer, g) ∧ g.performAll calls = .ok (rest, f') ∧ answers = answer :: rest := by
  constructor
  · intro run
    obtain ⟨⟨answer, g⟩, first, run⟩ := Result.bind_eq_ok.mp run
    obtain ⟨⟨rest, f''⟩, later, run⟩ := Result.bind_eq_ok.mp run
    cases run
    exact ⟨answer, g, rest, first, later, rfl⟩
  · rintro ⟨answer, g, rest, first, later, rfl⟩
    simp only [performAll, first, later, Result.ok_bind]
    rfl

theorem performAll_append {before after : List Call} : f.performAll (before ++ after) = .ok (answers, f') ↔
    ∃ as g bs, f.performAll before = .ok (as, g) ∧ g.performAll after = .ok (bs, f') ∧ answers = as ++ bs := by
  induction before generalizing f answers with
  | nil =>
    constructor
    · exact fun run => ⟨[], f, answers, rfl, run, rfl⟩
    · rintro ⟨as, g, bs, start, run, rfl⟩
      cases start
      exact run
  | cons c before ih =>
    rw [List.cons_append, performAll_cons]
    simp only [ih, performAll_cons]
    constructor
    · rintro ⟨answer, g, _, first, ⟨as, h, bs, prior, later, rfl⟩, rfl⟩
      exact ⟨_, h, bs, ⟨answer, g, as, first, prior, rfl⟩, later, rfl⟩
    · rintro ⟨_, h, bs, ⟨answer, g, as, first, prior, rfl⟩, later, rfl⟩
      exact ⟨answer, g, _, first, ⟨as, h, bs, prior, later, rfl⟩, rfl⟩

theorem length_performAll (run : f.performAll calls = .ok (answers, f')) : answers.length = calls.length := by
  induction calls generalizing f answers with
  | nil =>
    cases run
    rfl
  | cons c calls ih =>
    obtain ⟨answer, g, rest, _, later, rfl⟩ := performAll_cons.mp run
    exact congrArg Nat.succ (ih later)

theorem Informed.append {before after : List Call} {as bs : List (Option Nat)} (same : as.length = before.length)
    (h : Informed known (before ++ after) (as ++ bs)) : Informed known before as ∧ Informed (known ++ as) after bs := by
  induction before generalizing known as with
  | nil =>
    obtain rfl := List.eq_nil_of_length_eq_zero same
    exact ⟨trivial, by simpa using h⟩
  | cons c before ih =>
    cases as with
    | nil => cases same
    | cons answer as =>
      obtain ⟨given, h⟩ := h
      obtain ⟨first, later⟩ := ih (Nat.succ.inj same) h
      rw [List.append_assoc] at later
      exact ⟨⟨given, first⟩, later⟩

theorem Issued.extend (issued : f.Issued known) (retains : f.Retains f') (fit : f'.Fit)
    (right : List.Forall₂ (Answered f f') calls answers) : f'.Issued (known ++ answers) := by
  intro answer mem x eq
  rcases List.mem_append.mp mem with old | new
  · exact issued.mono retains.size_le answer old x eq
  · obtain ⟨c, _, answered⟩ := exists_of_forall₂ right new
    cases eq
    exact answered.lt_size fit

/-- Informed calls grow the formula, and in the end all answers are right. -/
theorem performAll_spec (fit : f.Fit) (issued : f.Issued known) (informed : Informed known calls answers)
    (run : f.performAll calls = .ok (answers, f')) : f.Grows f' ∧ List.Forall₂ (Answered f f') calls answers := by
  induction calls generalizing f known answers with
  | nil =>
    cases run
    exact ⟨.refl, .nil⟩
  | cons c calls ih =>
    obtain ⟨answer, g, rest, first, later, rfl⟩ := performAll_cons.mp run
    obtain ⟨given, informed⟩ := informed
    obtain ⟨growth, answered⟩ := perform_spec fit (fun x mem => issued (some x) (given x mem) x rfl) first
    have fit' := growth.fit fit
    obtain ⟨more, right⟩ := ih fit' (issued.extend growth.retains fit' (.cons answered .nil)) informed later
    refine ⟨growth.trans more, .cons (answered.mono (.refl f) more.retains) (right.imp fun _ _ h => ?_)⟩
    exact h.mono growth.retains (.refl f')

/-- What a call takes for itself stays apart: no moment gets it, and no other call is answered with it. -/
theorem performAll_apart (fit : f.Fit) (issued : f.Issued known) {before after : List Call} {c : Call}
    (informed : Informed known (before ++ c :: after) answers)
    (run : f.performAll (before ++ c :: after) = .ok (answers, f')) {as : List (Option Nat)} {a : Option Nat}
    {g g' : Formula} (prior : f.performAll before = .ok (as, g)) (done : g.perform c = .ok (a, g')) {x : Nat}
    (auxiliary : Auxiliary g g' x) : Auxiliary g f' x ∧ ∀ j, answers[j]? = some (some x) → j = before.length := by
  obtain ⟨_, _, rest, prior', run, rfl⟩ := performAll_append.mp run
  cases prior.symm.trans prior'
  obtain ⟨_, _, bs, done', later, rfl⟩ := performAll_cons.mp run
  cases done.symm.trans done'
  have same := length_performAll prior
  obtain ⟨informed, given, informed'⟩ := informed.append same
  -- Before the call, at the call, and after it.
  obtain ⟨growth, right⟩ := performAll_spec fit issued informed prior
  have fit₁ := growth.fit fit
  have issued₁ := issued.extend growth.retains fit₁ right
  obtain ⟨growth₂, answered⟩ := perform_spec fit₁ (fun x mem => issued₁ (some x) (given x mem) x rfl) done
  have fit₂ := growth₂.fit fit₁
  have issued₂ := issued₁.extend growth₂.retains fit₂ (.cons answered .nil)
  obtain ⟨growth₃, right₃⟩ := performAll_spec fit₂ issued₂ informed' later
  refine ⟨growth₃.retains.auxiliary auxiliary, fun j found => ?_⟩
  rcases Nat.lt_trichotomy j before.length with lt | eq | gt
  · rw [List.getElem?_append_left (same ▸ lt)] at found
    have old : x < g.size := issued₁ (some x) (List.mem_append_right known (List.mem_of_getElem? found)) x rfl
    exact absurd old (Nat.not_lt.mpr auxiliary.1)
  · exact eq
  · obtain ⟨k, rfl⟩ := Nat.exists_eq_add_of_lt gt
    rw [← same, Nat.add_assoc, List.getElem?_append_right (Nat.le_add_right _ _), Nat.add_sub_cancel_left,
      List.getElem?_cons_succ] at found
    obtain ⟨_, _, answered⟩ := exists_of_forall₂ right₃ (List.mem_of_getElem? found)
    exact absurd auxiliary (answered.not_auxiliary growth₃.retains)

/-- The call at a position has its answer there. -/
theorem exists_answer (right : List.Forall₂ (Answered f f') calls answers) {i : Nat} {c : Call}
    (asked : calls[i]? = some c) : ∃ a, answers[i]? = some a ∧ Answered f f' c a := by
  obtain ⟨lt, rfl⟩ := List.getElem?_eq_some_iff.mp asked
  have lt' : i < answers.length := right.length_eq ▸ lt
  exact ⟨answers[i], List.getElem?_eq_getElem lt', right.get lt lt'⟩

/-- Requests for variables of gates are answered alike exactly if they are for the same moment. -/
theorem var_answers (interning : f'.Interning) (right : List.Forall₂ (Answered f f') calls answers) {i j : Nat}
    {s t : Site} {version version' : Nat} (asked : calls[i]? = some (.var s version))
    (asked' : calls[j]? = some (.var t version')) :
    ∃ x y, answers[i]? = some (some x) ∧ answers[j]? = some (some y) ∧
      (x = y ↔ f.connected s = f.connected t ∧ version = version') := by
  obtain ⟨_, found, @⟨_, _, x, known⟩⟩ := exists_answer right asked
  obtain ⟨_, found', @⟨_, _, y, known'⟩⟩ := exists_answer right asked'
  refine ⟨x, y, found, found', ?_, ?_⟩
  · rintro rfl
    exact Moment.mk.inj (interning.distinct known known')
  · rintro ⟨same, rfl⟩
    rw [same, known'] at known
    exact (Option.some.inj known).symm

/-- An auxiliary variable that was asked for is the answer to one call. -/
theorem fresh_answer (fit : f.Fit) (issued : f.Issued known) (informed : Informed known calls answers)
    (run : f.performAll calls = .ok (answers, f')) {i : Nat} (asked : calls[i]? = some .fresh) :
    ∃ x, answers[i]? = some (some x) ∧ ∀ j, answers[j]? = some (some x) → j = i := by
  obtain ⟨lt, here⟩ := List.getElem?_eq_some_iff.mp asked
  have split : calls = calls.take i ++ .fresh :: calls.drop (i + 1) := by
    rw [← here, List.cons_getElem_drop_succ, List.take_append_drop]
  have position : (calls.take i).length = i := List.length_take_of_le (Nat.le_of_lt lt)
  rw [split] at informed run
  obtain ⟨as, g, _, prior, rest, rfl⟩ := performAll_append.mp run
  obtain ⟨a, g', bs, done, _, rfl⟩ := performAll_cons.mp rest
  have same := length_performAll prior
  have fit' := (performAll_spec fit issued (informed.append same).1 prior).1.fit fit
  obtain ⟨_, answered⟩ := perform_spec fit' (by simp [Call.operands]) done
  cases answered with
  | @fresh x auxiliary =>
    obtain ⟨_, only⟩ := performAll_apart fit issued informed run prior done auxiliary
    rw [position] at same only
    refine ⟨x, ?_, only⟩
    rw [← same, List.getElem?_append_right (Nat.le_refl _), Nat.sub_self, List.getElem?_cons_zero]

/-- A variable below the size is known to a model with one value for each variable. -/
theorem value_of_lt {m : Model} (all : m.size = f.size) {x : Nat} (lt : x < f.size) :
    ({ f with model := some m } : Formula).value x = .ok (m.value x) := by
  rw [← all] at lt
  simp only [value, Model.value, Array.getD_eq_getD_getElem?, Array.getElem?_eq_getElem lt]
  rfl

/-- VARIABLES ARE INTERNED. Take calls that are given answers of earlier calls only, on a formula with any reconnection.

* Two requests for variables of gates are answered alike exactly if the gates are connected to the same one and the
  versions are equal, wherever the requests stand.
* The answer to a request for an auxiliary variable is the answer to no other call.
* Neither is a variable that a call takes for itself, and no gate ever gets it.
* Answers and literals are below the size. So the text of the formula has a correct header, it can be written while its
  size is in range, and a model with one value for each variable has a value for each of them. -/
theorem performAll_interns (reconnection : Reconnection)
    (run : (withReconnection reconnection).performAll calls = .ok (answers, f)) (informed : Informed [] calls answers) :
    (∀ (i j : Nat) s t version version', calls[i]? = some (.var s version) → calls[j]? = some (.var t version') →
      ∃ x y, answers[i]? = some (some x) ∧ answers[j]? = some (some y) ∧
        (x = y ↔ (withReconnection reconnection).connected s = (withReconnection reconnection).connected t ∧
          version = version')) ∧
    (∀ i : Nat, calls[i]? = some .fresh →
      ∃ x, answers[i]? = some (some x) ∧ ∀ j : Nat, answers[j]? = some (some x) → j = i) ∧
    (∀ before c after as g a g', calls = before ++ c :: after →
      (withReconnection reconnection).performAll before = .ok (as, g) → g.perform c = .ok (a, g') →
      ∀ x, Auxiliary g g' x → Auxiliary g f x ∧ ∀ j : Nat, answers[j]? = some (some x) → j = before.length) ∧
    (∀ x, some x ∈ answers → x < f.size) ∧ (∀ c ∈ f.clauses, ∀ l ∈ c, l.var < f.size) ∧
    IsDimacs f.dimacs f.size (f.clauses.toList.map (·.map Lit.number)) ∧
    (f.size ≤ Lit.largestVar → f.requireWritable = .ok f) ∧
    ∀ (oracle : Oracle) (m : Model), oracle f.size f.clauses.toList = .ok (some m) → m.size = f.size →
      ∃ f', f.solve oracle = .ok (true, f') ∧
        ∀ x, (some x ∈ answers ∨ ∃ c ∈ f.clauses, ∃ l ∈ c, l.var = x) → f'.value x = .ok (m.value x) := by
  have start := interning_withReconnection reconnection
  have issued : (withReconnection reconnection).Issued [] := by simp [Issued]
  obtain ⟨growth, right⟩ := performAll_spec start.toFit issued informed run
  have interning := growth.interning start
  have below : ∀ x, some x ∈ answers → x < f.size := by
    intro x mem
    obtain ⟨c, _, answered⟩ := exists_of_forall₂ right mem
    exact answered.lt_size interning.toFit
  refine ⟨?_, ?_, ?_, below, interning.closed, interning.isDimacs, interning.requireWritable, ?_⟩
  · exact fun i j s t version version' => var_answers interning right
  · exact fun i => fresh_answer start.toFit issued informed run
  · rintro before c after as g a g' rfl prior done x auxiliary
    exact performAll_apart start.toFit issued informed run prior done auxiliary
  · intro oracle m solved all
    refine ⟨{ f with model := some m }, by rw [solve, solved]; rfl, ?_⟩
    rintro x (mem | ⟨c, mem, l, inside, rfl⟩)
    · exact value_of_lt all (below x mem)
    · exact value_of_lt all (interning.closed c mem l inside)

/-- A gate of a second netlist uses the variables of the latch of the first one. -/
def sharedLatch : Reconnection := ({} : Reconnection).insert ⟨1, ⟨0⟩⟩ ⟨0, ⟨2⟩⟩

/-- The latch is asked for under both names, at two versions, around rules that take variables of their own. -/
def latchCalls : List Call := [.var ⟨0, ⟨2⟩⟩ 2, .fresh, .rule (.view Encode.votingNet.view 0 2),
  .rule (.parityChain 0 [1, 0, 1] true), .fresh, .var ⟨1, ⟨0⟩⟩ 2, .var ⟨1, ⟨0⟩⟩ 1]

def latchAnswers : List (Option Nat) := [some 0, some 1, none, none, some 23, some 0, some 4]

theorem latchCalls_interned : ∃ f, (withReconnection sharedLatch).performAll latchCalls = .ok (latchAnswers, f) ∧
    Informed [] latchCalls latchAnswers ∧ f.size = 24 ∧
    (withReconnection sharedLatch).connected ⟨1, ⟨0⟩⟩ = (withReconnection sharedLatch).connected ⟨0, ⟨2⟩⟩ ∧
    (∀ j : Nat, latchAnswers[j]? = some (some 23) → j = 4) ∧ (∀ c ∈ f.clauses, ∀ l ∈ c, l.var < 24) ∧
    f.requireWritable = .ok f ∧ ∀ m : Model, m.size = 24 →
      ∃ f', f.solve (fun _ _ => .ok (some m)) = .ok (true, f') ∧ f'.value 23 = .ok (m.value 23) := by
  obtain ⟨⟨answers, f⟩, run, facts⟩ := Result.exists_ok_of_any (r := (withReconnection sharedLatch).performAll latchCalls)
    (p := fun r => r.1 == latchAnswers && r.2.size == 24) (by decide +kernel)
  simp only [Bool.and_eq_true, beq_iff_eq] at facts
  obtain ⟨rfl, size⟩ := facts
  have informed : Informed [] latchCalls latchAnswers := by
    simp [latchCalls, latchAnswers, Informed, Call.operands, Rule.operands]
  obtain ⟨alike, single, _, _, closed, _, writable, values⟩ := performAll_interns sharedLatch run informed
  rw [size] at closed writable values
  obtain ⟨_, _, ⟨⟩, ⟨⟩, iff⟩ := alike 5 0 ⟨1, ⟨0⟩⟩ ⟨0, ⟨2⟩⟩ 2 2 rfl rfl
  obtain ⟨_, ⟨⟩, only⟩ := single 4 rfl
  refine ⟨f, run, informed, size, (iff.mp rfl).1, only, closed, writable (by decide), fun m all => ?_⟩
  obtain ⟨f', solved, known⟩ := values (fun _ _ => .ok (some m)) m rfl all
  exact ⟨f', solved, known 23 (.inl (by decide))⟩

end Formula

end LogicNet
