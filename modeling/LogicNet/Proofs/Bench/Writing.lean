import LogicNet.Proofs.Bench.Assembly
import LogicNet.Proofs.Bench.Lines
import LogicNet.Proofs.Netlist.Importing

/-!
# What is written

The writer has one line for each port and each gate that is no source, and the line of a gate is a definition
(`definitionOf`). It stops at a gate whose function or clock the format has no words for, and at nothing else.

**The law** (`statements_written`): where it does not stop, the statements of the text are the ports and the
definitions it was written from.
-/

namespace LogicNet

open Std

/-- The inputs from which a gate computes its value: all but the clock of a flip-flop. -/
def Shape.data (s : Shape) : List Signal := if s.fn = .flipFlop then s.inputs.take 1 else s.inputs

theorem Shape.mem_of_mem_data {s : Shape} {x : Signal} (read : x ∈ s.data) : x ∈ s.inputs := by
  unfold data at read
  split at read
  · exact List.mem_of_mem_take read
  · exact read

theorem Shape.inputs_ne_nil {s : Shape} (inner : s.isSource = false) (other : s.fn.isConstant = false) :
    s.inputs ≠ [] := by
  intro none
  rw [isSource, none, other] at inner
  cases inner

theorem Shape.eq_of_isConstant {s : Shape} (arity : s.hasArity = true) (constant : s.isConstant = true) :
    s = ⟨.zero, []⟩ ∨ s = ⟨.one, []⟩ := by
  obtain ⟨fn, inputs⟩ := s
  cases fn
  case zero => exact .inl (congrArg _ (List.length_eq_zero_iff.mp (of_decide_eq_true arity)))
  case one => exact .inr (congrArg _ (List.length_eq_zero_iff.mp (of_decide_eq_true arity)))
  all_goals cases constant

namespace Bench

/-! ## Definitions of gates -/

/-- The kind under which a function is written that is no cell. -/
def plainKind : GateFn → String
  | .zero => "gnd"
  | .one => "vdd"
  | .output | .buffer => "BUF"
  | fn => fn.name

/-- The kind under which a function is written. -/
def kindOf (symbols : SymbolTable) : GateFn → String
  | .custom n => symbols.names.getD n ""
  | fn => plainKind fn

/-- The definition that is written for a gate. -/
def definitionOf (symbols : SymbolTable) (g : Gate) : Definition :=
  ⟨g.id.text, kindOf symbols g.fn, g.data.map fun s => s.driver.text⟩

/-- The format has words for the function of the gate, and for its clock if it has one. -/
def isExpressible (net : Netlist) (symbols : SymbolTable) (g : Gate) : Bool :=
  match g.fn with
  | .latch | .flipFlopRS => false
  | .flipFlop => isSynchronous net g
  | .custom n => (symbols.names[n]?).isSome
  | _ => true

/-- A flip-flop that can be written has the rising edge of a constant one for its clock. -/
theorem isSynchronous_iff {net : Netlist} {g : Gate} : isSynchronous net g = true ↔
    ∃ x clock rest c, g.inputs = x :: ⟨.rising, clock⟩ :: rest ∧ net.gate? clock = some c ∧ c.fn = .one := by
  unfold isSynchronous
  split
  · next x clock rest inputs =>
    rw [inputs, Bool.and_eq_true, beq_iff_eq, Option.any_eq_true]
    constructor
    · rintro ⟨rising, c, found, isOne⟩
      exact ⟨x, clock.driver, rest, c, by rw [← rising], found, eq_of_beq isOne⟩
    · rintro ⟨_, _, _, c, eq, found, isOne⟩
      cases eq
      exact ⟨rfl, c, found, beq_iff_eq.mpr isOne⟩
  · next other =>
    constructor
    · nofun
    · rintro ⟨x, clock, rest, _, inputs, _⟩
      exact absurd inputs (other x _ rest)

theorem definitionLine_eq {id : GateId} {kind : String} {operands : List GateId} (some : operands ≠ []) :
    definitionLine id kind operands = Definition.line ⟨id.text, kind, operands.map GateId.text⟩ := by
  unfold definitionLine Definition.line
  rw [if_neg (by simpa using some)]
  simp only [String.append_assoc]

section Gates

variable {net : Netlist} {symbols : SymbolTable} {g : Gate}

theorem line_of_inputs (variadic : g.fn ≠ .flipFlop) (inputs : g.inputs ≠ []) :
    (definitionOf symbols g).line = definitionLine g.id (kindOf symbols g.fn) (g.inputs.map (·.driver)) := by
  rw [definitionLine_eq (by simpa using inputs), definitionOf, Shape.data, if_neg variadic, List.map_map]
  rfl

/-- The line of a gate is its definition. -/
theorem gateLine_of_isExpressible (arity : g.hasArity = true) (inner : g.isSource = false)
    (expressible : isExpressible net symbols g = true) :
    gateLine net symbols g = .ok (definitionOf symbols g).line := by
  obtain ⟨⟨fn, xs⟩, id, fanout⟩ := g
  have line (variadic : fn ≠ .flipFlop) (other : fn.isConstant = false) :=
    @line_of_inputs symbols ⟨⟨fn, xs⟩, id, fanout⟩ variadic (Shape.inputs_ne_nil inner other)
  cases fn with
  | latch | flipFlopRS => cases expressible
  | zero | one =>
    have none : xs = [] := List.length_eq_zero_iff.mp (of_decide_eq_true arity)
    subst none
    simp [gateLine, definitionOf, Definition.line, kindOf, plainKind, Shape.data, String.append_assoc]
  | flipFlop =>
    have two : xs.length = 2 := of_decide_eq_true arity
    have one : (xs.map (·.driver)).take 1 ≠ [] := by
      intro none
      have := congrArg List.length none
      rw [List.length_take, List.length_map, two] at this
      cases this
    have synchronous : isSynchronous net ⟨⟨.flipFlop, xs⟩, id, fanout⟩ = true := expressible
    simp only [gateLine]
    rw [if_pos synchronous, definitionLine_eq one]
    simp [definitionOf, Shape.data, kindOf, plainKind, GateFn.name, List.map_take, Function.comp_def]
  | custom n =>
    obtain ⟨name, found⟩ := Option.isSome_iff_exists.mp expressible
    rw [line (by simp) rfl]
    simp [gateLine, kindOf, SymbolTable.nameOf?, found, Result.getOrBreach]
  | _ => exact congrArg Except.ok (line (by simp) rfl).symm

/-- The writer stops at a gate that the format has no words for. -/
theorem gateLine_of_not_isExpressible (interpreted : g.fn.isUninterpreted = false)
    (inexpressible : isExpressible net symbols g = false) :
    ∃ x, gateLine net symbols g = .error (.refusal (.unsupported x)) := by
  unfold isExpressible at inexpressible
  unfold gateLine
  cases fn : g.fn with
  | latch | flipFlopRS => exact ⟨_, rfl⟩
  | flipFlop =>
    rw [fn] at inexpressible
    simp only at inexpressible ⊢
    rw [if_neg (by simp [inexpressible])]
    exact ⟨_, rfl⟩
  | custom n =>
    rw [fn] at interpreted
    cases interpreted
  | _ =>
    rw [fn] at inexpressible
    cases inexpressible

end Gates

/-! ## Definitions that can be read -/

/-- The name of a cell without a meaning. -/
structure IsCell (kind : String) : Prop where
  name : IsName kind
  unnamed : ∀ d : Definition, d.kind = kind → d.fn? = none

/-- The function that is read where this one was written, `none` for a cell. -/
def readFn : GateFn → Option GateFn
  | .output => some .buffer
  | .custom _ => none
  | fn => some fn

theorem fn?_congr {d e : Definition} (same : d.kind = e.kind) : d.fn? = e.fn? := by
  unfold Definition.fn?
  rw [same]

/-- A function is read under the kind it is written under. -/
theorem fn?_of_plainKind {d : Definition} {fn : GateFn} (named : fn ∈ .output :: namedFns)
    (kind : d.kind = plainKind fn) : d.fn? = readFn fn := by
  have closed : ∀ fn ∈ .output :: namedFns, (Definition.mk "" (plainKind fn) []).fn? = readFn fn := by decide +kernel
  rw [fn?_congr (e := ⟨"", plainKind fn, []⟩) kind]
  exact closed fn named

theorem isName_plainKind {fn : GateFn} (named : fn ∈ .output :: namedFns) : IsName (plainKind fn) := by
  have closed : ∀ fn ∈ .output :: namedFns, (plainKind fn).toList ≠ [] ∧
      (plainKind fn).toList.all isPlainChar = true := by decide +kernel
  exact isName_of_plain (closed fn named).1 (closed fn named).2

/-- A table of cells that can be read. -/
structure IsCellTable (symbols : SymbolTable) : Prop where
  cells : ∀ kind ∈ symbols.names, IsCell kind
  fits : symbols.names.length ≤ SymbolTable.capacity

/-- The format has words for every gate, nothing is triggered but flip-flops, and if there are cells they have names. -/
structure Writable (net : Netlist) (symbols : SymbolTable) : Prop where
  reachable : net.Reachable
  expressible : ∀ {id : GateId} {g : Gate}, net.gate? id = some g → g.isSource = false →
    isExpressible net symbols g = true
  plain : ∀ {id : GateId} {g : Gate}, net.gate? id = some g → g.isTrigger = true → g.fn = .flipFlop
  cells : ∀ {id : GateId} {g : Gate}, net.gate? id = some g → g.fn.isUninterpreted = true → IsCellTable symbols

theorem hasArity_of_reachable {net : Netlist} (h : net.Reachable) {id : GateId} {g : Gate}
    (found : net.gate? id = some g) : g.hasArity = true :=
  (Bool.and_eq_true_iff.mp (h.consistent.wired.valid found)).1

section Writable

variable {net : Netlist} {symbols : SymbolTable} (h : Writable net symbols) {id : GateId} {g : Gate}
  (found : net.gate? id = some g) (inner : g.isSource = false)
include h found inner

/-- A gate has a function with a name, or is a cell. -/
theorem Writable.named_or_cell : g.fn ∈ .output :: namedFns ∧ kindOf symbols g.fn = plainKind g.fn ∨
    ∃ n kind, g.fn = .custom n ∧ symbols.names[n]? = some kind ∧ kindOf symbols g.fn = kind ∧ IsCell kind := by
  have expressible := h.expressible found inner
  have arity := hasArity_of_reachable h.reachable found
  have inputs := Shape.inputs_ne_nil inner
  unfold isExpressible at expressible
  unfold Shape.hasArity at arity
  cases fn : g.fn with
  | latch | flipFlopRS =>
    rw [fn] at expressible
    cases expressible
  | input =>
    rw [fn] at arity inputs
    exact absurd (List.length_eq_zero_iff.mp (of_decide_eq_true arity)) (inputs rfl)
  | custom n =>
    rw [fn] at expressible
    obtain ⟨kind, known⟩ := Option.isSome_iff_exists.mp expressible
    refine .inr ⟨n, kind, rfl, known, ?_, (h.cells found (by rw [fn]; rfl)).cells kind (List.mem_of_getElem? known)⟩
    simp [kindOf, known]
  | _ => exact .inl ⟨by decide, rfl⟩

theorem Writable.isWritten : (definitionOf symbols g).IsWritten where
  name := isName_text g.id
  kind := by
    show IsName (kindOf symbols g.fn)
    rcases h.named_or_cell found inner with ⟨named, kind⟩ | ⟨_, _, _, _, kind, cell⟩
    · rw [kind]
      exact isName_plainKind named
    · rw [kind]
      exact cell.name
  operands operand mem := by
    obtain ⟨s, _, rfl⟩ := List.mem_map.mp mem
    exact isName_text s.driver

/-- The function of a gate is read as it was written. -/
theorem Writable.fn?_definitionOf : (definitionOf symbols g).fn? = readFn g.fn := by
  rcases h.named_or_cell found inner with ⟨named, kind⟩ | ⟨n, _, custom, _, kind, cell⟩
  · exact fn?_of_plainKind named kind
  · rw [custom]
    exact cell.unnamed _ kind

/-- A written definition has as many operands as it should. -/
theorem Writable.hasArity_definitionOf : (definitionOf symbols g).hasArity = true := by
  have arity := hasArity_of_reachable h.reachable found
  have inputs := List.length_pos_iff.mpr ∘ Shape.inputs_ne_nil inner
  unfold Definition.hasArity
  rw [h.fn?_definitionOf found inner]
  have length : (definitionOf symbols g).operands.length = g.data.length := List.length_map ..
  rw [length]
  unfold Shape.data
  unfold Shape.hasArity Shape.arity at arity
  cases fn : g.fn
  all_goals simp_all [readFn, Definition.acceptsOperands, GateFn.accepts, GateFn.isConstant]
  omega

end Writable

/-! ## Texts -/

/-- The gates for which definitions are written. -/
def definedGates (net : Netlist) (order : List GateId) : List Gate :=
  (order.filterMap net.gate?).filter fun g => !g.isSource

theorem mem_definedGates {net : Netlist} {order : List GateId} {g : Gate} :
    g ∈ definedGates net order ↔ (∃ id ∈ order, net.gate? id = some g) ∧ g.isSource = false := by
  rw [definedGates, List.mem_filter, List.mem_filterMap, Bool.not_eq_true']

/-- The definitions that are written. -/
abbrev definitions (net : Netlist) (symbols : SymbolTable) (order : List GateId) : List Definition :=
  (definedGates net order).map (definitionOf symbols)

/-- The lines of a text, each with what it says. -/
def rows (net : Netlist) (symbols : SymbolTable) (order : List GateId) : List (String × Option Statement) :=
  [("# .bench (ISCAS) file", none), ("# Generated by gatelec", none)] ++
    (portsOf net.sources).map (fun g => (portLine "INPUT" g.text, some (.input g.text))) ++ [("", none)] ++
    (portsOf net.targets).map (fun g => (portLine "OUTPUT" g.text, some (.output g.text))) ++ [("", none)] ++
    (definedGates net order).map fun g => ((definitionOf symbols g).line, some (.gate (definitionOf symbols g)))

theorem ofResults_map_ok (lines : List String) : Draft.ofResults (lines.map .ok) = ⟨lines, none⟩ := by
  induction lines with
  | nil => rfl
  | cons line lines ih => simp [Draft.ofResults, ih]

section Text

variable {net : Netlist} {symbols : SymbolTable} (h : Writable net symbols) {order : List GateId}
  (ordered : net.view.orderedGates = .ok order)
include h ordered

/-- What is written are the lines. -/
theorem write_eq : write net symbols = .ok (String.join (((rows net symbols order).map Prod.fst).map (· ++ "\n"))) := by
  have lines : gateLines net symbols = ((definitions net symbols order).map Definition.line).map .ok := by
    rw [gateLines, ordered, List.map_map, List.map_map]
    apply List.map_congr_left
    intro g mem
    obtain ⟨⟨id, _, found⟩, inner⟩ := mem_definedGates.mp mem
    exact gateLine_of_isExpressible (hasArity_of_reachable h.reachable found) inner (h.expressible found inner)
  have all : draft net symbols = ⟨(rows net symbols order).map Prod.fst, none⟩ := by
    rw [draft, lines, ← List.map_append, ofResults_map_ok]
    simp [rows, portLine, Function.comp_def]
  rw [write, all]
  rfl

omit ordered in
/-- Every line says what it was written for. -/
theorem rows_read : ∀ row ∈ rows net symbols order,
    '\n' ∉ row.1.toList ∧ Statement.ofLine row.1.toList = .ok row.2 := by
  intro row mem
  simp only [rows, List.mem_append, List.mem_cons, List.not_mem_nil, or_false, List.mem_map] at mem
  rcases mem with (((((rfl | rfl) | ⟨x, _, rfl⟩) | rfl) | ⟨x, _, rfl⟩) | rfl) | ⟨g, mem, rfl⟩
  · exact ⟨by decide, by decide +kernel⟩
  · exact ⟨by decide, by decide +kernel⟩
  · exact ⟨singleLine_portLine isName_input (isName_text x), ofLine_input (isName_text x)⟩
  · exact ⟨by decide, rfl⟩
  · exact ⟨singleLine_portLine isName_output (isName_text x), ofLine_output (isName_text x)⟩
  · exact ⟨by decide, rfl⟩
  · obtain ⟨⟨id, _, found⟩, inner⟩ := mem_definedGates.mp mem
    have written := h.isWritten found inner
    refine ⟨singleLine_line written, ofLine_definition written ?_⟩
    show g.id.text.toList.head? ≠ some '#'
    simp [toList_text]

/-- THE STATEMENTS OF A WRITTEN TEXT are its ports and the definitions of its gates. -/
theorem statements_written : ∃ text said, write net symbols = .ok text ∧ statements text.toUTF8 = .ok said ∧
    said.filterMap Statement.input? = (portsOf net.sources).map GateId.text ∧
    said.filterMap Statement.output? = (portsOf net.targets).map GateId.text ∧
    said.filterMap Statement.gate? = definitions net symbols order := by
  refine ⟨_, _, write_eq h ordered, statements_join (rows_read h), ?_, ?_, ?_⟩
  · simp [rows, List.filterMap_append, List.filterMap_map, Function.comp_def, Statement.input?]
  · simp [rows, List.filterMap_append, List.filterMap_map, Function.comp_def, Statement.output?]
  · simp [rows, List.filterMap_append, List.filterMap_map, Function.comp_def, Statement.gate?]

end Text

/-! ## Where the writer stops -/

theorem fault_ofResults {P : Fault → Prop} {results : List (Result String)}
    (each : ∀ r ∈ results, (∃ line, r = .ok line) ∨ ∃ f, r = .error f ∧ P f) (stops : ∃ f, .error f ∈ results) :
    ∃ f, (Draft.ofResults results).fault = some f ∧ P f := by
  induction results with
  | nil =>
    obtain ⟨f, mem⟩ := stops
    cases mem
  | cons r rest ih =>
    rw [List.forall_mem_cons] at each
    rcases each.1 with ⟨line, rfl⟩ | ⟨f, rfl, holds⟩
    · obtain ⟨f, mem⟩ := stops
      exact ih each.2 ⟨f, (List.mem_cons.mp mem).resolve_left nofun⟩
    · exact ⟨f, rfl, holds⟩

/-- A netlist without cells is refused as soon as there are no words for one of its gates. -/
theorem write_of_not_isExpressible {net : Netlist} {symbols : SymbolTable} (reachable : net.Reachable)
    (interpreted : net.view.CustomFree) {order : List GateId} (ordered : net.view.orderedGates = .ok order) {g : Gate}
    (mem : g ∈ definedGates net order) (inexpressible : isExpressible net symbols g = false) :
    ∃ x, write net symbols = .error (.refusal (.unsupported x)) := by
  have known : ∀ {g}, g ∈ definedGates net order → (∃ id, net.gate? id = some g) ∧ g.fn.isUninterpreted = false := by
    intro g mem
    obtain ⟨⟨id, _, found⟩, _⟩ := mem_definedGates.mp mem
    exact ⟨⟨id, found⟩, interpreted id (reachable.consistent.mem_view_gates.mpr ⟨g, found⟩) g found⟩
  have lines : gateLines net symbols = (definedGates net order).map (gateLine net symbols) := by
    rw [gateLines, ordered]
    rfl
  obtain ⟨f, fault, x, rfl⟩ : ∃ f, (draft net symbols).fault = some f ∧ ∃ x, f = .refusal (.unsupported x) := by
    apply fault_ofResults
    · intro r mem
      rw [List.mem_append, lines] at mem
      rcases mem with port | gate
      · obtain ⟨line, _, rfl⟩ := List.mem_map.mp port
        exact .inl ⟨line, rfl⟩
      · obtain ⟨g, inside, rfl⟩ := List.mem_map.mp gate
        obtain ⟨⟨id, found⟩, interpreted⟩ := known inside
        cases expressible : isExpressible net symbols g with
        | true =>
          exact .inl ⟨_, gateLine_of_isExpressible (hasArity_of_reachable reachable found)
            (mem_definedGates.mp inside).2 expressible⟩
        | false =>
          obtain ⟨x, stops⟩ := gateLine_of_not_isExpressible interpreted expressible
          exact .inr ⟨_, stops, x, rfl⟩
    · obtain ⟨x, stops⟩ := gateLine_of_not_isExpressible (known mem).2 inexpressible
      refine ⟨.refusal (.unsupported x), List.mem_append_right _ ?_⟩
      rw [lines, ← stops]
      exact List.mem_map_of_mem mem
  refine ⟨x, ?_⟩
  rw [write, Draft.result, fault]

end Bench

end LogicNet
