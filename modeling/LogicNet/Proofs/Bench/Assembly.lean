import LogicNet.Proofs.Bench.Naming

/-!
# What a text describes

The declared names have their gates before any definition is looked at. Each definition then fills in its gate, and
each output adds one.

**The law** (`assembled_of_wire`): what is filled in stays. In the end every definition has a gate of the shape it
DESCRIBES, whatever stands before and after it, and beside the gates that are named there are outputs and constants
only. `exists_wire` says when a text gets that far.
-/

namespace LogicNet

open Std

namespace Bench

/-! ## Meaning of names -/

/-- The gate that a name stands for: the one declared under it, or else a constant. -/
def Resolves (names : Names) (net : Netlist) (name : String) (g : GateId) : Prop :=
  names[name]? = some g ∨ names[name]? = none ∧
    (name = "vdd" ∧ net.shape? g = some ⟨.one, []⟩ ∨ name = "gnd" ∧ net.shape? g = some ⟨.zero, []⟩)

/-- Constants stay what they are. -/
def KeepsConstants (net net' : Netlist) : Prop :=
  ∀ {g : GateId} {s : Shape}, s.isConstant = true → net.shape? g = some s → net'.shape? g = some s

section Names

variable {names : Names} {net net' : Netlist}

theorem Resolves.mono {name : String} {g : GateId} (h : Resolves names net name g) (keeps : KeepsConstants net net') :
    Resolves names net' name g := by
  rcases h with own | ⟨undeclared, ⟨isOne, found⟩ | ⟨isZero, found⟩⟩
  · exact .inl own
  · exact .inr ⟨undeclared, .inl ⟨isOne, keeps rfl found⟩⟩
  · exact .inr ⟨undeclared, .inr ⟨isZero, keeps rfl found⟩⟩

/-- A name that can be read stands for a gate. -/
theorem driver_resolves (h : net.Reachable) {name : String} {g : GateId}
    (read : names.driver net name = .ok (g, net')) : net.Supplies net' ∧ Resolves names net' name g := by
  unfold Names.driver at read
  split at read
  · next own =>
    cases read
    exact ⟨.refl h, .inl own⟩
  · next undeclared =>
    split at read
    · obtain ⟨supplies, found, _⟩ := Netlist.supplies_addGate rfl h read
      exact ⟨supplies, .inr ⟨undeclared, .inl ⟨rfl, found⟩⟩⟩
    · obtain ⟨supplies, found, _⟩ := Netlist.supplies_addGate rfl h read
      exact ⟨supplies, .inr ⟨undeclared, .inr ⟨rfl, found⟩⟩⟩
    · cases read

theorem operands_resolve {operands : List String} (h : net.Reachable) {drivers : List GateId}
    (read : net.addAll names.driver operands = .ok (drivers, net')) :
    net.Supplies net' ∧ List.Forall₂ (Resolves names net') operands drivers := by
  induction operands generalizing net drivers with
  | nil =>
    cases read
    exact ⟨.refl h, .nil⟩
  | cons name operands ih =>
    obtain ⟨⟨g, mid⟩, first, read⟩ := Result.bind_eq_ok.mp read
    obtain ⟨⟨others, last⟩, rest, read⟩ := Result.bind_eq_ok.mp read
    cases read
    obtain ⟨supplies, resolves⟩ := driver_resolves h first
    obtain ⟨supplies', resolve⟩ := ih supplies.reachable rest
    exact ⟨supplies.trans supplies', .cons (resolves.mono fun _ found => supplies'.kept found) resolve⟩

theorem driver_of_declared {name : String} {g : GateId} (declared : names[name]? = some g) :
    names.driver net name = .ok (g, net) := by
  unfold Names.driver
  rw [declared]

/-- Declared names are read off and change nothing. -/
theorem addAll_driver_of_declared {operands : List String} {drivers : List GateId}
    (declared : List.Forall₂ (fun (name : String) g => names[name]? = some g) operands drivers) :
    net.addAll names.driver operands = .ok (drivers, net) := by
  induction declared with
  | nil => rfl
  | cons first _ ih =>
    exact Result.bind_eq_ok.mpr ⟨_, driver_of_declared first, Result.bind_eq_ok.mpr ⟨_, ih, rfl⟩⟩

end Names

/-! ## Cells without a meaning -/

/-- A cell gets a number under which the table has its name. -/
theorem intern_spec {t t' : SymbolTable} {name : String} {fn : GateFn} (made : t.intern name = some (fn, t')) :
    (∃ n, fn = .custom n ∧ t'.names[n]? = some name) ∧ t.names <+: t'.names ∧
      (t' = t ∨ name ∉ t.names ∧ t.names.length < SymbolTable.capacity ∧ t'.names = t.names ++ [name]) := by
  unfold SymbolTable.intern at made
  split at made
  · next known =>
    cases made
    exact ⟨⟨_, rfl, List.getElem?_idxOf known⟩, List.prefix_rfl, .inl rfl⟩
  · next new =>
    split at made
    · next room =>
      cases made
      exact ⟨⟨_, rfl, List.getElem?_concat_length ..⟩, List.prefix_append .., .inr ⟨new, room, rfl⟩⟩
    · cases made

/-- The kinds of some definitions that have no meaning. -/
def cellKinds (defs : List Definition) : List String :=
  (defs.filter fun d => d.fn?.isNone).map Definition.kind

/-- A table of kinds, without repetition, that does not hold too many. -/
structure Tabulates (kinds : List String) (t : SymbolTable) : Prop where
  nodup : t.names.Nodup
  room : t.names.length ≤ SymbolTable.capacity
  within : ∀ name ∈ t.names, name ∈ kinds

theorem Tabulates.intern {kinds : List String} {t t' : SymbolTable} (h : Tabulates kinds t) {name : String}
    {fn : GateFn} (made : t.intern name = some (fn, t')) : Tabulates (kinds ++ [name]) t' := by
  rcases (intern_spec made).2.2 with rfl | ⟨new, room, names⟩
  · exact ⟨h.nodup, h.room, fun x mem => List.mem_append_left _ (h.within x mem)⟩
  · refine ⟨?_, ?_, ?_⟩
    · rw [names]
      exact List.nodup_append.mpr ⟨h.nodup, List.nodup_singleton _, by grind⟩
    · rw [names, List.length_append]
      exact room
    · rw [names]
      have := h.within
      grind

/-- There is a number for a kind that belongs to a list of kinds that is not too long. -/
theorem Tabulates.exists_intern {kinds : List String} {t : SymbolTable} (h : Tabulates kinds t) {table : List String}
    (fits : table.length ≤ SymbolTable.capacity) (within : ∀ name ∈ kinds, name ∈ table) {name : String}
    (mem : name ∈ table) : ∃ made, t.intern name = some made := by
  unfold SymbolTable.intern
  split
  · exact ⟨_, rfl⟩
  · next new =>
    have more : (name :: t.names).length ≤ table.length := by
      apply List.Subperm.length_le
      apply (List.nodup_cons.mpr ⟨new, h.nodup⟩).subperm
      intro x inside
      rcases List.mem_cons.mp inside with rfl | inside
      · exact mem
      · exact within x (h.within x inside)
    rw [List.length_cons] at more
    rw [if_pos (by omega)]
    exact ⟨_, rfl⟩

/-! ## Meaning of definitions -/

/-- The shape that a definition gives to its gate, when its operands stand for these drivers. -/
def Spells (net : Netlist) (symbols : SymbolTable) (d : Definition) (drivers : List GateId) (s : Shape) : Prop :=
  match d.fn? with
  | some .flipFlop => ∃ clock, net.shape? clock = some ⟨.one, []⟩ ∧
      s = ⟨.flipFlop, drivers.map Signal.plain ++ [⟨.rising, clock⟩]⟩
  | some fn => s = .nary fn drivers
  | none => ∃ n, symbols.names[n]? = some d.kind ∧ s = .nary (.custom n) drivers

section Spelling

variable {net : Netlist} {symbols : SymbolTable} {d : Definition} {drivers : List GateId} {s : Shape}

theorem spells_flipFlop (named : d.fn? = some .flipFlop) : Spells net symbols d drivers s ↔
    ∃ clock, net.shape? clock = some ⟨.one, []⟩ ∧ s = ⟨.flipFlop, drivers.map Signal.plain ++ [⟨.rising, clock⟩]⟩ := by
  rw [Spells, named]

theorem spells_named {fn : GateFn} (named : d.fn? = some fn) (plain : fn ≠ .flipFlop) :
    Spells net symbols d drivers s ↔ s = .nary fn drivers := by
  rw [Spells, named]
  cases fn <;> first | exact Iff.rfl | exact absurd rfl plain

theorem spells_cell (unnamed : d.fn? = none) : Spells net symbols d drivers s ↔
    ∃ n, symbols.names[n]? = some d.kind ∧ s = .nary (.custom n) drivers := by
  rw [Spells, unnamed]

end Spelling

/-- A shape that a definition describes. -/
def Describes (names : Names) (net : Netlist) (symbols : SymbolTable) (d : Definition) (s : Shape) : Prop :=
  d.hasArity = true ∧ ∃ drivers, List.Forall₂ (Resolves names net) d.operands drivers ∧ Spells net symbols d drivers s

/-- What is described is a flip-flop of one driver, another function that has a name, or a cell. -/
theorem Describes.cases {names : Names} {net : Netlist} {symbols : SymbolTable} {d : Definition} {s : Shape}
    (h : Describes names net symbols d s) : ∃ drivers, List.Forall₂ (Resolves names net) d.operands drivers ∧
      ((d.fn? = some .flipFlop ∧ ∃ driver clock, drivers = [driver] ∧ net.shape? clock = some ⟨.one, []⟩ ∧
          s = ⟨.flipFlop, [.plain driver, ⟨.rising, clock⟩]⟩) ∨
        (∃ fn, d.fn? = some fn ∧ fn ≠ .flipFlop ∧ Definition.acceptsOperands fn drivers.length = true ∧
          s = .nary fn drivers) ∨
        d.fn? = none ∧ ∃ n, symbols.names[n]? = some d.kind ∧ s = .nary (.custom n) drivers) := by
  obtain ⟨arity, drivers, resolve, spells⟩ := h
  refine ⟨drivers, resolve, ?_⟩
  rw [Definition.hasArity, resolve.length_eq] at arity
  cases named : d.fn? with
  | none => exact .inr (.inr ⟨rfl, (spells_cell named).mp spells⟩)
  | some fn =>
    rw [named] at arity
    by_cases flipFlop : fn = .flipFlop
    · subst flipFlop
      obtain ⟨clock, isOne, rfl⟩ := (spells_flipFlop named).mp spells
      obtain ⟨driver, rfl⟩ := List.length_eq_one_iff.mp (of_decide_eq_true arity)
      exact .inl ⟨rfl, driver, clock, rfl, isOne, rfl⟩
    · exact .inr (.inl ⟨fn, rfl, flipFlop, arity, (spells_named named flipFlop).mp spells⟩)

theorem Spells.mono {net net' : Netlist} {symbols symbols' : SymbolTable} {d : Definition} {drivers : List GateId}
    {s : Shape} (h : Spells net symbols d drivers s) (keeps : KeepsConstants net net')
    (grows : symbols.names <+: symbols'.names) : Spells net' symbols' d drivers s := by
  unfold Spells at *
  split at h
  · obtain ⟨clock, isOne, rfl⟩ := h
    exact ⟨clock, keeps rfl isOne, rfl⟩
  · exact h
  · obtain ⟨n, name, rfl⟩ := h
    obtain ⟨more, eq⟩ := grows
    refine ⟨n, ?_, rfl⟩
    rw [← eq, List.getElem?_append_left (List.getElem?_eq_some_iff.mp name).1]
    exact name

theorem Describes.mono {names : Names} {net net' : Netlist} {symbols symbols' : SymbolTable} {d : Definition}
    {s : Shape} (h : Describes names net symbols d s) (keeps : KeepsConstants net net')
    (grows : symbols.names <+: symbols'.names) : Describes names net' symbols' d s := by
  obtain ⟨arity, drivers, resolve, spells⟩ := h
  exact ⟨arity, drivers, resolve.imp fun _ _ h => h.mono keeps, spells.mono keeps grows⟩

/-- The functions that have a name in a text. -/
def namedFns : List GateFn :=
  [.flipFlop, .buffer, .not, .one, .zero, .and, .nand, .or, .nor, .xor, .xnor, .majority]

theorem Definition.fn?_mem {d : Definition} {fn : GateFn} (named : d.fn? = some fn) : fn ∈ namedFns := by
  unfold Definition.fn? at named
  split at named <;> cases named <;> decide

/-- Operands in the right number are inputs in the right number. -/
theorem accepts_of_acceptsOperands {fn : GateFn} (named : fn ∈ namedFns) (plain : fn ≠ .flipFlop) {n : Nat}
    (accepts : Definition.acceptsOperands fn n = true) : fn.accepts n = true := by
  simp only [namedFns, List.mem_cons, List.not_mem_nil, or_false] at named
  rcases named with rfl | rfl | rfl | rfl | rfl | rfl | rfl | rfl | rfl | rfl | rfl | rfl
  all_goals simp_all [Definition.acceptsOperands, GateFn.accepts]

/-- A definition makes no output, and what it makes has as many inputs as it should. -/
theorem Describes.isGate {names : Names} {net : Netlist} {symbols : SymbolTable} {d : Definition} {s : Shape}
    (h : Describes names net symbols d s) : s.isOutput = false ∧ s.hasArity = true := by
  obtain ⟨drivers, _, ⟨_, driver, clock, _, _, rfl⟩ | ⟨fn, named, plain, arity, rfl⟩ | ⟨_, n, _, rfl⟩⟩ := h.cases
  · exact ⟨rfl, rfl⟩
  · have mem := Definition.fn?_mem named
    constructor
    · show (fn == .output) = false
      rw [beq_eq_false_iff_ne]
      rintro rfl
      exact absurd mem (by decide)
    · show fn.accepts (drivers.map Signal.plain).length = true
      rw [List.length_map]
      exact accepts_of_acceptsOperands mem plain arity
  · exact ⟨rfl, rfl⟩

/-! ## Filling in -/

/-- A definition of a flip-flop. -/
def Definition.isFlipFlop (d : Definition) : Bool := d.fn? == some .flipFlop

/-- Some definitions have been filled in and some outputs added. -/
structure Assembled (ins : List String) (defs : List Definition) (names : Names) (done : List Definition)
    (written : List String) (design : Design) : Prop where
  reachable : design.net.Reachable
  flat : design.net.parts = []
  disturbed : design.net.Disturbed
  next : ins.length + defs.length ≤ design.net.nextId
  inputs : design.inputs = places ins
  input : ∀ i < ins.length, design.net.shape? ⟨i⟩ = some ⟨.input, []⟩
  filled : ∀ (j : Nat) (d : Definition), done[j]? = some d → ∃ s, design.net.shape? ⟨ins.length + j⟩ = some s ∧
    Describes names design.net design.symbols d s
  vacant : ∀ j, done.length ≤ j → j < defs.length → design.net.shape? ⟨ins.length + j⟩ = some ⟨.buffer, []⟩
  outputs : design.outputs.map Prod.fst = written
  output : ∀ x ∈ design.outputs, ins.length + defs.length ≤ x.2.index ∧
    ∃ d, Resolves names design.net x.1 d ∧ design.net.shape? x.2 = some (.nary .output [d])
  distinct : (design.outputs.map Prod.snd).Nodup
  extra : ∀ (g : GateId) (s : Shape), design.net.shape? g = some s → ins.length + defs.length ≤ g.index →
    s.isConstant = true ∨ ∃ name, (name, g) ∈ design.outputs
  triggers : design.triggers.map Prod.fst = (done.filter Definition.isFlipFlop).map Definition.name
  trigger : ∀ x ∈ design.triggers, names[x.1]? = some x.2
  symbols : Tabulates (cellKinds done) design.symbols

section Steps

variable {ins : List String} {defs : List Definition} {names : Names} {design : Design}

/-- The names are declared, and nothing else has been done. -/
theorem Laid.assembled (h : Laid ins defs names design) : Assembled ins defs names [] [] design := by
  have fresh := h.fresh
  refine ⟨h.laying.reachable, h.laying.flat, h.laying.disturbed, Nat.le_of_eq h.next.symm, by rw [fresh],
    fun _ => h.input, nofun, fun _ _ => h.placeholder, by rw [fresh]; rfl, ?_, ?_, ?_, by rw [fresh]; rfl, ?_, ?_⟩
  · rw [fresh]
    nofun
  · rw [fresh]
    exact List.nodup_nil
  · intro g s found above
    have below := h.laying.reachable.consistent.lt_next found
    rw [h.next] at below
    omega
  · rw [fresh]
    nofun
  · rw [fresh]
    exact ⟨List.nodup_nil, Nat.zero_le _, nofun⟩

/-- What a definition makes of its gate, and what it does to the design on the way. -/
structure Shaped (before : Design) (d : Definition) (g : GateId) (drivers : List GateId) (s : Shape)
    (after : Design) : Prop where
  supplies : before.net.Supplies after.net
  next : after.net.nextId ≤ before.net.nextId + if d.isFlipFlop then 1 else 0
  spells : Spells after.net after.symbols d drivers s
  inputs : after.inputs = before.inputs
  outputs : after.outputs = before.outputs
  triggers : after.triggers = before.triggers ++ if d.isFlipFlop then [(d.name, g)] else []
  grows : before.symbols.names <+: after.symbols.names
  symbols : ∀ {done}, Tabulates (cellKinds done) before.symbols → Tabulates (cellKinds (done ++ [d])) after.symbols

theorem cellKinds_snoc (done : List Definition) (d : Definition) :
    cellKinds (done ++ [d]) = cellKinds done ++ if d.fn?.isNone then [d.kind] else [] := by
  unfold cellKinds
  rw [List.filter_append, List.map_append]
  split <;> simp_all

theorem shaped_shape {before after : Design} (h : before.net.Reachable) {d : Definition} {g : GateId}
    {drivers : List GateId} {s : Shape} (made : shape before d g drivers = .ok (s, after)) :
    Shaped before d g drivers s after := by
  unfold shape at made
  split at made
  · next isFlipFlop =>
    obtain ⟨⟨clock, net⟩, added, made⟩ := Result.bind_eq_ok.mp made
    cases made
    obtain ⟨supplies, isOne, next⟩ := Netlist.supplies_addGate rfl h added
    refine ⟨supplies, ?_, ?_, rfl, rfl, ?_, List.prefix_rfl, ?_⟩
    · simpa [Definition.isFlipFlop, isFlipFlop] using next
    · exact (spells_flipFlop isFlipFlop).mpr ⟨clock, isOne, rfl⟩
    · simp [Definition.isFlipFlop, isFlipFlop]
    · intro done tabulates
      rw [cellKinds_snoc, isFlipFlop]
      simpa using tabulates
  · next fn plain named =>
    cases made
    refine ⟨.refl h, Nat.le_add_right .., ?_, rfl, rfl, ?_, List.prefix_rfl, ?_⟩
    · exact (spells_named named plain).mpr rfl
    · have other : d.isFlipFlop = false := by
        rw [Definition.isFlipFlop, named, beq_eq_false_iff_ne]
        exact fun same => plain (Option.some.inj same)
      simp [other]
    · intro done tabulates
      rw [cellKinds_snoc, named]
      simpa using tabulates
  · next unnamed =>
    obtain ⟨⟨fn, symbols⟩, interned, made⟩ := Result.bind_eq_ok.mp made
    cases made
    have interned := Result.getOrBreach_eq_ok.mp interned
    obtain ⟨⟨n, rfl, name⟩, grows, _⟩ := intern_spec interned
    refine ⟨.refl h, Nat.le_add_right .., ?_, rfl, rfl, ?_, grows, ?_⟩
    · exact (spells_cell unnamed).mpr ⟨n, name, rfl⟩
    · simp [Definition.isFlipFlop, unnamed]
    · intro done tabulates
      rw [cellKinds_snoc, unnamed]
      exact tabulates.intern interned

/-- Filling in reads the operands, makes the shape, and changes the gate. -/
theorem fill_eq_ok {d : Definition} {design' : Design} : fill names design d = .ok design' ↔
    ∃ g drivers net s mid net', names[d.name]? = some g ∧
      design.net.addAll names.driver d.operands = .ok (drivers, net) ∧ d.hasArity = true ∧
      shape { design with net } d g drivers = .ok (s, mid) ∧ mid.net.setGate g s = .ok net' ∧
      design' = { mid with net := net' } := by
  constructor
  · intro filled
    obtain ⟨g, found, filled⟩ := Result.bind_eq_ok.mp filled
    obtain ⟨⟨drivers, net⟩, read, filled⟩ := Result.bind_eq_ok.mp filled
    simp only at filled
    split at filled
    · cases filled
    · next arity =>
      obtain ⟨⟨s, mid⟩, made, filled⟩ := Result.bind_eq_ok.mp filled
      obtain ⟨net', set, filled⟩ := Result.bind_eq_ok.mp filled
      cases filled
      exact ⟨g, drivers, net, s, mid, net', Result.getOrBreach_eq_ok.mp found, read, by simpa using arity, made, set,
        rfl⟩
  · rintro ⟨g, drivers, net, s, mid, net', found, read, arity, made, set, rfl⟩
    refine Result.bind_eq_ok.mpr ⟨g, Result.getOrBreach_eq_ok.mpr found, ?_⟩
    refine Result.bind_eq_ok.mpr ⟨_, read, ?_⟩
    simp only [arity, Bool.not_true, Bool.false_eq_true, if_false]
    exact Result.bind_eq_ok.mpr ⟨_, made, Result.bind_eq_ok.mpr ⟨_, set, rfl⟩⟩

section Fill

variable {done : List Definition} {d : Definition} {rest : List Definition}
  (named : names.Numbers (ins ++ defs.map Definition.name)) (split : defs = done ++ d :: rest)
include named split

/-- The definition whose turn it is has the gate of its place. -/
theorem names_of_split : names[d.name]? = some ⟨ins.length + done.length⟩ := by
  rw [named, split]
  simp

/-- Filling in a definition leaves what has been filled in before. -/
theorem Assembled.fill (h : Assembled ins defs names done [] design) {design' : Design}
    (filled : fill names design d = .ok design') : Assembled ins defs names (done ++ [d]) [] design' := by
  obtain ⟨g, drivers, net, s, mid, net', found, read, arity, made, set, rfl⟩ := fill_eq_ok.mp filled
  have own := names_of_split named split
  rw [own] at found
  cases found
  obtain ⟨supplied, resolve⟩ := operands_resolve h.reachable read
  have shaped := shaped_shape supplied.reachable made
  have supplies := supplied.trans shaped.supplies
  have reshapes := Netlist.reshapes_setGate supplies.reachable.consistent set
  have fits : done.length < defs.length := by simp [split]
  have vacant := h.vacant _ (Nat.le_refl _) fits
  -- Only the place of this definition changes, and there was no constant at it.
  have kept : ∀ {x : GateId} {t : Shape}, design.net.shape? x = some t → x.index ≠ ins.length + done.length →
      net'.shape? x = some t := by
    intro x t before other
    rw [reshapes.other (by rintro rfl; exact other rfl)]
    exact supplies.kept before
  have keeps : KeepsConstants mid.net net' := by
    intro x t constant before
    rw [reshapes.other]
    · exact before
    · rintro rfl
      rw [supplies.kept vacant] at before
      cases before
      cases constant
  have keepsAll : KeepsConstants design.net net' := fun constant before => keeps constant (supplies.kept before)
  refine ⟨.setGate _ s supplies.reachable set, reshapes.flat (supplies.flat h.flat), reshapes.disturbed,
    Nat.le_trans h.next (Nat.le_trans supplies.next reshapes.more), shaped.inputs.trans h.inputs, ?_, ?_, ?_,
    (congrArg (List.map Prod.fst) shaped.outputs).trans h.outputs, ?_, shaped.outputs ▸ h.distinct, ?_, ?_, ?_,
    shaped.symbols h.symbols⟩
  · intro i lt
    exact kept (h.input i lt) (by simp; omega)
  · intro j e at?
    rcases getElem?_snoc.mp at? with before | ⟨rfl, rfl⟩
    · obtain ⟨t, here, describes⟩ := h.filled j e before
      have lt := (List.getElem?_eq_some_iff.mp before).1
      exact ⟨t, kept here (by simp; omega), describes.mono keepsAll shaped.grows⟩
    · refine ⟨s, reshapes.self, arity, drivers, ?_, shaped.spells.mono keeps List.prefix_rfl⟩
      exact resolve.imp fun _ _ h => h.mono fun constant before => keeps constant (shaped.supplies.kept before)
  · intro j le lt
    rw [List.length_append, List.length_singleton] at le
    exact kept (h.vacant j (by omega) lt) (by simp; omega)
  · intro x mem
    have none : design.outputs = [] := List.map_eq_nil_iff.mp h.outputs
    rw [shaped.outputs, none] at mem
    cases mem
  · intro x t found above
    rcases reshapes.before found with ⟨rfl, _⟩ | ⟨_, before⟩
    · simp at above
      omega
    · rcases supplies.new before with before | ⟨_, constant⟩
      · rcases h.extra x t before above with constant | ⟨name, mem⟩
        · exact .inl constant
        · exact .inr ⟨name, shaped.outputs ▸ mem⟩
      · exact .inl constant
  · rw [shaped.triggers, List.map_append, h.triggers, List.filter_append, List.map_append]
    cases flipFlop : d.isFlipFlop <;> simp [flipFlop]
  · intro x mem
    rw [shaped.triggers, List.mem_append] at mem
    rcases mem with before | new
    · exact h.trigger x before
    · split at new
      · rw [List.mem_singleton.mp new]
        exact own
      · cases new

end Fill

/-! ## Adding outputs -/

/-- Adding an output leaves all gates as they are. -/
theorem Assembled.addOutput {written : List String} (h : Assembled ins defs names defs written design)
    {name : String} {design' : Design} (added : addOutput names design name = .ok design') :
    Assembled ins defs names defs (written ++ [name]) design' := by
  obtain ⟨⟨d, net⟩, read, added⟩ := Result.bind_eq_ok.mp added
  obtain ⟨⟨g, net'⟩, built, added⟩ := Result.bind_eq_ok.mp added
  cases added
  obtain ⟨supplies, resolves⟩ := driver_resolves h.reachable read
  have reachable : net'.Reachable := .addGate (.nary .output [d]) supplies.reachable built
  obtain ⟨above, reshapes⟩ := @Netlist.reshapes_build net net' (.nary .output [d]) g built
  have kept : ∀ {x : GateId} {t : Shape}, net.shape? x = some t → net'.shape? x = some t := by
    intro x t before
    have below := supplies.reachable.consistent.lt_next before
    rw [reshapes.other (by rintro rfl; omega)]
    exact before
  have keptAll : ∀ {x : GateId} {t : Shape}, design.net.shape? x = some t → net'.shape? x = some t := fun before =>
    kept (supplies.kept before)
  have high : ins.length + defs.length ≤ g.index := Nat.le_trans (Nat.le_trans h.next supplies.next) above
  refine ⟨reachable, reshapes.flat (supplies.flat h.flat), reshapes.disturbed,
    Nat.le_trans h.next (Nat.le_trans supplies.next reshapes.more), h.inputs, fun i lt => keptAll (h.input i lt), ?_,
    fun j le lt => keptAll (h.vacant j le lt), by simp [h.outputs], ?_, ?_, ?_, h.triggers, h.trigger, h.symbols⟩
  · intro j e at?
    obtain ⟨t, here, describes⟩ := h.filled j e at?
    exact ⟨t, keptAll here, describes.mono (fun _ => keptAll) List.prefix_rfl⟩
  · intro x mem
    rcases List.mem_append.mp mem with before | new
    · obtain ⟨le, y, reads, here⟩ := h.output x before
      exact ⟨le, y, reads.mono fun _ => keptAll, keptAll here⟩
    · rw [List.mem_singleton.mp new]
      exact ⟨high, d, resolves.mono fun _ => kept, reshapes.self⟩
  · -- The new output has a number that no gate had before.
    rw [List.map_append, List.map_singleton, List.nodup_append]
    refine ⟨h.distinct, List.nodup_singleton _, ?_⟩
    intro x listed y new same
    obtain rfl := List.mem_singleton.mp new
    obtain ⟨known, mem, rfl⟩ := List.mem_map.mp listed
    obtain ⟨_, _, _, here⟩ := h.output known mem
    have below := supplies.reachable.consistent.lt_next (supplies.kept here)
    rw [same] at below
    omega
  · intro x t found le
    rcases reshapes.before found with ⟨rfl, _⟩ | ⟨_, before⟩
    · exact .inr ⟨name, by simp⟩
    · rcases supplies.new before with before | ⟨_, constant⟩
      · rcases h.extra x t before le with constant | ⟨other, mem⟩
        · exact .inl constant
        · exact .inr ⟨other, List.mem_append_left _ mem⟩
      · exact .inl constant

/-! ## The whole text -/

/-- The loops of `assemble`, with the names. -/
def wire (ins outs : List String) (defs : List Definition) : Result (Names × Design) := do
  let state ← declare ins defs
  let design ← defs.foldlM (fill state.1) state.2
  let design ← outs.foldlM (addOutput state.1) design
  return (state.1, design)

theorem declare_of_wire {outs : List String} {names : Names} (wired : wire ins outs defs = .ok (names, design)) :
    ∃ start, declare ins defs = .ok (names, start) := by
  obtain ⟨⟨names, start⟩, declared, rest⟩ := Result.bind_eq_ok.mp wired
  obtain ⟨_, _, rest⟩ := Result.bind_eq_ok.mp rest
  obtain ⟨_, _, rest⟩ := Result.bind_eq_ok.mp rest
  cases rest
  exact ⟨start, declared⟩

/-- The statements of a text are wired, and the netlist is sorted. -/
theorem assemble_eq (statements : List Statement) : assemble statements = do
    let state ← wire (statements.filterMap Statement.input?) (statements.filterMap Statement.output?)
      (statements.filterMap Statement.gate?)
    return { state.2 with net := ← state.2.net.sort } := by
  simp only [assemble, wire, declare, bind_assoc, pure_bind]

/-- Every name has the gate of its place, and every definition has been filled in. -/
theorem assembled_of_wire {outs : List String} {names : Names} {design : Design}
    (wired : wire ins outs defs = .ok (names, design)) :
    names.Numbers (ins ++ defs.map Definition.name) ∧ Assembled ins defs names defs outs design := by
  obtain ⟨⟨names, start⟩, declared, rest⟩ := Result.bind_eq_ok.mp wired
  obtain ⟨filled, fills, rest⟩ := Result.bind_eq_ok.mp rest
  obtain ⟨last, adds, rest⟩ := Result.bind_eq_ok.mp rest
  cases rest
  have laid := laid_declare declared
  refine ⟨laid.named, ?_⟩
  have assembled : Assembled ins defs names defs [] filled :=
    Result.foldlM_done (fun done design => Assembled ins defs names done [] design) fills laid.assembled
      fun _ _ _ _ _ split h step => h.fill laid.named split step
  exact Result.foldlM_done (fun written design => Assembled ins defs names defs written design) adds assembled
    fun _ _ _ _ _ _ h step => h.addOutput step

/-! ## Texts that can be assembled -/

/-- Names are declared once and before they are used, definitions have as many operands as they should, and there is
a table for all cells. -/
structure WellFormed (ins outs : List String) (defs : List Definition) : Prop where
  distinct : (ins ++ defs.map Definition.name).Nodup
  operands : ∀ d ∈ defs, ∀ name ∈ d.operands, name ∈ ins ++ defs.map Definition.name
  outputs : ∀ name ∈ outs, name ∈ ins ++ defs.map Definition.name
  arity : ∀ d ∈ defs, d.hasArity = true
  cells : ∃ table : List String, table.length ≤ SymbolTable.capacity ∧ ∀ kind ∈ cellKinds defs, kind ∈ table

/-- The drivers of a shape are those of the operands, and a clock. -/
theorem Spells.driver {net : Netlist} {symbols : SymbolTable} {d : Definition} {drivers : List GateId} {s : Shape}
    (h : Spells net symbols d drivers s) {x : Signal} (read : x ∈ s.inputs) :
    x.driver ∈ drivers ∨ net.shape? x.driver = some ⟨.one, []⟩ := by
  have plain : ∀ {x : Signal}, x ∈ drivers.map Signal.plain → x.driver ∈ drivers := by
    intro x mem
    obtain ⟨g, inside, rfl⟩ := List.mem_map.mp mem
    exact inside
  unfold Spells at h
  split at h
  · obtain ⟨clock, isOne, rfl⟩ := h
    rcases List.mem_append.mp read with operand | isClock
    · exact .inl (plain operand)
    · rw [List.mem_singleton.mp isClock]
      exact .inr isOne
  · subst h
    exact .inl (plain read)
  · obtain ⟨n, _, rfl⟩ := h
    exact .inl (plain read)

/-- The shape of a definition can be made, if there is a number for its clock and one for its kind. -/
theorem exists_shape {d : Definition} (room : d.isFlipFlop = true → design.net.nextId < GateId.largest)
    (cell : d.fn? = none → ∃ made, design.symbols.intern d.kind = some made) (g : GateId) (drivers : List GateId) :
    ∃ s mid, shape design d g drivers = .ok (s, mid) := by
  unfold shape
  split
  · next isFlipFlop =>
    obtain ⟨clock, net, added⟩ := @Netlist.exists_addGate_constant design.net .one rfl
      (room (by rw [Definition.isFlipFlop, isFlipFlop]; rfl))
    exact ⟨_, _, Result.bind_eq_ok.mpr ⟨_, added, rfl⟩⟩
  · exact ⟨_, _, rfl⟩
  · next unnamed =>
    obtain ⟨made, interned⟩ := cell unnamed
    exact ⟨_, _, Result.bind_eq_ok.mpr ⟨made, Result.getOrBreach_eq_ok.mpr interned, rfl⟩⟩

/-- What a gate is follows from its place: inputs come first, then the definitions, then constants and outputs. -/
theorem Assembled.place_cases {written : List String} (h : Assembled ins defs names defs written design) {g : GateId}
    {s : Shape} (found : design.net.shape? g = some s) :
    (g.index < ins.length ∧ s = ⟨.input, []⟩) ∨
      (∃ j d, g = ⟨ins.length + j⟩ ∧ defs[j]? = some d ∧ Describes names design.net design.symbols d s) ∨
      (s.isConstant = true ∨ ∃ name, (name, g) ∈ design.outputs) := by
  by_cases isInput : g.index < ins.length
  · have here := h.input g.index isInput
    rw [found] at here
    exact .inl ⟨isInput, Option.some.inj here⟩
  by_cases isGate : g.index < ins.length + defs.length
  · obtain ⟨j, place⟩ := Nat.exists_eq_add_of_le (Nat.le_of_not_lt isInput)
    have eq : g = ⟨ins.length + j⟩ := congrArg GateId.mk place
    have at? : defs[j]? = some defs[j] := List.getElem?_eq_getElem (by omega)
    obtain ⟨t, here, describes⟩ := h.filled j defs[j] at?
    rw [← eq, found] at here
    cases here
    exact .inr (.inl ⟨j, defs[j], eq, at?, describes⟩)
  · exact .inr (.inr (h.extra g s found (Nat.le_of_not_lt isGate)))

section Success

variable (named : names.Numbers (ins ++ defs.map Definition.name))
include named

theorem exists_of_declared {name : String} (declared : name ∈ ins ++ defs.map Definition.name) :
    ∃ g, names[name]? = some g := by
  obtain ⟨i, here⟩ := List.mem_iff_getElem?.mp declared
  exact ⟨⟨i⟩, (named name ⟨i⟩).mpr here⟩

theorem exists_drivers {operands : List String} (declared : ∀ name ∈ operands, name ∈ ins ++ defs.map Definition.name) :
    ∃ drivers, List.Forall₂ (fun (name : String) g => names[name]? = some g) operands drivers := by
  induction operands with
  | nil => exact ⟨[], .nil⟩
  | cons name operands ih =>
    rw [List.forall_mem_cons] at declared
    obtain ⟨g, first⟩ := exists_of_declared named declared.1
    obtain ⟨drivers, others⟩ := ih declared.2
    exact ⟨g :: drivers, .cons first others⟩

/-- A declared gate can be read at any time. -/
theorem Assembled.known {done : List Definition} {written : List String}
    (h : Assembled ins defs names done written design) {name : String} {g : GateId} (found : names[name]? = some g) :
    ∃ s, design.net.shape? g = some s ∧ s.isOutput = false := by
  have below := (List.getElem?_eq_some_iff.mp ((named name g).mp found)).1
  rw [List.length_append, List.length_map] at below
  by_cases isInput : g.index < ins.length
  · exact ⟨_, h.input g.index isInput, rfl⟩
  · obtain ⟨j, place⟩ := Nat.exists_eq_add_of_le (Nat.le_of_not_lt isInput)
    have here : g = ⟨ins.length + j⟩ := congrArg GateId.mk place
    rw [here]
    by_cases isDone : j < done.length
    · obtain ⟨s, found, describes⟩ := h.filled j done[j] (List.getElem?_eq_getElem isDone)
      exact ⟨s, found, describes.isGate.1⟩
    · exact ⟨_, h.vacant j (Nat.le_of_not_lt isDone) (by omega), rfl⟩

theorem Assembled.canDrive_of_resolves {done : List Definition} {written : List String}
    (h : Assembled ins defs names done written design) {net : Netlist} (supplies : design.net.Supplies net)
    {name : String} {g : GateId} (resolves : Resolves names net name g) : net.CanDrive g := by
  have consistent := supplies.reachable.consistent
  rcases resolves with own | ⟨_, ⟨_, found⟩ | ⟨_, found⟩⟩
  · obtain ⟨t, found, plain⟩ := h.known named own
    exact consistent.canDrive_of_shape? (supplies.kept found) plain
  · exact consistent.canDrive_of_shape? found rfl
  · exact consistent.canDrive_of_shape? found rfl

/-- What a definition reads can be read, whatever its operands stand for. -/
theorem Assembled.canDrive {done : List Definition} (h : Assembled ins defs names done [] design) {net : Netlist}
    (supplies : design.net.Supplies net) {d : Definition} {drivers : List GateId}
    (resolve : List.Forall₂ (Resolves names net) d.operands drivers) {symbols : SymbolTable} {s : Shape}
    (spells : Spells net symbols d drivers s) : ∀ x ∈ s.inputs, net.CanDrive x.driver := by
  intro x read
  rcases spells.driver read with operand | clock
  · obtain ⟨name, _, resolves⟩ := exists_of_forall₂ resolve operand
    exact h.canDrive_of_resolves named supplies resolves
  · exact supplies.reachable.consistent.canDrive_of_shape? clock rfl

/-- A definition can be filled in. A flip-flop may take a number for its clock. -/
theorem Assembled.exists_fill {done : List Definition} {d : Definition} {rest : List Definition}
    (h : Assembled ins defs names done [] design) (split : defs = done ++ d :: rest)
    (declared : ∀ name ∈ d.operands, name ∈ ins ++ defs.map Definition.name) (arity : d.hasArity = true)
    (cell : d.fn? = none → ∃ made, design.symbols.intern d.kind = some made)
    (room : d.isFlipFlop = true → design.net.nextId < GateId.largest) :
    ∃ design', Bench.fill names design d = .ok design' ∧
      design'.net.nextId ≤ design.net.nextId + if d.isFlipFlop then 1 else 0 := by
  obtain ⟨drivers, declared⟩ := exists_drivers named declared
  obtain ⟨s, mid, made⟩ := exists_shape room cell ⟨ins.length + done.length⟩ drivers
  have shaped := shaped_shape h.reachable made
  have consistent := shaped.supplies.reachable.consistent
  have resolve : List.Forall₂ (Resolves names mid.net) d.operands drivers := declared.imp fun _ _ own => .inl own
  have describes : Describes names mid.net mid.symbols d s := ⟨arity, drivers, resolve, shaped.spells⟩
  have canDrive := h.canDrive named shaped.supplies resolve shaped.spells
  have vacant := h.vacant done.length (Nat.le_refl _) (by simp [split])
  obtain ⟨old, found, _⟩ := Netlist.shape?_eq_some.mp (shaped.supplies.kept vacant)
  obtain ⟨net', set, next⟩ := Netlist.exists_setGate consistent found describes.isGate.2 canDrive
    fun output => absurd output (by rw [describes.isGate.1]; nofun)
  refine ⟨{ mid with net := net' }, fill_eq_ok.mpr ?_, next ▸ shaped.next⟩
  exact ⟨_, drivers, design.net, s, mid, net', names_of_split named split, addAll_driver_of_declared declared, arity,
    made, set, rfl⟩

/-- An output can be added. It takes a number. -/
theorem Assembled.exists_addOutput {written : List String} (h : Assembled ins defs names defs written design)
    {name : String} (declared : name ∈ ins ++ defs.map Definition.name) (room : design.net.nextId < GateId.largest) :
    ∃ design', Bench.addOutput names design name = .ok design' ∧ design'.net.nextId = design.net.nextId + 1 := by
  obtain ⟨d, own⟩ := exists_of_declared named declared
  obtain ⟨net', built, next⟩ := @Netlist.exists_build design.net (.nary .output [d]) rfl
    (by
      intro x read
      rw [List.mem_singleton.mp read]
      exact h.canDrive_of_resolves named (.refl h.reachable) (.inl own)) room
  have added : design.net.addOutput d = .ok (⟨design.net.nextId⟩, net') := built
  exact ⟨_, Result.bind_eq_ok.mpr ⟨_, driver_of_declared own, Result.bind_eq_ok.mpr ⟨_, added, rfl⟩⟩, next⟩

end Success

/-- A WELL-FORMED TEXT IS WIRED, as long as there are numbers for its names, its clocks and its outputs. -/
theorem exists_wire {outs : List String} (wellFormed : WellFormed ins outs defs)
    (room : ins.length + defs.length + (defs.filter Definition.isFlipFlop).length + outs.length ≤ GateId.largest) :
    ∃ names design, wire ins outs defs = .ok (names, design) ∧ design.net.nextId ≤
      ins.length + defs.length + (defs.filter Definition.isFlipFlop).length + outs.length := by
  obtain ⟨⟨names, start⟩, declared⟩ := exists_declare wellFormed.distinct (by omega)
  have laid := laid_declare declared
  obtain ⟨table, fits, cells⟩ := wellFormed.cells
  obtain ⟨filled, fills, assembled, next⟩ : ∃ filled, defs.foldlM (fill names) start = .ok filled ∧
      Assembled ins defs names defs [] filled ∧
      filled.net.nextId ≤ ins.length + defs.length + (defs.filter Definition.isFlipFlop).length := by
    apply Result.exists_foldlM_done (fun done (design : Design) => Assembled ins defs names done [] design ∧
      design.net.nextId ≤ ins.length + defs.length + (done.filter Definition.isFlipFlop).length)
      ⟨laid.assembled, Nat.le_of_eq laid.next⟩
    rintro done d rest design split ⟨h, next⟩
    have mem : d ∈ defs := by simp [split]
    have clocks : (done.filter Definition.isFlipFlop).length + (if d.isFlipFlop then 1 else 0) ≤
        (defs.filter Definition.isFlipFlop).length := by
      cases flipFlop : d.isFlipFlop <;> simp [split, flipFlop]
    have cell : d.fn? = none → ∃ made, design.symbols.intern d.kind = some made := by
      intro unnamed
      refine h.symbols.exists_intern fits (fun kind inside => cells kind ?_) (cells d.kind ?_)
      · rw [split, cellKinds, List.filter_append, List.map_append]
        exact List.mem_append_left _ inside
      · exact List.mem_map.mpr ⟨d, List.mem_filter.mpr ⟨mem, by rw [unnamed]; rfl⟩, rfl⟩
    obtain ⟨design', made, more⟩ := h.exists_fill laid.named split (wellFormed.operands d mem) (wellFormed.arity d mem)
      cell (fun flipFlop => by rw [if_pos flipFlop] at clocks; omega)
    refine ⟨design', made, h.fill laid.named split made, ?_⟩
    rw [List.filter_append, List.length_append]
    cases flipFlop : d.isFlipFlop <;> simp [flipFlop] at more ⊢ <;> omega
  obtain ⟨last, adds, _, more⟩ : ∃ last, outs.foldlM (addOutput names) filled = .ok last ∧
      Assembled ins defs names defs outs last ∧ last.net.nextId = filled.net.nextId + outs.length := by
    apply Result.exists_foldlM_done (fun written (design : Design) => Assembled ins defs names defs written design ∧
      design.net.nextId = filled.net.nextId + written.length) ⟨assembled, rfl⟩
    rintro written name rest design split ⟨h, next⟩
    have mem : name ∈ outs := by simp [split]
    have before : written.length < outs.length := by simp [split]
    obtain ⟨design', added, more⟩ := h.exists_addOutput laid.named (wellFormed.outputs name mem) (by omega)
    exact ⟨design', added, h.addOutput added, by rw [more, next, List.length_append]; rfl⟩
  exact ⟨names, last, Result.bind_eq_ok.mpr ⟨_, declared, Result.bind_eq_ok.mpr ⟨_, fills,
    Result.bind_eq_ok.mpr ⟨_, adds, rfl⟩⟩⟩, by omega⟩

end Steps

end Bench

end LogicNet
