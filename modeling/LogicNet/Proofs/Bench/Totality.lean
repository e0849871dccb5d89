import LogicNet.Proofs.Bench.Loops
import LogicNet.Proofs.Netlist.Answers

/-!
# Every text is answered

Reading a text ends in a design, in a refusal or in a breach, and a fault is never without a reason: whichever stage
stopped, what it stopped on can be said of the text alone (`Blames`). A name is defined twice or not at all, a gate has
a wrong number of operands, there are more kinds of cells than a table holds or more lines than there are numbers, or
the definitions have a loop. The assertions that stand behind the stages (a gate must exist, an output drives nothing, a
gate has its arity) are never reached.

**The law** (`read_answers`): a text that is read has nothing to blame, and a text that is not has what the fault says.

Numbers are counted with the constants that are not there yet (`Netlist.demand`): a text asks for each of them as often
as it likes and gets one gate.

**What it does not establish.** A loop is not refused (`loops_not_refused`). It is a breach where there are two gates or
more, and a single gate counts as sorted whatever it reads.
-/

namespace LogicNet

open Std

/-! ## Numbers for constants -/

namespace Netlist

/-- The number that a constant will take if it is asked for. -/
def lacks (net : Netlist) (fn : GateFn) : Nat := if (net.shared[(⟨fn, []⟩ : Shape)]?).isSome then 0 else 1

/-- The numbers that were given out and those that the constants may still take. -/
def demand (net : Netlist) : Nat := net.nextId + net.lacks .one + net.lacks .zero

section Demand

variable {net net' : Netlist} {id : GateId} {shape : Shape} {fn : GateFn} {f : Fault}

theorem lacks_le_one (net : Netlist) (fn : GateFn) : net.lacks fn ≤ 1 := by
  unfold lacks
  split <;> omega

/-- A constant that is found once is found from then on. -/
theorem lacks_le (kept : (net.shared[(⟨fn, []⟩ : Shape)]?).isSome = true →
    (net'.shared[(⟨fn, []⟩ : Shape)]?).isSome = true) : net'.lacks fn ≤ net.lacks fn := by
  unfold lacks
  split
  · omega
  · next lost => rw [if_neg (mt kept lost)]

theorem lacks_le_of_build (built : net.build shape = .ok (id, net')) (fn : GateFn) : net'.lacks fn ≤ net.lacks fn := by
  apply lacks_le
  rw [shared_build built]
  intro known
  split
  · rfl
  · exact known

theorem demand_build (built : net.build shape = .ok (id, net'))
    (below : ∀ s ∈ shape.inputs, s.driver.index < net.nextId) : net'.demand ≤ net.demand + 1 := by
  have next := (next_build built below).2
  have one := lacks_le_of_build built .one
  have zero := lacks_le_of_build built .zero
  unfold demand
  omega

section Constant

variable (constant : fn.isConstant = true)
include constant

/-- A constant is found, or it takes the number that was set aside for it. -/
theorem demand_addGate (added : net.addGate ⟨fn, []⟩ = .ok (id, net')) : net'.demand ≤ net.demand := by
  rw [addGate_constant constant] at added
  unfold findOrBuild at added
  split at added
  · cases added
    exact Nat.le_refl _
  · next unknown =>
    have next := (next_build added nofun).2
    have one := lacks_le_of_build added .one
    have zero := lacks_le_of_build added .zero
    have shareable : (⟨fn, []⟩ : Shape).isShareable = true := by cases fn <;> first | rfl | cases constant
    have before : net.lacks fn = 1 := by
      rw [lacks, unknown]
      rfl
    have after : net'.lacks fn = 0 := by
      rw [lacks, shared_build_self added shareable unknown]
      rfl
    unfold demand
    cases fn <;> first | omega | cases constant

theorem of_addGate_eq_error (failed : net.addGate ⟨fn, []⟩ = .error f) :
    f = .breach .overflow ∧ GateId.largest < net.demand := by
  rw [addGate_constant constant] at failed
  unfold findOrBuild at failed
  split at failed
  · cases failed
  · next unknown =>
    have arity : (⟨fn, []⟩ : Shape).hasArity = true := by cases fn <;> first | rfl | cases constant
    obtain ⟨rfl, full⟩ := of_build_eq_error arity nofun failed
    have lacking : net.lacks fn = 1 := by
      rw [lacks, unknown]
      rfl
    refine ⟨rfl, ?_⟩
    unfold demand
    cases fn <;> first | omega | cases constant

end Constant

/-- A gate that is no constant gets another shape, and the constants stay where they are found. -/
theorem demand_setGate (set : net.setGate id shape = .ok net')
    (below : ∀ s ∈ shape.inputs, s.driver.index < net.nextId) {old : Shape} (here : net.shape? id = some old)
    (other : old.isConstant = false) : net'.demand ≤ net.demand := by
  have kept : ∀ fn : GateFn, fn.isConstant = true → net'.lacks fn ≤ net.lacks fn := by
    intro fn constant
    apply lacks_le
    intro known
    obtain ⟨before, g, mid, _, changing, rfl⟩ := setGate_spec set
    have differs : before.toShape ≠ ⟨fn, []⟩ := by
      intro same
      rw [shape?_of_gate? changing.found, same] at here
      cases here
      rw [Shape.isConstant, constant] at other
      cases other
    have mid : (mid.shared[(⟨fn, []⟩ : Shape)]?).isSome = true := by
      rw [changing.shared]
      unfold unregister
      split
      · rw [TreeMap.getElem?_erase, if_neg (mt LawfulEqCmp.eq_of_compare differs)]
        exact known
      · exact known
    unfold register
    split
    · rw [TreeMap.getElem?_insertIfNew]
      split
      · rfl
      · exact mid
    · exact mid
  have next := next_setGate set below
  have one := kept .one rfl
  have zero := kept .zero rfl
  unfold demand
  omega

end Demand

/-- Loops are a matter of gates and not of their order. -/
theorem Consistent.acyclic_of_gate? {net net' : Netlist} (h : net.Consistent) (h' : net'.Consistent)
    (same : net'.gate? = net.gate?) (acyclic : net'.view.Acyclic) : net.view.Acyclic := by
  intro t loop
  apply acyclic t
  refine Relation.TransGen.mono ?_ _ _ loop
  rintro a b ⟨memA, memB, feeds⟩
  rw [h.mem_view_gates, ← same] at memA memB
  exact ⟨h'.mem_view_gates.mpr memA, h'.mem_view_gates.mpr memB, same ▸ feeds⟩

/-- Sorting fails on a loop and on nothing else, and not where there is only one gate. -/
theorem of_sort_eq_error {net : Netlist} (h : net.Consistent) (flat : net.parts = []) {f : Fault}
    (failed : net.sort = .error f) : f = .breach .loop ∧ ¬net.view.Acyclic ∧ 1 < net.top.size := by
  refine ⟨?_, ?_, ?_⟩
  · unfold sort at failed
    rw [isWellFormed_of_flat flat, Result.ok_bind] at failed
    split at failed
    · cases failed
    · rw [if_pos (show net.isFlat = true by rw [isFlat, flat]; rfl)] at failed
      rcases Result.bind_eq_error.mp failed with failed | ⟨_, _, failed⟩
      · exact (Result.getOrBreach_eq_error.mp failed).2
      · cases failed
  · intro acyclic
    obtain ⟨net', sorted, _⟩ := exists_sort_of_flat h flat acyclic
    rw [sorted] at failed
    cases failed
  · by_contra few
    rw [sort_of_few flat (Nat.le_of_not_lt few)] at failed
    cases failed

end Netlist

namespace Bench

/-! ## Reasons -/

/-- What a fault says about the text that it stopped. -/
inductive Blames (ins outs : List String) (defs : List Definition) : Fault → Prop
  | definedTwice {name : String} (twice : 2 ≤ (ins ++ defs.map Definition.name).count name) :
      Blames ins outs defs (.refusal (.parse (.definedTwice name)))
  | undefinedName {name : String} (used : name ∈ outs ∨ ∃ d ∈ defs, name ∈ d.operands)
      (undeclared : name ∉ ins ++ defs.map Definition.name) (noConstant : name ≠ "vdd" ∧ name ≠ "gnd") :
      Blames ins outs defs (.refusal (.parse (.undefinedName name)))
  | arity {d : Definition} (mem : d ∈ defs) (wrong : d.hasArity = false) :
      Blames ins outs defs (.refusal (.parse (.arity d.name d.operands.length d.kind)))
  | tooManySymbols (many : SymbolTable.capacity < (cellKinds defs).eraseDups.length) :
      Blames ins outs defs (.breach .tooManySymbols)
  | overflow (many : GateId.largest < ins.length + defs.length + outs.length + 2) :
      Blames ins outs defs (.breach .overflow)
  | loop (looped : Looped defs) (more : ¬SelfFed ins outs defs) : Blames ins outs defs (.breach .loop)

section Stages

variable {ins outs : List String} {defs : List Definition} {names : Names} {design : Design} {f : Fault}

/-! ## Declaring -/

theorem Names.define_eq_error {name : String} {g : GateId} : names.define name g = .error f ↔
    name ∈ names ∧ f = .refusal (.parse (.definedTwice name)) := by
  unfold Names.define
  rw [TreeMap.mem_iff_contains]
  split
  · next known =>
    simp only [known, true_and, Except.error.injEq]
    exact eq_comm
  · next new => simp [new]

theorem two_le_count {xs done rest : List String} {x : String} (split : xs = done ++ x :: rest) (mem : x ∈ done) :
    2 ≤ xs.count x := by
  have before := List.count_pos_iff.mpr mem
  rw [split, List.count_append, List.count_cons_self]
  omega

section Rows

variable {rows : List (String × Shape)} {net : Netlist} (h : Laying rows names net) {name : String}
  {rest : List String} (split : ins ++ defs.map Definition.name = rows.map Prod.fst ++ name :: rest)
include h split

theorem Laying.blame_build {s : Shape} (arity : s.hasArity = true) (free : s.inputs = [])
    (failed : net.build s = .error f) : Blames ins outs defs f := by
  obtain ⟨rfl, full⟩ := Netlist.of_build_eq_error arity (by rw [free]; nofun) failed
  have length := congrArg List.length split
  simp only [List.length_append, List.length_map, List.length_cons] at length
  rw [h.next] at full
  exact .overflow (by omega)

theorem Laying.blame_define {g : GateId} (failed : names.define name g = .error f) : Blames ins outs defs f := by
  obtain ⟨known, rfl⟩ := Names.define_eq_error.mp failed
  exact .definedTwice (two_le_count split (h.mem_iff.mp known))

end Rows

theorem Laid.blame_addInput {done rest : List String} {name : String} (h : Laid done [] names design)
    (split : ins = done ++ name :: rest) (failed : Bench.addInput (names, design) name = .error f) :
    Blames ins outs defs f := by
  have order : ins ++ defs.map Definition.name =
      (done.map inputRow ++ [].map placeholderRow).map Prod.fst ++ name :: (rest ++ defs.map Definition.name) := by
    rw [fst_rows, split]
    simp
  rcases Result.bind_eq_error.mp failed with failed | ⟨_, _, failed⟩
  · exact h.laying.blame_build order rfl rfl failed
  · rcases Result.bind_eq_error.mp failed with failed | ⟨_, _, failed⟩
    · exact h.laying.blame_define order failed
    · cases failed

theorem Laid.blame_addPlaceholder {done rest : List Definition} {d : Definition} (h : Laid ins done names design)
    (split : defs = done ++ d :: rest) (failed : Bench.addPlaceholder (names, design) d = .error f) :
    Blames ins outs defs f := by
  have order : ins ++ defs.map Definition.name =
      (ins.map inputRow ++ done.map placeholderRow).map Prod.fst ++ d.name :: rest.map Definition.name := by
    rw [fst_rows, split]
    simp
  rcases Result.bind_eq_error.mp failed with failed | ⟨_, _, failed⟩
  · exact h.laying.blame_build order rfl rfl failed
  · rcases Result.bind_eq_error.mp failed with failed | ⟨_, _, failed⟩
    · exact h.laying.blame_define order failed
    · cases failed

theorem blame_declare (failed : declare ins defs = .error f) : Blames ins outs defs f := by
  rcases Result.bind_eq_error.mp failed with failed | ⟨first, inputs, failed⟩
  · obtain ⟨done, name, rest, state, split, laid, failed⟩ := Result.exists_of_foldlM_eq_error
      (fun done (state : Names × Design) => Laid done [] state.1 state.2) failed laid_nothing
      fun _ _ _ _ _ _ h step => h.addInput step
    exact laid.blame_addInput split failed
  · have laid : Laid ins [] first.1 first.2 :=
      Result.foldlM_done (fun done state => Laid done [] state.1 state.2) inputs laid_nothing
        fun _ _ _ _ _ _ h step => h.addInput step
    obtain ⟨done, d, rest, state, split, laid, failed⟩ := Result.exists_of_foldlM_eq_error
      (fun done (state : Names × Design) => Laid ins done state.1 state.2) failed laid
      fun _ _ _ _ _ _ h step => h.addPlaceholder step
    exact laid.blame_addPlaceholder split failed

/-! ## Reading names -/

/-- Reading a name takes no number but one that was set aside. -/
theorem demand_driver {net net' : Netlist} {name : String} {g : GateId} (read : names.driver net name = .ok (g, net')) :
    net'.demand ≤ net.demand := by
  unfold Names.driver at read
  split at read
  · cases read
    exact Nat.le_refl _
  · split at read
    · exact Netlist.demand_addGate rfl read
    · exact Netlist.demand_addGate rfl read
    · cases read

theorem demand_operands {net net' : Netlist} {operands : List String} {drivers : List GateId}
    (read : net.addAll names.driver operands = .ok (drivers, net')) : net'.demand ≤ net.demand := by
  induction operands generalizing net drivers with
  | nil =>
    cases read
    exact Nat.le_refl _
  | cons name operands ih =>
    obtain ⟨⟨g, mid⟩, first, read⟩ := Result.bind_eq_ok.mp read
    obtain ⟨⟨others, last⟩, rest, read⟩ := Result.bind_eq_ok.mp read
    cases read
    exact Nat.le_trans (ih rest) (demand_driver first)

section Reading

variable (named : names.Numbers (ins ++ defs.map Definition.name))
include named

theorem blame_driver {net : Netlist} (bound : net.demand ≤ ins.length + defs.length + outs.length + 2) {name : String}
    (used : name ∈ outs ∨ ∃ d ∈ defs, name ∈ d.operands) (failed : names.driver net name = .error f) :
    Blames ins outs defs f := by
  unfold Names.driver at failed
  split at failed
  · cases failed
  · next undeclared =>
    split at failed
    · obtain ⟨rfl, full⟩ := Netlist.of_addGate_eq_error rfl failed
      exact .overflow (Nat.lt_of_lt_of_le full bound)
    · obtain ⟨rfl, full⟩ := Netlist.of_addGate_eq_error rfl failed
      exact .overflow (Nat.lt_of_lt_of_le full bound)
    · next notOne notZero =>
      cases failed
      refine .undefinedName used ?_ ⟨notOne, notZero⟩
      intro declared
      obtain ⟨g, own⟩ := exists_of_declared named declared
      rw [own] at undeclared
      cases undeclared

theorem blame_operands {net : Netlist} (bound : net.demand ≤ ins.length + defs.length + outs.length + 2)
    {operands : List String} (used : ∀ name ∈ operands, name ∈ outs ∨ ∃ d ∈ defs, name ∈ d.operands)
    (failed : net.addAll names.driver operands = .error f) : Blames ins outs defs f := by
  induction operands generalizing net with
  | nil => cases failed
  | cons name operands ih =>
    rw [List.forall_mem_cons] at used
    rcases Result.bind_eq_error.mp failed with failed | ⟨⟨g, mid⟩, first, failed⟩
    · exact blame_driver named bound used.1 failed
    · rcases Result.bind_eq_error.mp failed with failed | ⟨_, _, failed⟩
      · exact ih (Nat.le_trans (demand_driver first) bound) used.2 failed
      · cases failed

end Reading

/-! ## Filling in -/

theorem demand_shape {d : Definition} {g : GateId} {drivers : List GateId} {s : Shape} {mid : Design}
    (made : shape design d g drivers = .ok (s, mid)) : mid.net.demand ≤ design.net.demand := by
  unfold shape at made
  split at made
  · obtain ⟨⟨clock, net⟩, added, made⟩ := Result.bind_eq_ok.mp made
    cases made
    exact Netlist.demand_addGate rfl added
  · cases made
    exact Nat.le_refl _
  · obtain ⟨_, _, made⟩ := Result.bind_eq_ok.mp made
    cases made
    exact Nat.le_refl _

section Fill

variable {done rest : List Definition} {d : Definition} (split : defs = done ++ d :: rest)
include split

theorem blame_shape (bound : design.net.demand ≤ ins.length + defs.length + outs.length + 2)
    (symbols : Tabulates (cellKinds done) design.symbols) {g : GateId} {drivers : List GateId}
    (failed : shape design d g drivers = .error f) : Blames ins outs defs f := by
  unfold shape at failed
  split at failed
  · rcases Result.bind_eq_error.mp failed with failed | ⟨_, _, failed⟩
    · obtain ⟨rfl, full⟩ := Netlist.of_addGate_eq_error rfl failed
      exact .overflow (Nat.lt_of_lt_of_le full bound)
    · cases failed
  · cases failed
  · next unnamed =>
    rcases Result.bind_eq_error.mp failed with failed | ⟨_, _, failed⟩
    · obtain ⟨full, rfl⟩ := Result.getOrBreach_eq_error.mp failed
      apply Blames.tooManySymbols
      by_contra few
      -- With room for all kinds there is room for this one.
      obtain ⟨made, interned⟩ : ∃ made, design.symbols.intern d.kind = some made := by
        apply symbols.exists_intern (Nat.le_of_not_lt few)
        · intro kind mem
          rw [List.mem_eraseDups, split, cellKinds, List.filter_append, List.map_append]
          exact List.mem_append_left _ mem
        · rw [List.mem_eraseDups]
          have mem : d ∈ defs := by simp [split]
          exact List.mem_map.mpr ⟨d, List.mem_filter.mpr ⟨mem, by rw [unnamed]; rfl⟩, rfl⟩
      rw [interned] at full
      cases full
    · cases failed

variable (named : names.Numbers (ins ++ defs.map Definition.name)) (h : Assembled ins defs names done [] design)
include named h

omit split in
/-- The shape of a definition is made of what its operands stand for, and all of it can be read. -/
theorem Assembled.describes_shape (arity : d.hasArity = true) {drivers : List GateId} {net : Netlist} {s : Shape}
    {g : GateId} {mid : Design} (read : design.net.addAll names.driver d.operands = .ok (drivers, net))
    (made : shape { design with net } d g drivers = .ok (s, mid)) : design.net.Supplies mid.net ∧
      Describes names mid.net mid.symbols d s ∧ ∀ x ∈ s.inputs, mid.net.CanDrive x.driver := by
  obtain ⟨supplied, resolve⟩ := operands_resolve h.reachable read
  have shaped := shaped_shape supplied.reachable made
  have supplies := supplied.trans shaped.supplies
  have resolve : List.Forall₂ (Resolves names mid.net) d.operands drivers :=
    resolve.imp fun _ _ h => h.mono fun _ before => shaped.supplies.kept before
  exact ⟨supplies, ⟨arity, drivers, resolve, shaped.spells⟩, h.canDrive named supplies resolve shaped.spells⟩

theorem Assembled.demand_fill {design' : Design} (filled : Bench.fill names design d = .ok design') :
    design'.net.demand ≤ design.net.demand := by
  obtain ⟨g, drivers, net, s, mid, net', found, read, arity, made, set, rfl⟩ := fill_eq_ok.mp filled
  rw [names_of_split named split] at found
  cases found
  obtain ⟨supplies, _, canDrive⟩ := h.describes_shape named arity read made
  have vacant := supplies.kept (h.vacant _ (Nat.le_refl _) (by simp [split]))
  calc net'.demand
    _ ≤ mid.net.demand := Netlist.demand_setGate set (fun x read => (canDrive x read).1) vacant rfl
    _ ≤ net.demand := demand_shape made
    _ ≤ design.net.demand := demand_operands read

/-- A definition that cannot be filled in has operands that cannot be read, or too few or too many, or a kind for which
there is no number. Giving its gate the shape does not fail. -/
theorem Assembled.blame_fill (bound : design.net.demand ≤ ins.length + defs.length + outs.length + 2)
    (failed : Bench.fill names design d = .error f) : Blames ins outs defs f := by
  have mem : d ∈ defs := by simp [split]
  have own := names_of_split named split
  rcases Result.bind_eq_error.mp failed with failed | ⟨g, found, failed⟩
  · rw [own] at failed
    cases failed
  rw [own] at found
  cases found
  rcases Result.bind_eq_error.mp failed with failed | ⟨⟨drivers, net⟩, read, failed⟩
  · exact blame_operands named bound (fun name operand => .inr ⟨d, mem, operand⟩) failed
  simp only at failed
  split at failed
  · next wrong =>
    cases failed
    exact .arity mem (by simpa using wrong)
  · next arity =>
    rcases Result.bind_eq_error.mp failed with failed | ⟨⟨s, mid⟩, made, failed⟩
    · refine blame_shape split ?_ ?_ failed
      · exact Nat.le_trans (demand_operands read) bound
      · exact h.symbols
    obtain ⟨supplies, describes, canDrive⟩ := h.describes_shape named (by simpa using arity) read made
    have vacant := supplies.kept (h.vacant _ (Nat.le_refl _) (by simp [split]))
    obtain ⟨old, found, _⟩ := Netlist.shape?_eq_some.mp vacant
    obtain ⟨net', set, _⟩ := Netlist.exists_setGate supplies.reachable.consistent found describes.isGate.2 canDrive
      fun output => absurd output (by rw [describes.isGate.1]; nofun)
    rcases Result.bind_eq_error.mp failed with failed | ⟨_, _, failed⟩
    · rw [set] at failed
      cases failed
    · cases failed

end Fill

/-! ## Adding outputs -/

section Outputs

variable {written : List String} (named : names.Numbers (ins ++ defs.map Definition.name))
  (h : Assembled ins defs names defs written design)
include named h

theorem Assembled.demand_addOutput {name : String} {design' : Design}
    (added : Bench.addOutput names design name = .ok design') : design'.net.demand ≤ design.net.demand + 1 := by
  obtain ⟨⟨d, net⟩, read, added⟩ := Result.bind_eq_ok.mp added
  obtain ⟨⟨g, net'⟩, built, added⟩ := Result.bind_eq_ok.mp added
  cases added
  obtain ⟨supplies, resolves⟩ := driver_resolves h.reachable read
  have below : ∀ x ∈ (Shape.nary .output [d]).inputs, x.driver.index < net.nextId := by
    intro x read
    rw [List.mem_singleton.mp read]
    exact (h.canDrive_of_resolves named supplies resolves).1
  have more : net'.demand ≤ net.demand + 1 := Netlist.demand_build built below
  have kept := demand_driver read
  show net'.demand ≤ design.net.demand + 1
  omega

theorem Assembled.blame_addOutput {name : String} {rest : List String} (split : outs = written ++ name :: rest)
    (bound : design.net.demand ≤ ins.length + defs.length + written.length + 2)
    (failed : Bench.addOutput names design name = .error f) : Blames ins outs defs f := by
  have before : written.length < outs.length := by simp [split]
  rcases Result.bind_eq_error.mp failed with failed | ⟨⟨d, net⟩, read, failed⟩
  · exact blame_driver named (by omega) (.inl (by simp [split])) failed
  rcases Result.bind_eq_error.mp failed with failed | ⟨_, _, failed⟩
  · obtain ⟨supplies, resolves⟩ := driver_resolves h.reachable read
    obtain ⟨rfl, full⟩ := @Netlist.of_build_eq_error net (.nary .output [d]) f rfl
      (by
        intro x read
        rw [List.mem_singleton.mp read]
        exact h.canDrive_of_resolves named supplies resolves) failed
    have used : net.nextId ≤ net.demand := Nat.le_trans (Nat.le_add_right ..) (Nat.le_add_right ..)
    have kept := demand_driver read
    exact .overflow (by omega)
  · cases failed

end Outputs

/-! ## The whole text -/

theorem Laid.demand_le (h : Laid ins defs names design) : design.net.demand ≤ ins.length + defs.length + 2 := by
  have next := h.next
  have one := design.net.lacks_le_one .one
  have zero := design.net.lacks_le_one .zero
  unfold Netlist.demand
  omega

/-- Wiring fails for a reason. -/
theorem blame_wire (failed : wire ins outs defs = .error f) : Blames ins outs defs f := by
  rcases Result.bind_eq_error.mp failed with failed | ⟨⟨names, start⟩, declared, failed⟩
  · exact blame_declare failed
  have laid := laid_declare declared
  have step : ∀ done d rest (design design' : Design), defs = done ++ d :: rest →
      Assembled ins defs names done [] design ∧ design.net.demand ≤ ins.length + defs.length + 2 →
      fill names design d = .ok design' →
      Assembled ins defs names (done ++ [d]) [] design' ∧ design'.net.demand ≤ ins.length + defs.length + 2 := by
    intro done d rest design design' split here filled
    exact ⟨here.1.fill laid.named split filled, Nat.le_trans (here.1.demand_fill split laid.named filled) here.2⟩
  rcases Result.bind_eq_error.mp failed with failed | ⟨filled, fills, failed⟩
  · obtain ⟨done, d, rest, design, split, ⟨assembled, bound⟩, failed⟩ := Result.exists_of_foldlM_eq_error
      (fun done (design : Design) => Assembled ins defs names done [] design ∧
        design.net.demand ≤ ins.length + defs.length + 2) failed ⟨laid.assembled, laid.demand_le⟩ step
    exact assembled.blame_fill split laid.named (by omega) failed
  obtain ⟨assembled, bound⟩ := Result.foldlM_done (fun done (design : Design) =>
    Assembled ins defs names done [] design ∧ design.net.demand ≤ ins.length + defs.length + 2) fills
    ⟨laid.assembled, laid.demand_le⟩ step
  rcases Result.bind_eq_error.mp failed with failed | ⟨_, _, failed⟩
  · obtain ⟨written, name, rest, design, split, ⟨assembled, bound⟩, failed⟩ := Result.exists_of_foldlM_eq_error
      (fun written (design : Design) => Assembled ins defs names defs written design ∧
        design.net.demand ≤ ins.length + defs.length + written.length + 2) failed ⟨assembled, bound⟩ (by
        intro written name rest design design' split here added
        refine ⟨here.1.addOutput added, ?_⟩
        have more := here.1.demand_addOutput laid.named added
        have bound := here.2
        rw [List.length_append, List.length_singleton]
        omega)
    exact assembled.blame_addOutput laid.named split bound failed
  · cases failed

section Assembled

variable (assembled : Assembled ins defs names defs outs design)
include assembled

theorem Assembled.resolves_of_used {name : String} (used : name ∈ outs ∨ ∃ d ∈ defs, name ∈ d.operands) :
    ∃ g, Resolves names design.net name g := by
  rcases used with output | ⟨d, mem, operand⟩
  · rw [← assembled.outputs] at output
    obtain ⟨x, listed, rfl⟩ := List.mem_map.mp output
    obtain ⟨_, g, resolves, _⟩ := assembled.output x listed
    exact ⟨g, resolves⟩
  · obtain ⟨j, at?⟩ := List.mem_iff_getElem?.mp mem
    obtain ⟨_, _, _, drivers, resolve, _⟩ := assembled.filled j d at?
    obtain ⟨g, _, resolves⟩ := exists_of_forall₂ resolve.flip operand
    exact ⟨g, resolves⟩

/-- Every kind is in the table, and the table is not too long. -/
theorem Assembled.kinds_le : (cellKinds defs).eraseDups.length ≤ SymbolTable.capacity := by
  have within : (cellKinds defs).eraseDups.Subperm design.symbols.names := by
    apply (nodup_eraseDups _).subperm
    intro kind mem
    obtain ⟨d, cell, rfl⟩ := List.mem_map.mp (List.mem_eraseDups.mp mem)
    obtain ⟨isDefinition, unnamed⟩ := List.mem_filter.mp cell
    obtain ⟨j, at?⟩ := List.mem_iff_getElem?.mp isDefinition
    obtain ⟨_, _, _, _, _, spells⟩ := assembled.filled j d at?
    obtain ⟨n, known, _⟩ := (spells_cell (Option.isNone_iff_eq_none.mp unnamed)).mp spells
    exact List.mem_of_getElem? known
  exact Nat.le_trans within.length_le assembled.symbols.room

end Assembled

section Wired

variable (wired : wire ins outs defs = .ok (names, design))
include wired

/-- One gate that reads itself needs nothing beside it. -/
theorem few_of_selfFed (selfFed : SelfFed ins outs defs) : design.net.top.size ≤ 1 := by
  obtain ⟨rfl, rfl, d, rfl, plain, _, self⟩ := selfFed
  have assembled := (assembled_of_wire wired).2
  obtain ⟨_, _, arity, _⟩ := assembled.filled 0 d rfl
  have wellFormed : WellFormed [] [] [d] := by
    refine ⟨List.nodup_singleton _, ?_, nofun, ?_, cellKinds [d], ?_, fun _ mem => mem⟩
    · intro e mem name operand
      rw [List.mem_singleton.mp mem] at operand
      simp [self name operand]
    · intro e mem
      rw [List.mem_singleton.mp mem]
      exact arity
    · have single : (cellKinds [d]).length ≤ [d].length := by
        rw [cellKinds, List.length_map]
        exact List.length_filter_le ..
      exact Nat.le_trans single (show 1 ≤ SymbolTable.capacity by decide)
  have clockless : [d].filter Definition.isFlipFlop = [] := by simp [plain]
  obtain ⟨names', design', again, next⟩ := exists_wire wellFormed (by
    rw [clockless]
    show 1 ≤ GateId.largest
    decide)
  rw [wired] at again
  cases again
  rw [clockless] at next
  exact Nat.le_trans assembled.reachable.consistent.size_le_next next

theorem blame_sort (failed : design.net.sort = .error f) : Blames ins outs defs f := by
  obtain ⟨named, assembled⟩ := assembled_of_wire wired
  obtain ⟨rfl, cyclic, more⟩ := Netlist.of_sort_eq_error assembled.reachable.consistent assembled.flat failed
  refine .loop (assembled.looped_of_not_acyclic named cyclic) ?_
  intro selfFed
  exact absurd (few_of_selfFed wired selfFed) (Nat.not_le.mpr more)

/-- What is read has a loop only if that is all it has. -/
theorem loops_of_sort {net : Netlist} (sorted : design.net.sort = .ok net) :
    (Looped defs → SelfFed ins outs defs) ∧ (net.HasCombLoop ↔ SelfFed ins outs defs) := by
  obtain ⟨named, assembled⟩ := assembled_of_wire wired
  have consistent := assembled.reachable.consistent
  obtain ⟨same, _, _, loopless⟩ := Netlist.sort_spec consistent assembled.disturbed sorted
  have size : net.top.size = design.net.top.size := by
    rcases Netlist.sort_cases sorted with ⟨_, rfl⟩ | ⟨_, order, orders, finds, rfl⟩
    · rfl
    · exact (finds.takes consistent).perm.length_eq
  have alone : Looped defs → SelfFed ins outs defs := by
    intro looped
    apply assembled.selfFed_of_few named ?_ looped
    rw [← size]
    refine loopless.resolve_right ?_
    intro acyclic
    have loop := assembled.hasCombLoop_of_looped named looped
    apply assembled.not_acyclic_of_hasCombLoop named loop
    exact consistent.acyclic_of_gate? (consistent.sort sorted) same acyclic
  refine ⟨alone, ?_⟩
  rw [Netlist.hasCombLoop_congr same]
  constructor
  · intro loop
    exact alone (assembled.looped_of_not_acyclic named (assembled.not_acyclic_of_hasCombLoop named loop))
  · intro selfFed
    exact assembled.hasCombLoop_of_looped named selfFed.looped

/-- A text that was wired, and that has no loop beside other gates, can be blamed for its length only. -/
theorem blames_of_wired (alone : Looped defs → SelfFed ins outs defs) (blames : Blames ins outs defs f) :
    f = .breach .overflow := by
  obtain ⟨named, assembled⟩ := assembled_of_wire wired
  cases blames with
  | @definedTwice name twice =>
    have once := List.nodup_iff_count_le_one.mp named.nodup name
    omega
  | @undefinedName name used undeclared noConstant =>
    obtain ⟨g, own | ⟨_, ⟨isOne, _⟩ | ⟨isZero, _⟩⟩⟩ := assembled.resolves_of_used used
    · exact absurd (List.mem_of_getElem? ((named name g).mp own)) undeclared
    · exact absurd isOne noConstant.1
    · exact absurd isZero noConstant.2
  | @arity d mem wrong =>
    obtain ⟨j, at?⟩ := List.mem_iff_getElem?.mp mem
    obtain ⟨_, _, arity, _⟩ := assembled.filled j d at?
    rw [arity] at wrong
    cases wrong
  | tooManySymbols many => exact absurd assembled.kinds_le (Nat.not_le.mpr many)
  | overflow many => rfl
  | loop looped more => exact absurd (alone looped) more

end Wired

end Stages

/-! ## The law -/

/-- A line that cannot be read is refused. -/
theorem refusal_of_statements {bytes : ByteArray} {f : Fault} (failed : statements bytes = .error f) :
    ∃ r, f = .refusal r := by
  rcases Result.bind_eq_error.mp failed with failed | ⟨_, _, failed⟩
  · obtain ⟨line, _, failed⟩ := Result.exists_of_mapM_eq_error failed
    unfold statementOfBytes at failed
    split at failed
    · cases failed
      exact ⟨_, rfl⟩
    · split at failed
      · cases failed
      · cases failed
        exact ⟨_, rfl⟩
  · cases failed

/-- A text declares these inputs and outputs and has these definitions, in order. -/
def Says (bytes : ByteArray) (ins outs : List String) (defs : List Definition) : Prop :=
  ∃ lines, statements bytes = .ok lines ∧ lines.filterMap Statement.input? = ins ∧
    lines.filterMap Statement.output? = outs ∧ lines.filterMap Statement.gate? = defs

/-- EVERY TEXT IS ANSWERED. It has a line that is refused, or the fault that stops it has its reason in the text, or
there is no reason and it is read, though its length might have been one. What is read has no combinational loop, unless
it is one gate that reads nothing but itself. -/
theorem read_answers (bytes : ByteArray) :
    (∃ r, statements bytes = .error (.refusal r) ∧ read bytes = .error (.refusal r)) ∨
      ∃ ins outs defs, Says bytes ins outs defs ∧
        ((∃ f, read bytes = .error f ∧ Blames ins outs defs f) ∨
          ∃ design, read bytes = .ok design ∧ (∀ f, Blames ins outs defs f → f = .breach .overflow) ∧
            (design.net.HasCombLoop ↔ SelfFed ins outs defs)) := by
  cases spoken : statements bytes with
  | error f =>
    obtain ⟨r, rfl⟩ := refusal_of_statements spoken
    exact .inl ⟨r, rfl, by rw [read, spoken]; rfl⟩
  | ok lines =>
    refine .inr ⟨_, _, _, ⟨lines, spoken, rfl, rfl, rfl⟩, ?_⟩
    rw [read, spoken, Result.ok_bind, assemble_eq]
    cases wired : wire (lines.filterMap Statement.input?) (lines.filterMap Statement.output?)
        (lines.filterMap Statement.gate?) with
    | error f => exact .inl ⟨f, rfl, blame_wire wired⟩
    | ok state =>
      obtain ⟨names, design⟩ := state
      rw [Result.ok_bind]
      cases sorted : design.net.sort with
      | error f => exact .inl ⟨f, rfl, blame_sort wired sorted⟩
      | ok net =>
        obtain ⟨alone, loop⟩ := loops_of_sort wired sorted
        exact .inr ⟨{ design with net }, rfl, fun f blames => blames_of_wired wired alone blames, loop⟩

/-- Two gates that read each other are a breach, and one that reads itself is read. Neither is refused. -/
theorem loops_not_refused : read "x = NOT(y)\ny = NOT(x)\n".toUTF8 = .error (.breach .loop) ∧
    ∃ design, read "x = NOT(x)\n".toUTF8 = .ok design ∧ design.net.HasCombLoop := by
  constructor
  · have stopped : Except.casesOn (motive := fun _ => Bool) (read "x = NOT(y)\ny = NOT(x)\n".toUTF8)
        (fun f => decide (f = .breach .loop)) (fun _ => false) = true := by decide +kernel
    cases answer : read "x = NOT(y)\ny = NOT(x)\n".toUTF8 with
    | ok design =>
      rw [answer] at stopped
      cases stopped
    | error f =>
      rw [answer] at stopped
      rw [of_decide_eq_true stopped]
  · obtain ⟨design, made, shape⟩ : ∃ design, read "x = NOT(x)\n".toUTF8 = .ok design ∧
        (design.net.shape? ⟨0⟩ == some (.nary .not [⟨0⟩])) = true := Result.exists_ok_of_any (by decide +kernel)
    obtain ⟨g, found, eq⟩ := Netlist.shape?_eq_some.mp (eq_of_beq shape)
    have comb : design.net.IsComb ⟨0⟩ := ⟨g, found, by rw [eq]; nofun⟩
    have reads : Drives design.net.gate? ⟨0⟩ ⟨0⟩ := by
      refine ⟨g, found, .plain ⟨0⟩, ?_, rfl⟩
      rw [eq]
      exact List.mem_singleton_self _
    exact ⟨design, made, ⟨0⟩, .single ⟨comb, comb, reads⟩⟩

end Bench

end LogicNet
