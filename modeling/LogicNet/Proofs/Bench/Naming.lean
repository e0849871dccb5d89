import LogicNet.Bench.Reader
import LogicNet.Proofs.Netlist.Success

/-!
# Names of a text

A text gives names to gates before it says what they are: first to the inputs, then to the definitions, in order.
So the number of a gate is the place of its name among all that are declared (`Laid`), and a name has one gate only.

A name that is not declared may still stand for a constant. What this adds to a netlist are constants and nothing
else (`Netlist.Supplies`), so gates that have their functions already keep them.
-/

namespace LogicNet

open Std

/-! ## Constants on demand -/

namespace Netlist

/-- Nothing is added but constants. -/
structure Supplies (net net' : Netlist) : Prop where
  reachable : net'.Reachable
  kept : ∀ {g : GateId} {s : Shape}, net.shape? g = some s → net'.shape? g = some s
  new : ∀ {g : GateId} {s : Shape}, net'.shape? g = some s →
    net.shape? g = some s ∨ net.nextId ≤ g.index ∧ s.isConstant = true
  next : net.nextId ≤ net'.nextId
  flat : net.parts = [] → net'.parts = []
  disturbed : net.Disturbed → net'.Disturbed

theorem Supplies.refl {net : Netlist} (h : net.Reachable) : net.Supplies net :=
  ⟨h, id, .inl, Nat.le_refl _, id, id⟩

theorem Supplies.trans {a b c : Netlist} (ab : a.Supplies b) (bc : b.Supplies c) : a.Supplies c where
  reachable := bc.reachable
  kept found := bc.kept (ab.kept found)
  new found := by
    rcases bc.new found with before | ⟨above, constant⟩
    · exact ab.new before
    · exact .inr ⟨Nat.le_trans ab.next above, constant⟩
  next := Nat.le_trans ab.next bc.next
  flat none := bc.flat (ab.flat none)
  disturbed h := bc.disturbed (ab.disturbed h)

section Constants

variable {net : Netlist} {fn : GateFn} (constant : fn.isConstant = true)
include constant

/-- A constant is found under its shape or built. -/
theorem addGate_constant : net.addGate ⟨fn, []⟩ = net.findOrBuild ⟨fn, []⟩ := by
  have shareable : (⟨fn, []⟩ : Shape).isShareable = true := by cases fn <;> first | rfl | cases constant
  have single : net.complement? ⟨fn, []⟩ = none := by cases fn <;> first | rfl | cases constant
  unfold addGate findOrBuild
  rw [if_pos shareable, single]
  cases net.shared[(⟨fn, []⟩ : Shape)]? with
  | some id => rfl
  | none => rfl

theorem supplies_addGate (h : net.Reachable) {id : GateId} {net' : Netlist}
    (added : net.addGate ⟨fn, []⟩ = .ok (id, net')) :
    net.Supplies net' ∧ net'.shape? id = some ⟨fn, []⟩ ∧ net'.nextId ≤ net.nextId + 1 := by
  have reachable : net'.Reachable := .addGate _ h added
  rw [addGate_constant constant] at added
  unfold findOrBuild at added
  split at added
  · next known =>
    cases added
    exact ⟨.refl h, (h.consistent.shared _ _ known).2, Nat.le_succ _⟩
  · obtain ⟨above, reshapes⟩ := reshapes_build added
    have next := (next_build added nofun).2
    refine ⟨⟨reachable, ?_, ?_, reshapes.more, reshapes.flat, fun _ => reshapes.disturbed⟩, reshapes.self,
      Nat.le_of_eq next⟩
    · intro g s found
      have below : g.index < net.nextId := h.consistent.lt_next found
      have other : g ≠ id := by
        rintro rfl
        omega
      rw [reshapes.other other]
      exact found
    · intro g s found
      rcases reshapes.before found with ⟨rfl, rfl⟩ | ⟨_, before⟩
      · exact .inr ⟨above, constant⟩
      · exact .inl before

theorem exists_addGate_constant (room : net.nextId < GateId.largest) :
    ∃ id net', net.addGate ⟨fn, []⟩ = .ok (id, net') := by
  rw [addGate_constant constant]
  unfold findOrBuild
  split
  · next id _ => exact ⟨id, net, rfl⟩
  · have arity : (⟨fn, []⟩ : Shape).hasArity = true := by cases fn <;> first | rfl | cases constant
    obtain ⟨net', built, _⟩ := exists_build arity nofun room
    exact ⟨_, net', built⟩

end Constants

end Netlist

/-! ## Declared names -/

namespace Bench

/-- The declared names, and no others, have gates, each the one that is numbered by its place. -/
abbrev Names.Numbers (names : Names) (declared : List String) : Prop :=
  ∀ (name : String) (g : GateId), names[name]? = some g ↔ declared[g.index]? = some name

/-- Every declared name has a gate, which is numbered by its place, and a shape for a start. -/
structure Laying (rows : List (String × Shape)) (names : Names) (net : Netlist) : Prop where
  reachable : net.Reachable
  flat : net.parts = []
  disturbed : net.Disturbed
  next : net.nextId = rows.length
  named : names.Numbers (rows.map Prod.fst)
  shapes : ∀ g : GateId, net.shape? g = (rows.map Prod.snd)[g.index]?

theorem laying_nothing : Laying [] {} {} where
  reachable := .empty
  flat := rfl
  disturbed := nofun
  next := rfl
  named name g := by simp
  shapes g := by simp [Netlist.shape?, Netlist.gate?]

theorem Names.define_eq_ok {names names' : Names} {name : String} {g : GateId} :
    names.define name g = .ok names' ↔ name ∉ names ∧ names' = names.insert name g := by
  unfold Names.define
  split
  · next known => exact ⟨nofun, fun h => absurd (TreeMap.mem_iff_contains.mpr known) h.1⟩
  · next new =>
    constructor
    · intro made
      exact ⟨fun known => new (TreeMap.mem_iff_contains.mp known), (Except.ok.inj made).symm⟩
    · rintro ⟨_, rfl⟩
      rfl

theorem Laying.mem_iff {rows : List (String × Shape)} {names : Names} {net : Netlist} (h : Laying rows names net)
    {name : String} : name ∈ names ↔ name ∈ rows.map Prod.fst := by
  rw [TreeMap.mem_iff_isSome_getElem?, Option.isSome_iff_exists, List.mem_iff_getElem?]
  constructor
  · rintro ⟨g, found⟩
    exact ⟨g.index, (h.named name g).mp found⟩
  · rintro ⟨i, found⟩
    exact ⟨⟨i⟩, (h.named name ⟨i⟩).mpr found⟩

/-- An entry of a list with one more at its end. -/
theorem getElem?_snoc {α : Type} {xs : List α} {x y : α} {i : Nat} :
    (xs ++ [x])[i]? = some y ↔ xs[i]? = some y ∨ i = xs.length ∧ y = x := by
  rw [List.getElem?_append]
  split
  · next inside => exact ⟨.inl, fun h => h.resolve_right fun last => absurd inside (by omega)⟩
  · next outside =>
    rw [List.getElem?_eq_none (Nat.le_of_not_lt outside), List.getElem?_singleton]
    split <;> grind

section Rows

variable {rows : List (String × Shape)} {names : Names} {net : Netlist} (h : Laying rows names net) {name : String}
  {s : Shape} (free : s.inputs = [])
include h free

/-- One more name, with a gate of its own. -/
theorem Laying.add {net' : Netlist} {g : GateId} {names' : Names} (built : net.build s = .ok (g, net'))
    (reachable : net'.Reachable) (defined : names.define name g = .ok names') :
    g = ⟨rows.length⟩ ∧ Laying (rows ++ [(name, s)]) names' net' := by
  obtain ⟨new, rfl⟩ := Names.define_eq_ok.mp defined
  obtain ⟨rfl, next⟩ := Netlist.next_build built (by rw [free]; nofun)
  obtain ⟨_, reshapes⟩ := Netlist.reshapes_build built
  rw [h.next] at *
  refine ⟨rfl, reachable, reshapes.flat h.flat, reshapes.disturbed, by simp [next], ?_, ?_⟩
  · intro other x
    rw [TreeMap.getElem?_insert, List.map_append, List.map_singleton, getElem?_snoc, List.length_map, ← h.named]
    by_cases same : name = other
    · subst same
      rw [if_pos ReflCmp.compare_self, TreeMap.getElem?_eq_none new]
      constructor
      · intro eq
        cases eq
        exact .inr ⟨rfl, rfl⟩
      · rintro (none | ⟨last, _⟩)
        · cases none
        · exact congrArg (fun i => some (GateId.mk i)) last.symm
    · rw [if_neg (mt LawfulEqOrd.eq_of_compare same)]
      exact ⟨.inl, fun h => h.resolve_right fun last => same last.2.symm⟩
  · intro x
    apply Option.ext
    intro t
    rw [List.map_append, List.map_singleton, getElem?_snoc, List.length_map, ← h.shapes]
    constructor
    · intro now
      rcases reshapes.before now with ⟨rfl, rfl⟩ | ⟨_, before⟩
      · exact .inr ⟨rfl, rfl⟩
      · exact .inl before
    · rintro (before | ⟨last, rfl⟩)
      · have below : x.index < rows.length := h.next ▸ h.reachable.consistent.lt_next before
        rw [reshapes.other (by rintro rfl; exact absurd below (Nat.lt_irrefl _))]
        exact before
      · rw [show x = ⟨rows.length⟩ from congrArg GateId.mk last]
        exact reshapes.self

theorem Laying.exists_add (new : name ∉ rows.map Prod.fst) (arity : s.hasArity = true)
    (room : rows.length < GateId.largest) :
    ∃ net' names', net.build s = .ok (⟨rows.length⟩, net') ∧ names.define name ⟨rows.length⟩ = .ok names' := by
  rw [← h.next] at *
  obtain ⟨net', built, _⟩ := Netlist.exists_build arity (by rw [free]; nofun) room
  exact ⟨net', _, built, Names.define_eq_ok.mpr ⟨mt h.mem_iff.mp new, rfl⟩⟩

end Rows

/-! ## The two loops -/

/-- The row of an input. -/
def inputRow (name : String) : String × Shape := (name, ⟨.input, []⟩)

/-- The row of a definition that has yet to be filled in. -/
def placeholderRow (d : Definition) : String × Shape := (d.name, ⟨.buffer, []⟩)

/-- Names in order, with the gates of their places. -/
def places (names : List String) : NamedGates := names.mapIdx fun i name => (name, ⟨i⟩)

theorem places_snoc (names : List String) (name : String) :
    places (names ++ [name]) = places names ++ [(name, ⟨names.length⟩)] := by
  simp [places, List.mapIdx_append]

theorem fst_places (names : List String) : (places names).map Prod.fst = names := by
  apply List.ext_getElem <;> simp [places]

theorem snd_places (names : List String) : (places names).map Prod.snd = (List.range names.length).map GateId.mk := by
  apply List.ext_getElem <;> simp [places]

theorem mem_places {names : List String} {x : String × GateId} :
    x ∈ places names ↔ names[x.2.index]? = some x.1 := by
  unfold places
  rw [List.mem_mapIdx]
  constructor
  · rintro ⟨i, lt, rfl⟩
    exact List.getElem?_eq_getElem lt
  · intro here
    obtain ⟨lt, eq⟩ := List.getElem?_eq_some_iff.mp here
    exact ⟨x.2.index, lt, Prod.ext eq rfl⟩

/-- The inputs and definitions that have been declared have their names, and a design has its inputs. -/
structure Laid (ins : List String) (defs : List Definition) (names : Names) (design : Design) : Prop where
  laying : Laying (ins.map inputRow ++ defs.map placeholderRow) names design.net
  fresh : design = { net := design.net, inputs := places ins }

theorem laid_nothing : Laid [] [] {} {} := ⟨laying_nothing, rfl⟩

section Loops

variable {ins : List String} {defs : List Definition} {names : Names} {design : Design}

theorem Laid.addInput (h : Laid ins [] names design) {name : String} {state : Names × Design}
    (added : addInput (names, design) name = .ok state) : Laid (ins ++ [name]) [] state.1 state.2 := by
  obtain ⟨⟨g, net⟩, built, added⟩ := Result.bind_eq_ok.mp added
  obtain ⟨names', defined, added⟩ := Result.bind_eq_ok.mp added
  cases added
  have laying := h.laying
  rw [List.map_nil, List.append_nil] at laying
  obtain ⟨rfl, laying⟩ := laying.add rfl built (.addGate _ laying.reachable built) defined
  refine ⟨by simpa [inputRow] using laying, ?_⟩
  rw [h.fresh, List.length_map, places_snoc]

theorem Laid.addPlaceholder (h : Laid ins defs names design) {d : Definition} {state : Names × Design}
    (added : addPlaceholder (names, design) d = .ok state) : Laid ins (defs ++ [d]) state.1 state.2 := by
  obtain ⟨⟨g, net⟩, built, added⟩ := Result.bind_eq_ok.mp added
  obtain ⟨names', defined, added⟩ := Result.bind_eq_ok.mp added
  cases added
  obtain ⟨rfl, laying⟩ := h.laying.add rfl built (.addPlaceholder h.laying.reachable built) defined
  refine ⟨by simpa [placeholderRow, ← List.append_assoc] using laying, ?_⟩
  rw [h.fresh]

theorem fst_rows : (ins.map inputRow ++ defs.map placeholderRow).map Prod.fst = ins ++ defs.map Definition.name := by
  simp [inputRow, placeholderRow, Function.comp_def]

theorem snd_rows : (ins.map inputRow ++ defs.map placeholderRow).map Prod.snd =
    List.replicate ins.length ⟨.input, []⟩ ++ List.replicate defs.length ⟨.buffer, []⟩ := by
  rw [List.map_append, List.map_map, List.map_map]
  exact congrArg₂ _ (List.map_const' ..) (List.map_const' ..)

/-- The gate of a declared name is numbered by its place. -/
theorem Laid.named (h : Laid ins defs names design) : names.Numbers (ins ++ defs.map Definition.name) := by
  rw [← fst_rows]
  exact h.laying.named

theorem Laid.exists_addInput (h : Laid ins [] names design) {name : String} (new : name ∉ ins)
    (room : ins.length < GateId.largest) : ∃ state, Bench.addInput (names, design) name = .ok state := by
  have undeclared : name ∉ (ins.map inputRow ++ [].map placeholderRow).map Prod.fst := by
    rw [fst_rows, List.map_nil, List.append_nil]
    exact new
  obtain ⟨net, names', built, defined⟩ := h.laying.exists_add (s := ⟨.input, []⟩) rfl undeclared rfl
    (by simpa using room)
  have added : design.net.addInput = .ok (⟨_⟩, net) := built
  exact ⟨_, Result.bind_eq_ok.mpr ⟨_, added, Result.bind_eq_ok.mpr ⟨_, defined, rfl⟩⟩⟩

theorem Laid.exists_addPlaceholder (h : Laid ins defs names design) {d : Definition}
    (new : d.name ∉ ins ++ defs.map Definition.name) (room : ins.length + defs.length < GateId.largest) :
    ∃ state, Bench.addPlaceholder (names, design) d = .ok state := by
  obtain ⟨net, names', built, defined⟩ := h.laying.exists_add (s := ⟨.buffer, []⟩) rfl
    (fst_rows ▸ new) rfl (by simpa using room)
  have added : design.net.addPlaceholder = .ok (⟨_⟩, net) := built
  exact ⟨_, Result.bind_eq_ok.mpr ⟨_, added, Result.bind_eq_ok.mpr ⟨_, defined, rfl⟩⟩⟩

theorem Laid.next (h : Laid ins defs names design) : design.net.nextId = ins.length + defs.length := by
  simpa using h.laying.next

theorem Laid.input (h : Laid ins defs names design) {i : Nat} (lt : i < ins.length) :
    design.net.shape? ⟨i⟩ = some ⟨.input, []⟩ := by
  rw [h.laying.shapes, snd_rows, List.getElem?_append_left (by simpa using lt), List.getElem?_replicate, if_pos lt]

theorem Laid.placeholder (h : Laid ins defs names design) {j : Nat} (lt : j < defs.length) :
    design.net.shape? ⟨ins.length + j⟩ = some ⟨.buffer, []⟩ := by
  rw [h.laying.shapes, snd_rows, List.getElem?_append_right (by simp), List.getElem?_replicate]
  simp [lt]

/-- The first two loops of `assemble`. -/
def declare (ins : List String) (defs : List Definition) : Result (Names × Design) := do
  let state ← ins.foldlM Bench.addInput ({}, {})
  defs.foldlM Bench.addPlaceholder state

theorem laid_declare {state : Names × Design} (declared : declare ins defs = .ok state) :
    Laid ins defs state.1 state.2 := by
  obtain ⟨first, inputs, rest⟩ := Result.bind_eq_ok.mp declared
  have laid : Laid ins [] first.1 first.2 :=
    Result.foldlM_done (fun done state => Laid done [] state.1 state.2) inputs laid_nothing
      fun _ _ _ _ _ _ h step => h.addInput step
  exact Result.foldlM_done (fun done state => Laid ins done state.1 state.2) rest laid
    fun _ _ _ _ _ _ h step => h.addPlaceholder step

/-- Distinct names can be declared, as long as there are numbers for them. -/
theorem exists_declare (distinct : (ins ++ defs.map Definition.name).Nodup)
    (room : ins.length + defs.length ≤ GateId.largest) : ∃ state, declare ins defs = .ok state := by
  obtain ⟨first, inputs, laid⟩ : ∃ first, ins.foldlM Bench.addInput ({}, {}) = .ok first ∧
      Laid ins [] first.1 first.2 := by
    apply Result.exists_foldlM_done (fun done (state : Names × Design) => Laid done [] state.1 state.2) laid_nothing
    intro done name rest state split h
    have new : name ∉ done := by
      subst split
      grind
    have below : done.length < GateId.largest := by
      subst split
      grind
    obtain ⟨state', added⟩ := h.exists_addInput new below
    exact ⟨state', added, h.addInput added⟩
  obtain ⟨state, placed, _⟩ : ∃ state, defs.foldlM Bench.addPlaceholder first = .ok state ∧
      Laid ins defs state.1 state.2 := by
    apply Result.exists_foldlM_done (fun done (state : Names × Design) => Laid ins done state.1 state.2) laid
    intro done d rest state split h
    have new : d.name ∉ ins ++ done.map Definition.name := by
      subst split
      grind
    have below : ins.length + done.length < GateId.largest := by
      subst split
      grind
    obtain ⟨state', added⟩ := h.exists_addPlaceholder new below
    exact ⟨state', added, h.addPlaceholder added⟩
  exact ⟨state, Result.bind_eq_ok.mpr ⟨first, inputs, placed⟩⟩

end Loops

end Bench

end LogicNet
