import LogicNet.Design.Binding
import LogicNet.Proofs.Bench.Ports
import LogicNet.Proofs.Equivalence.Binding

/-!
# Binding by name

The names on the right make a table, in which the last gate of a name counts. A left gate is bound to the gate that
the table has under its own name.

**The law** (`bijects_bindNamed`): given as many gates on both sides, the binding is one-to-one and leaves out no right
gate if, and only if, no two left gates have one name. A refusal is never wrong: lists that hold the same names, each
equally often, are always bound (`exists_bindNamed`).

**What it does not establish.** A text may ask for an output twice, and then two left outputs are bound to one right
output, while another right output is bound to nothing.
-/

namespace LogicNet

open Std

namespace Design

/-! ## One list of names -/

/-- The last gate of each name. -/
def lastNamed (named : NamedGates) : TreeMap String GateId := named.foldl (fun t x => t.insert x.1 x.2) {}

theorem mem_of_lastNamed {named : NamedGates} {name : String} {g : GateId}
    (found : (lastNamed named)[name]? = some g) : (name, g) ∈ named := by
  rcases row_of_getElem?_foldl_insert found with ⟨x, mem, rfl, rfl⟩ | ⟨_, none⟩
  · exact mem
  · simp at none

theorem isSome_lastNamed {named : NamedGates} {name : String} :
    (lastNamed named)[name]?.isSome = true ↔ name ∈ named.map Prod.fst := by
  rw [← TreeMap.mem_iff_isSome_getElem?, lastNamed, mem_foldl_insert, List.mem_map]
  exact or_iff_left TreeMap.not_mem_emptyc

/-- Each left gate, with the last right gate that has its name. -/
def namedPairs (left right : NamedGates) : List (GateId × GateId) :=
  left.filterMap fun x => (lastNamed right)[x.1]?.map fun r => (x.2, r)

theorem mem_namedPairs {left right : NamedGates} {p : GateId × GateId} :
    p ∈ namedPairs left right ↔ ∃ name, (name, p.1) ∈ left ∧ (lastNamed right)[name]? = some p.2 := by
  unfold namedPairs
  rw [List.mem_filterMap]
  constructor
  · rintro ⟨x, mem, bound⟩
    obtain ⟨r, found, rfl⟩ := Option.map_eq_some_iff.mp bound
    exact ⟨x.1, mem, found⟩
  · rintro ⟨name, mem, found⟩
    exact ⟨(name, p.1), mem, Option.map_eq_some_iff.mpr ⟨p.2, found, rfl⟩⟩

/-- The loop binds the ports of all pairs, or stops at the first name that the right side does not have. -/
theorem bindNamed_loop (kind : NamedKind) (right left : NamedGates) (b : Binding) :
    left.foldlM (fun (b : Binding) (x : String × GateId) =>
        match (lastNamed right)[x.1]? with
        | some r => .ok (b.insert (.port x.2) (.port r))
        | none => .error (.noCounterpart kind x.1)) b =
      match left.find? fun x => (lastNamed right)[x.1]?.isNone with
      | some x => Except.error (Mismatch.noCounterpart kind x.1)
      | none => .ok (bindPorts b (namedPairs left right)) := by
  induction left generalizing b with
  | nil => rfl
  | cons x left ih =>
    rw [List.foldlM_cons, List.find?_cons, namedPairs, List.filterMap_cons]
    cases found : (lastNamed right)[x.1]? with
    | none => rfl
    | some r => exact ih _

theorem bindNamed_eq (kind : NamedKind) (left right : NamedGates) :
    bindNamed kind left right = if left.length ≠ right.length then .error (.counts kind left.length right.length)
      else match left.find? fun x => (lastNamed right)[x.1]?.isNone with
        | some x => .error (.noCounterpart kind x.1)
        | none => .ok (bindPorts {} (namedPairs left right)) := by
  rw [← bindNamed_loop]
  rfl

/-- Gates are bound if there are as many on the right, and all names of the left. -/
theorem bindNamed_eq_ok {kind : NamedKind} {left right : NamedGates} {b : Binding} :
    bindNamed kind left right = .ok b ↔ left.length = right.length ∧
      (∀ name ∈ left.map Prod.fst, name ∈ right.map Prod.fst) ∧ b = bindPorts {} (namedPairs left right) := by
  have all : (left.find? fun x => (lastNamed right)[x.1]?.isNone) = none ↔
      ∀ name ∈ left.map Prod.fst, name ∈ right.map Prod.fst := by
    rw [List.find?_eq_none, List.forall_mem_map]
    apply forall₂_congr
    intro x _
    rw [← isSome_lastNamed, Option.isNone_iff_eq_none, Option.isSome_iff_ne_none]
  rw [bindNamed_eq, ← all]
  split
  · next other => exact ⟨nofun, fun h => absurd h.1 other⟩
  · next same =>
    rw [not_not] at same
    split
    · next missing => exact ⟨nofun, fun h => absurd (missing.symm.trans h.2.1) nofun⟩
    · next none => exact ⟨fun h => ⟨same, none, (Except.ok.inj h).symm⟩, fun h => congrArg Except.ok h.2.2.symm⟩

/-- The same names, each equally often, can be bound. -/
theorem exists_bindNamed (kind : NamedKind) {left right : NamedGates}
    (same : (left.map Prod.fst).Perm (right.map Prod.fst)) : ∃ b, bindNamed kind left right = .ok b := by
  have lengths := same.length_eq
  rw [List.length_map, List.length_map] at lengths
  exact ⟨_, bindNamed_eq_ok.mpr ⟨lengths, fun _ mem => same.subset mem, rfl⟩⟩

/-! ## What is bound -/

/-- The ports of a list of gates. -/
def ListedPort (named : NamedGates) (l : Link) : Prop := ∃ x ∈ named, l = .port x.2

/-- What is bound are ports of one name. -/
def KeepsNames (b : Binding) (left right : NamedGates) : Prop :=
  ∀ l r : Link, b[l]? = some r → ∃ name x y, (name, x) ∈ left ∧ (name, y) ∈ right ∧ l = .port x ∧ r = .port y

section Bound

variable {kind : NamedKind} {left right : NamedGates} {b : Binding} (bound : bindNamed kind left right = .ok b)
  (distinct : (left.map Prod.snd).Nodup)
include bound distinct

/-- A left port is bound to that of the last right gate that has its name. -/
theorem getElem?_bindNamed {l r : Link} : b[l]? = some r ↔
    ∃ name x y, (name, x) ∈ left ∧ (lastNamed right)[name]? = some y ∧ l = .port x ∧ r = .port y := by
  obtain ⟨_, _, rfl⟩ := bindNamed_eq_ok.mp bound
  have functional : ∀ p ∈ namedPairs left right, ∀ q ∈ namedPairs left right, p.1 = q.1 → p.2 = q.2 := by
    intro p memP q memQ same
    obtain ⟨name, listed, found⟩ := mem_namedPairs.mp memP
    obtain ⟨name', listed', found'⟩ := mem_namedPairs.mp memQ
    have names : name = name' := congrArg Prod.fst (List.inj_on_of_nodup_map distinct listed listed' same)
    rw [names] at found
    exact Option.some.inj (found.symm.trans found')
  rw [getElem?_bindPorts functional]
  constructor
  · rintro (⟨p, mem, rfl, rfl⟩ | ⟨_, none⟩)
    · obtain ⟨name, listed, found⟩ := mem_namedPairs.mp mem
      exact ⟨name, p.1, p.2, listed, found, rfl, rfl⟩
    · simp at none
  · rintro ⟨name, x, y, listed, found, rfl, rfl⟩
    exact .inl ⟨(x, y), mem_namedPairs.mpr ⟨name, listed, found⟩, rfl, rfl⟩

theorem keepsNames_bindNamed : KeepsNames b left right := by
  intro l r found
  obtain ⟨name, x, y, listed, named, isKey, isValue⟩ := (getElem?_bindNamed bound distinct).mp found
  exact ⟨name, x, y, listed, mem_of_lastNamed named, isKey, isValue⟩

omit distinct in
/-- Every name of the left is on the right, so it has a last gate there. -/
theorem exists_lastNamed {x : String × GateId} (mem : x ∈ left) : ∃ y, (lastNamed right)[x.1]? = some y := by
  obtain ⟨_, within, _⟩ := bindNamed_eq_ok.mp bound
  exact Option.isSome_iff_exists.mp (isSome_lastNamed.mpr (within x.1 (List.mem_map_of_mem mem)))

theorem key_bindNamed (l : Link) : l ∈ b ↔ ListedPort left l := by
  constructor
  · intro key
    obtain ⟨r, found⟩ := exists_value key
    obtain ⟨name, x, y, listed, _, isKey, _⟩ := (getElem?_bindNamed bound distinct).mp found
    exact ⟨(name, x), listed, isKey⟩
  · rintro ⟨x, mem, rfl⟩
    obtain ⟨y, named⟩ := exists_lastNamed bound mem
    exact mem_of_getElem? ((getElem?_bindNamed bound distinct).mpr ⟨x.1, x.2, y, mem, named, rfl, rfl⟩)

theorem value_bindNamed {l r : Link} (found : b[l]? = some r) : ListedPort right r := by
  obtain ⟨name, _, y, _, listed, _, isValue⟩ := keepsNames_bindNamed bound distinct l r found
  exact ⟨(name, y), listed, isValue⟩

omit distinct in
/-- If the names of the left differ, then those of the right are the same ones. -/
theorem perm_of_nodup (names : (left.map Prod.fst).Nodup) : (left.map Prod.fst).Perm (right.map Prod.fst) := by
  obtain ⟨lengths, within, _⟩ := bindNamed_eq_ok.mp bound
  exact (names.subperm within).perm_of_length_le (by simp [lengths])

/-- THE BINDING IS ONE-TO-ONE AND LEAVES NOTHING OUT exactly if the names of the left differ. -/
theorem bijects_bindNamed (distinct' : (right.map Prod.snd).Nodup) :
    Bijects b (ListedPort left) (ListedPort right) ↔ (left.map Prod.fst).Nodup := by
  constructor
  · intro bijects
    apply List.Nodup.map_on _ (List.Nodup.of_map _ distinct)
    intro x memX x' memX' same
    obtain ⟨y, named⟩ := exists_lastNamed bound memX
    have first := (getElem?_bindNamed bound distinct).mpr ⟨x.1, x.2, y, memX, named, rfl, rfl⟩
    have second := (getElem?_bindNamed bound distinct).mpr ⟨x'.1, x'.2, y, memX', same ▸ named, rfl, rfl⟩
    exact Prod.ext same (port_inj (bijects.injective first second))
  · intro names
    have perm := perm_of_nodup bound names
    refine ⟨key_bindNamed bound distinct, fun r => ⟨?_, ?_⟩, ?_⟩
    · rintro ⟨l, found⟩
      exact value_bindNamed bound distinct found
    · -- A right name is a left one, and no other right gate has it.
      rintro ⟨y, mem, rfl⟩
      obtain ⟨x, listed, same⟩ := List.mem_map.mp (perm.symm.subset (List.mem_map_of_mem mem))
      obtain ⟨z, named⟩ := exists_lastNamed bound listed
      have own : z = y.2 := congrArg Prod.snd
        (List.inj_on_of_nodup_map (perm.nodup_iff.mp names) (mem_of_lastNamed named) mem same)
      exact ⟨.port x.2, (getElem?_bindNamed bound distinct).mpr ⟨x.1, x.2, z, listed, named, rfl, by rw [own]⟩⟩
    · intro l l' r found found'
      obtain ⟨name, x, y, listed, named, rfl, rfl⟩ := keepsNames_bindNamed bound distinct l _ found
      obtain ⟨name', x', y', listed', named', rfl, same⟩ := keepsNames_bindNamed bound distinct l' _ found'
      have names' : name = name' :=
        congrArg Prod.fst (List.inj_on_of_nodup_map distinct' named named' (port_inj same))
      have gates : x = x' := congrArg Prod.snd (List.inj_on_of_nodup_map names listed listed' names')
      rw [gates]

end Bound

/-! ## Two designs that were read -/

/-- The ports of all gates of a function. -/
def PortOf (net : Netlist) (fn : GateFn) (l : Link) : Prop := ∃ id g, net.gate? id = some g ∧ g.fn = fn ∧ l = .port id

theorem listedPort_eq {net : Netlist} {fn : GateFn} {named : NamedGates} (h : Bench.Lists net fn named) :
    ListedPort named = PortOf net fn := by
  funext l
  apply propext
  constructor
  · rintro ⟨x, mem, rfl⟩
    obtain ⟨g, found, isFn⟩ := (h.mem x.2).mp (List.mem_map_of_mem mem)
    exact ⟨x.2, g, found, isFn, rfl⟩
  · rintro ⟨id, g, found, isFn, rfl⟩
    obtain ⟨x, mem, rfl⟩ := List.mem_map.mp ((h.mem id).mpr ⟨g, found, isFn⟩)
    exact ⟨x, mem, rfl⟩

theorem bindByName_eq_ok {left right : Design} {hints : Hints} : left.bindByName right = .ok hints ↔
    ∃ sources targets triggers, bindNamed .input left.inputs right.inputs = .ok sources ∧
      bindNamed .output left.outputs right.outputs = .ok targets ∧
      bindNamed .flipFlop left.triggers right.triggers = .ok triggers ∧
      hints = { sources := some sources, targets := some targets, triggers := some triggers } := by
  unfold bindByName
  cases bindNamed .input left.inputs right.inputs with
  | error e => exact ⟨nofun, nofun⟩
  | ok sources =>
    cases bindNamed .output left.outputs right.outputs with
    | error e => exact ⟨nofun, nofun⟩
    | ok targets =>
      cases bindNamed .flipFlop left.triggers right.triggers with
      | error e => exact ⟨nofun, nofun⟩
      | ok triggers =>
        constructor
        · intro made
          exact ⟨sources, targets, triggers, rfl, rfl, rfl, (Except.ok.inj made).symm⟩
        · rintro ⟨_, _, _, ⟨⟩, ⟨⟩, ⟨⟩, rfl⟩
          rfl

/-- The same names, each equally often, in one of the lists of two designs. -/
def SameNames (left right : NamedGates) : Prop := (left.map Prod.fst).Perm (right.map Prod.fst)

theorem exists_hints {left right : Design} {p : Hints → Bool} (passes : (left.bindByName right).toOption.any p = true) :
    ∃ hints, left.bindByName right = .ok hints ∧ p hints = true := by
  cases bound : left.bindByName right with
  | ok hints =>
    rw [bound] at passes
    exact ⟨hints, rfl, passes⟩
  | error e =>
    rw [bound] at passes
    cases passes

/-- BINDING BY NAME IS A BIJECTION FOR INPUTS AND FLIP-FLOPS, and for outputs exactly if the left text asks for none
twice. Two designs that have the same names are bound. -/
theorem bindByName_of_read {bytes bytes' : ByteArray} {a b : Design} (readA : Bench.read bytes = .ok a)
    (readB : Bench.read bytes' = .ok b) :
    (∀ hints, a.bindByName b = .ok hints → ∃ sources targets triggers,
      hints = { sources := some sources, targets := some targets, triggers := some triggers } ∧
      Bijects sources (PortOf a.net .input) (PortOf b.net .input) ∧ KeepsNames sources a.inputs b.inputs ∧
      Bijects triggers (PortOf a.net .flipFlop) (PortOf b.net .flipFlop) ∧ KeepsNames triggers a.triggers b.triggers ∧
      (∀ l, l ∈ targets ↔ PortOf a.net .output l) ∧ KeepsNames targets a.outputs b.outputs ∧
      (Bijects targets (PortOf a.net .output) (PortOf b.net .output) ↔ (a.outputs.map Prod.fst).Nodup)) ∧
    ∀ e, a.bindByName b = .error e →
      ¬ SameNames a.inputs b.inputs ∨ ¬ SameNames a.outputs b.outputs ∨ ¬ SameNames a.triggers b.triggers := by
  have portsA := Bench.ports_of_read readA
  have portsB := Bench.ports_of_read readB
  constructor
  · intro hints ok
    obtain ⟨sources, targets, triggers, inputs, outputs, flipFlops, rfl⟩ := bindByName_eq_ok.mp ok
    simp only [← listedPort_eq portsA.inputs, ← listedPort_eq portsB.inputs, ← listedPort_eq portsA.outputs,
      ← listedPort_eq portsB.outputs, ← listedPort_eq portsA.triggers, ← listedPort_eq portsB.triggers]
    exact ⟨sources, targets, triggers, rfl,
      (bijects_bindNamed inputs portsA.inputs.distinct portsB.inputs.distinct).mpr portsA.inputNames,
      keepsNames_bindNamed inputs portsA.inputs.distinct,
      (bijects_bindNamed flipFlops portsA.triggers.distinct portsB.triggers.distinct).mpr portsA.triggerNames,
      keepsNames_bindNamed flipFlops portsA.triggers.distinct,
      key_bindNamed outputs portsA.outputs.distinct,
      keepsNames_bindNamed outputs portsA.outputs.distinct,
      bijects_bindNamed outputs portsA.outputs.distinct portsB.outputs.distinct⟩
  · intro e failed
    by_contra same
    simp only [not_or, not_not] at same
    obtain ⟨sources, inputs⟩ := exists_bindNamed .input same.1
    obtain ⟨targets, outputs⟩ := exists_bindNamed .output same.2.1
    obtain ⟨triggers, flipFlops⟩ := exists_bindNamed .flipFlop same.2.2
    rw [bindByName_eq_ok.mpr ⟨sources, targets, triggers, inputs, outputs, flipFlops, rfl⟩] at failed
    cases failed

/-- A register that holds a conjunction. -/
def gatedText : String := "INPUT(x)\nINPUT(e)\nOUTPUT(y)\nq = DFF(y)\ny = AND(x, e, q)\n"

/-- The same in another order, so that names have other gates. -/
def gatedTextReordered : String := "INPUT(e)\nINPUT(x)\nOUTPUT(y)\ny = AND(q, e, x)\nq = DFF(y)\n"

theorem gatedText_bound : ∃ a b sources targets triggers, Bench.read gatedText.toUTF8 = .ok a ∧
    Bench.read gatedTextReordered.toUTF8 = .ok b ∧
    a.bindByName b = .ok { sources := some sources, targets := some targets, triggers := some triggers } ∧
    Bijects sources (PortOf a.net .input) (PortOf b.net .input) ∧
    Bijects targets (PortOf a.net .output) (PortOf b.net .output) ∧
    Bijects triggers (PortOf a.net .flipFlop) (PortOf b.net .flipFlop) := by
  have runs : ((Bench.read gatedText.toUTF8).toOption.any fun a =>
      (Bench.read gatedTextReordered.toUTF8).toOption.any fun b =>
        (a.bindByName b).toOption.any fun _ => decide (a.outputs.map Prod.fst).Nodup) = true := by decide +kernel
  obtain ⟨a, readA, runs⟩ := Result.exists_ok_of_any runs
  obtain ⟨b, readB, runs⟩ := Result.exists_ok_of_any runs
  obtain ⟨hints, bound, names⟩ := exists_hints runs
  obtain ⟨sources, targets, triggers, rfl, inputs, _, flipFlops, _, _, _, outputs⟩ :=
    (bindByName_of_read readA readB).1 hints bound
  exact ⟨a, b, sources, targets, triggers, readA, readB, bound, inputs, outputs.mpr (of_decide_eq_true names), flipFlops⟩

/-- A text that asks for one output twice, -/
def repeatedOutput : String := "INPUT(x)\nOUTPUT(x)\nOUTPUT(x)\n"

/-- and one that asks for two. -/
def twoOutputs : String := "INPUT(x)\nOUTPUT(x)\nOUTPUT(gnd)\n"

/-- AN OUTPUT MAY BE BOUND TO NOTHING: two outputs of one name take the place of two that have different names. -/
theorem output_left_out : ∃ a b sources targets triggers, Bench.read repeatedOutput.toUTF8 = .ok a ∧
    Bench.read twoOutputs.toUTF8 = .ok b ∧
    a.bindByName b = .ok { sources := some sources, targets := some targets, triggers := some triggers } ∧
    ¬ SameNames a.outputs b.outputs ∧ ∃ r, PortOf b.net .output r ∧ ∀ l : Link, targets[l]? ≠ some r := by
  have runs : ((Bench.read repeatedOutput.toUTF8).toOption.any fun a =>
      (Bench.read twoOutputs.toUTF8).toOption.any fun b =>
        (a.bindByName b).toOption.any fun hints => !(a.outputs.map Prod.fst).isPerm (b.outputs.map Prod.fst) &&
          (b.net.gate? ⟨3⟩).any (fun g => g.fn == .output) &&
          hints.targets.any fun targets => targets.toList.all fun x => x.2 ≠ .port ⟨3⟩) = true := by decide +kernel
  obtain ⟨a, readA, runs⟩ := Result.exists_ok_of_any runs
  obtain ⟨b, readB, runs⟩ := Result.exists_ok_of_any runs
  obtain ⟨hints, bound, facts⟩ := exists_hints runs
  obtain ⟨sources, targets, triggers, _, _, _, rfl⟩ := bindByName_eq_ok.mp bound
  simp only [Bool.and_eq_true, Bool.not_eq_true', ← Bool.not_eq_true, List.isPerm_iff, Option.any_eq_true,
    beq_iff_eq, Option.some.injEq, exists_eq_left', List.all_eq_true, decide_eq_true_eq] at facts
  obtain ⟨⟨other, g, found, isOutput⟩, away⟩ := facts
  refine ⟨a, b, sources, targets, triggers, readA, readB, bound, other, .port ⟨3⟩, ⟨⟨3⟩, g, found, isOutput, rfl⟩, ?_⟩
  intro l bound
  exact away (l, .port ⟨3⟩) (TreeMap.mem_toList_iff_getElem?_eq_some.mpr bound) rfl

end Design

end LogicNet
