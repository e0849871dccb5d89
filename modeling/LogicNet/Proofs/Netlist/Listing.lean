import LogicNet.Proofs.Netlist.Sharing

/-!
# Netlists as lists of shapes

A netlist that is built from nothing by adding gates is a LIST OF SHAPES: gate number `i` has the shape at place `i`,
and reads gates of smaller numbers. It is not divided, and its gates stand in the order of their numbers.

Whoever builds a netlist in this way need not look at tables, boundaries or fan-outs again. An addition changes nothing,
or it appends one shape (`Lists.addGate_cases`). The shape is the one that was asked for or an inverter, and in either
case it is new, if it is one that is built only once. A shape that is new, and whose complement is not there, is
appended as it is (`Lists.addGate_new`), unless the numbers have run out.
-/

namespace LogicNet

open Std

namespace Netlist

/-- These are the gates, in the order of their numbers. -/
structure Lists (shapes : List Shape) (net : Netlist) : Prop where
  reachable : net.Reachable
  findable : net.Findable
  flat : net.parts = []
  disturbed : net.Disturbed
  next : net.nextId = shapes.length
  gates : net.gates = (List.range shapes.length).map GateId.mk
  shape : ∀ id : GateId, net.shape? id = shapes[id.index]?
  forward : ∀ {i : Nat} {s : Shape}, shapes[i]? = some s → ∀ x ∈ s.inputs, x.driver.index < i

theorem lists_nil : Lists [] .empty where
  reachable := .empty
  findable := findable_unused 0
  flat := rfl
  disturbed := nofun
  next := rfl
  gates := rfl
  shape _ := rfl
  forward := nofun

/-- A gate that is built comes last. -/
theorem gates_build {net net' : Netlist} {shape : Shape} {id : GateId} (built : net.build shape = .ok (id, net')) :
    net'.gates = net.gates ++ [id] := by
  obtain ⟨mid, b, rfl⟩ := build_spec built
  rw [gates_settled, gates, b.top]
  rfl

/-- A netlist that has the same gates has as many. -/
theorem Consistent.size_congr {net net' : Netlist} (h : net.Consistent) (h' : net'.Consistent)
    (same : net'.gate? = net.gate?) : net'.size = net.size := by
  rw [← h.size_gates, ← h'.size_gates]
  refine ((List.perm_ext_iff_of_nodup h'.top.accounts.nodup h.top.accounts.nodup).mpr fun x => ?_).length_eq
  show x ∈ net'.view.part.gates ↔ x ∈ net.view.part.gates
  rw [h'.mem_view_gates, h.mem_view_gates, same]

namespace Lists

variable {shapes : List Shape} {net net' : Netlist} {shape : Shape} {id : GateId} (h : Lists shapes net)
include h

theorem lt_of_shape? {s : Shape} (found : net.shape? id = some s) : id.index < shapes.length :=
  h.next ▸ h.reachable.consistent.lt_next found

/-- The number of gates, also where the same gates are divided or ordered in another way. -/
theorem size_of_gates (consistent : net'.Consistent) (same : net'.gate? = net.gate?) : net'.size = shapes.length := by
  rw [h.reachable.consistent.size_congr consistent same, ← h.reachable.consistent.size_gates]
  show net.gates.length = _
  rw [h.gates, List.length_map, List.length_range]

theorem size : net.size = shapes.length := h.size_of_gates h.reachable.consistent rfl

theorem acyclic_of_gates (same : net'.gate? = net.gate?) : net'.view.Acyclic := by
  refine View.acyclic_of_forward fun id _ g found _ => h.forward ?_
  rw [← h.shape, ← shape?_congr same]
  exact shape?_of_gate? found

theorem acyclic : net.view.Acyclic := h.acyclic_of_gates rfl

/-- The boundary is made of ports only. -/
theorem selfContained {inputs : List GateId}
    (sources : ∀ id : GateId, id ∈ inputs ↔ ∃ s, shapes[id.index]? = some s ∧ s.isSource = true) :
    SelfContained inputs net where
  reachable := h.reachable
  flat := h.flat
  inside := by
    intro id s found x read
    rw [h.shape] at found
    have below := h.forward found x read
    have inside : id.index < shapes.length := (List.getElem?_eq_some_iff.mp found).1
    exact ⟨_, (h.shape _).trans (List.getElem?_eq_getElem (Nat.lt_trans below inside))⟩
  sources := by
    intro id
    rw [sources, h.shape]
  acyclic := h.acyclic

theorem mem_shared {s : Shape} : s ∈ net.shared ↔ s.isShareable = true ∧ s ∈ shapes := by
  constructor
  · intro known
    obtain ⟨x, entry⟩ := Option.isSome_iff_exists.mp (TreeMap.mem_iff_isSome_getElem?.mp known)
    obtain ⟨shareable, found⟩ := h.reachable.consistent.shared s x entry
    exact ⟨shareable, List.mem_of_getElem? ((h.shape x).symm.trans found)⟩
  · rintro ⟨shareable, listed⟩
    obtain ⟨i, found⟩ := List.mem_iff_getElem?.mp listed
    exact h.findable ⟨i⟩ s ((h.shape _).trans found) shareable

theorem shared_eq_none {s : Shape} (new : s.isShareable = true → s ∉ shapes) : net.shared[s]? = none := by
  refine TreeMap.getElem?_eq_none fun known => ?_
  obtain ⟨shareable, listed⟩ := h.mem_shared.mp known
  exact new shareable listed

/-! ## Appending -/

/-- A gate that is built is appended. -/
theorem build (below : ∀ x ∈ shape.inputs, x.driver.index < shapes.length) (built : net.build shape = .ok (id, net'))
    (reachable : net'.Reachable) : id = ⟨shapes.length⟩ ∧ Lists (shapes ++ [shape]) net' := by
  obtain ⟨number, next⟩ := next_build built (h.next ▸ below)
  rw [h.next] at number next
  obtain ⟨_, reshapes⟩ := reshapes_build built
  subst number
  refine ⟨rfl, reachable, h.findable.build h.reachable.consistent built, reshapes.flat h.flat, reshapes.disturbed,
    ?_, ?_, ?_, ?_⟩
  · rw [next, List.length_append]
    rfl
  · rw [gates_build built, h.gates, List.length_append, List.length_singleton, List.range_succ, List.map_append]
    rfl
  · intro x
    rw [reshapes.shapes, Function.update_apply, h.shape]
    split
    · next same => rw [same, List.getElem?_concat_length]
    · next other =>
      have apart : x.index ≠ shapes.length := fun same => other (congrArg GateId.mk same)
      rcases Nat.lt_or_gt_of_ne apart with lt | gt
      · rw [List.getElem?_append_left lt]
      · rw [List.getElem?_eq_none (Nat.le_of_lt gt), List.getElem?_eq_none]
        rw [List.length_append]
        exact gt
  · intro i s found x read
    rcases Nat.lt_or_ge i shapes.length with lt | ge
    · rw [List.getElem?_append_left lt] at found
      exact h.forward found x read
    · rw [List.getElem?_append_right ge] at found
      obtain rfl : s = shape := List.mem_singleton.mp (List.mem_of_getElem? found)
      exact Nat.lt_of_lt_of_le (below x read) ge

/-- Outputs and sources stand for themselves, so each of them is appended. -/
theorem addAll {α : Type} {f : α → Shape} {xs : List α} (unshareable : ∀ x ∈ xs, (f x).isShareable = false)
    (below : ∀ x ∈ xs, ∀ y ∈ (f x).inputs, y.driver.index < shapes.length) {ids : List GateId}
    (added : Netlist.addAll (fun net x => net.addGate (f x)) net xs = .ok (ids, net')) :
    Lists (shapes ++ xs.map f) net' ∧ ids = (List.range' shapes.length xs.length).map GateId.mk := by
  induction xs generalizing net shapes ids with
  | nil =>
    cases added
    rw [List.map_nil, List.append_nil]
    exact ⟨h, rfl⟩
  | cons x xs ih =>
    obtain ⟨⟨id, mid⟩, first, added⟩ := Result.bind_eq_ok.mp added
    obtain ⟨⟨rest, last⟩, others, added⟩ := Result.bind_eq_ok.mp added
    cases added
    rw [List.forall_mem_cons] at unshareable below
    have built : net.build (f x) = .ok (id, mid) := by
      rw [← show net.addGate (f x) = .ok (id, mid) from first]
      unfold addGate
      rw [unshareable.1]
      rfl
    obtain ⟨rfl, lists⟩ := h.build below.1 built (.addGate (f x) h.reachable first)
    obtain ⟨lists, rfl⟩ := ih lists unshareable.2
      (fun y mem z read => Nat.lt_of_lt_of_le (below.2 y mem z read) (by simp)) others
    rw [List.map_cons, ← List.singleton_append, ← List.append_assoc]
    refine ⟨lists, ?_⟩
    show _ = (List.range' shapes.length (xs.length + 1)).map GateId.mk
    rw [List.length_append, List.range'_succ]
    rfl

/-- ONE ADDITION changes nothing, or appends one shape: the one asked for, or an inverter. -/
theorem addGate_cases (below : ∀ x ∈ shape.inputs, x.driver.index < shapes.length)
    (added : net.addGate shape = .ok (id, net')) :
    net' = net ∨ ∃ s, id = ⟨shapes.length⟩ ∧ Lists (shapes ++ [s]) net' ∧ (s.isShareable = true → s ∉ shapes) ∧
      (s = shape ∨ ∃ base : GateId, base.index < shapes.length ∧ s = .nary .not [base]) := by
  have reachable : net'.Reachable := .addGate shape h.reachable added
  have given : ∃ s, net.findOrBuild s = .ok (id, net') ∧
      (s = shape ∨ ∃ base : GateId, base.index < shapes.length ∧ s = .nary .not [base]) := by
    rcases Netlist.addGate_cases h.reachable.consistent added with given | ⟨base, c, _, found, given⟩
    · exact ⟨shape, given, .inl rfl⟩
    · exact ⟨_, given, .inr ⟨base, h.lt_of_shape? found, rfl⟩⟩
  obtain ⟨s, given, kind⟩ := given
  have inside : ∀ x ∈ s.inputs, x.driver.index < shapes.length := by
    rcases kind with rfl | ⟨base, lt, rfl⟩
    · exact below
    · intro x read
      obtain rfl : x = .plain base := List.mem_singleton.mp read
      exact lt
  unfold findOrBuild at given
  split at given
  · cases given
    exact .inl rfl
  · next unknown =>
    obtain ⟨number, lists⟩ := h.build inside given reachable
    refine .inr ⟨s, number, lists, fun shareable listed => ?_, kind⟩
    have known := TreeMap.mem_iff_isSome_getElem?.mp (h.mem_shared.mpr ⟨shareable, listed⟩)
    rw [unknown] at known
    cases known

/-- A shape that is built only once and is new, or any other, is appended, unless the numbers have run out. -/
theorem addGate_new (arity : shape.hasArity = true)
    (drivers : ∀ x ∈ shape.inputs, ∃ d, shapes[x.driver.index]? = some d ∧ d.isOutput = false)
    (new : shape.isShareable = true → shape ∉ shapes ∧ ∀ c, shape.complement = some c → c ∉ shapes) :
    (∃ net', net.addGate shape = .ok (⟨shapes.length⟩, net') ∧ Lists (shapes ++ [shape]) net') ∨
      net.addGate shape = .error (.breach .overflow) ∧ GateId.largest ≤ shapes.length := by
  have isBuilt : net.addGate shape = net.build shape := by
    unfold addGate
    split
    · next shareable =>
      have complement : net.complement? shape = none := by
        refine Option.bind_eq_none_iff.mpr fun c isComplement => ?_
        exact h.shared_eq_none fun _ => (new shareable).2 c isComplement
      rw [h.shared_eq_none fun _ => (new shareable).1, complement]
    · rfl
  have canDrive : ∀ x ∈ shape.inputs, net.CanDrive x.driver := by
    intro x read
    obtain ⟨d, found, plain⟩ := drivers x read
    exact h.reachable.consistent.canDrive_of_shape? ((h.shape _).trans found) plain
  have below : ∀ x ∈ shape.inputs, x.driver.index < shapes.length := fun x read => h.next ▸ (canDrive x read).1
  cases result : net.addGate shape with
  | ok r =>
    obtain ⟨id, net'⟩ := r
    obtain ⟨rfl, lists⟩ := h.build below (isBuilt ▸ result) (.addGate shape h.reachable result)
    exact .inl ⟨net', rfl, lists⟩
  | error f =>
    obtain ⟨rfl, full⟩ := of_build_eq_error arity canDrive (isBuilt ▸ result)
    exact .inr ⟨rfl, h.next ▸ full⟩

end Lists

end Netlist

end LogicNet
