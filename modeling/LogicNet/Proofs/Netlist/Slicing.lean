import LogicNet.Netlist.Sample
import LogicNet.Proofs.Netlist.Listing
import LogicNet.Proofs.Netlist.TopologicalSort

/-!
# Dividing along the order

`divide` cuts the order of the gates into pieces of nearly equal size: gate number `i` of `n` goes to part
`i * count / n`, and parts that got nothing are dropped. Both steps are MONOTONE, the division by rounding down and the
renumbering by counting, so a gate is never in an earlier part than a gate before it (`Sliced.monotone`).

Where every gate reads gates of smaller numbers, a part is therefore fed only by parts of smaller numbers. The parts do
not feed each other in a circle, and sorting keeps each of them together (`Sliced.exists_sort`).
-/

namespace LogicNet

open Std

namespace Netlist

/-! ## Empty parts -/

/-- Only the number of parts has changed. -/
theorem addParts_spec {α : Type} {net : Netlist} (h : net.Reachable) (xs : List α) :
    (xs.foldl (fun net _ => net.addPart.2) net).Reachable ∧
      (xs.foldl (fun net _ => net.addPart.2) net).gate? = net.gate? ∧
      (xs.foldl (fun net _ => net.addPart.2) net).top = net.top ∧
      (xs.foldl (fun net _ => net.addPart.2) net).parts.length = net.parts.length + xs.length := by
  induction xs generalizing net with
  | nil => exact ⟨h, rfl, rfl, rfl⟩
  | cons x xs ih =>
    obtain ⟨reachable, gates, top, length⟩ := ih h.addPart
    refine ⟨reachable, gates, top, length.trans ?_⟩
    simp only [addPart, List.length_append, List.length_cons, List.length_nil]
    omega

/-! ## Pieces of an order -/

/-- The netlist was cut along its order: every gate is in a part, no part is empty, and a gate is never in an earlier
part than a gate before it. -/
structure Sliced (net : Netlist) (count : Nat) (net' : Netlist) : Prop where
  reachable : net'.Reachable
  gates : net'.gate? = net.gate?
  disturbed : net'.Disturbed
  length : net'.parts.length ≤ count
  occupied : ∀ p ∈ net'.parts, p.isEmpty = false
  housed : ∀ {id : GateId} {g : Gate}, net'.gate? id = some g → ∃ n, net'.partOf? id = some n
  monotone : ∀ {a b : GateId} {i j : Nat}, a.index ≤ b.index → net'.partOf? a = some i → net'.partOf? b = some j →
    i ≤ j

/-- Some gates were moved, each to the piece that its number is in. -/
structure Moving (net : Netlist) (count : Nat) (done : List (GateId × Nat)) (mid : Netlist) : Prop where
  reachable : mid.Reachable
  gates : mid.gate? = net.gate?
  disturbed : mid.Disturbed
  length : mid.parts.length = count
  homes : ∀ x ∈ done, mid.partOf? x.1 = some (x.1.index * count / net.gates.length)

section

variable {shapes : List Shape} {net : Netlist} (h : Lists shapes net) {count : Nat}
include h

/-- A gate stands at the place of its number. -/
theorem Lists.index_eq {id : GateId} {i : Nat} (mem : (id, i) ∈ net.gates.zipIdx) : id.index = i := by
  have here : net.gates[i]? = some id := List.mem_zipIdx_iff_getElem?.mp mem
  rw [h.gates, List.getElem?_map, Option.map_eq_some_iff] at here
  obtain ⟨k, here, rfl⟩ := here
  obtain ⟨_, same⟩ := List.getElem?_eq_some_iff.mp here
  rw [List.getElem_range] at same
  exact same.symm

theorem moving_nil : Moving net count [] ((List.range count).foldl (fun net _ => net.addPart.2) net) := by
  obtain ⟨reachable, gates, top, length⟩ := addParts_spec h.reachable (List.range count)
  refine ⟨reachable, gates, ?_, ?_, nofun⟩
  · rw [Disturbed, top]
    exact h.disturbed
  · rw [length, h.flat, List.length_nil, Nat.zero_add, List.length_range]

/-- ONE MOVE. -/
theorem Moving.move {done rest : List (GateId × Nat)} {mid mid' : Netlist} {id : GateId} {i : Nat}
    (moving : Moving net count done mid) (split : net.gates.zipIdx = done ++ (id, i) :: rest)
    (moved : mid.moveGate id (some (net.parts.length + i * count / net.gates.length)) = .ok mid') :
    Moving net count (done ++ [(id, i)]) mid' := by
  have one := moves_moveGate moving.reachable.consistent moved
  refine ⟨.moveGate _ _ moving.reachable moved, one.gates.trans moving.gates, one.disturbed moving.disturbed,
    one.length.trans moving.length, ?_⟩
  have turn : id.index = i := h.index_eq (by rw [split]; simp)
  intro y mem
  rw [one.homes, Function.update_apply]
  split_ifs with same
  · rw [same, turn, h.flat, List.length_nil, Nat.zero_add]
  · rcases List.mem_append.mp mem with earlier | last
    · exact moving.homes y earlier
    · rw [List.mem_singleton.mp last] at same
      exact absurd rfl same

/-- Dropping the parts that got nothing keeps the order of the others. -/
theorem Moving.sliced {mid : Netlist} (moving : Moving net count net.gates.zipIdx mid) :
    Sliced net count mid.removeEmptyParts := by
  have homes : ∀ {id : GateId} {g : Gate}, mid.gate? id = some g →
      mid.partOf? id = some (id.index * count / net.gates.length) := by
    intro id g found
    rw [moving.gates] at found
    obtain ⟨i, here⟩ := List.mem_iff_getElem?.mp (h.reachable.consistent.mem_view_gates.mpr ⟨g, found⟩)
    exact moving.homes (id, i) (List.mem_zipIdx_iff_getElem?.mpr here)
  refine ⟨moving.reachable.removeEmptyParts, moving.gates, moving.disturbed, ?length, ?occupied, ?housed, ?monotone⟩
  case length => exact moving.length ▸ List.length_filter_le _ _
  case occupied =>
    intro p mem
    simpa using (List.mem_filter.mp mem).2
  case housed =>
    intro id g found
    rw [partOf?_removeEmptyParts, homes found]
    exact ⟨_, rfl⟩
  case monotone =>
    have home : ∀ {x : GateId} {n : Nat}, mid.removeEmptyParts.partOf? x = some n →
        n = (mid.parts.take (x.index * count / net.gates.length)).countP (!·.isEmpty) := by
      intro x n home
      rw [partOf?_removeEmptyParts, Option.map_eq_some_iff] at home
      obtain ⟨m, home, rfl⟩ := home
      obtain ⟨g, found⟩ := moving.reachable.consistent.known_of_home home
      rw [homes found, Option.some.injEq] at home
      rw [home]
    intro a b i j le here there
    rw [home here, home there]
    have pieces : a.index * count / net.gates.length ≤ b.index * count / net.gates.length :=
      Nat.div_le_div_right (Nat.mul_le_mul_right count le)
    exact (List.take_sublist_take_left pieces).countP_le

/-- THE WHOLE DIVISION, from the empty parts over the moves of all gates to the parts that are left. -/
theorem Lists.divide {net' : Netlist} (divided : net.divide count = .ok net') : Sliced net count net' := by
  obtain ⟨_, _, divided⟩ := Result.bind_eq_ok.mp divided
  obtain ⟨mid, moved, divided⟩ := Result.bind_eq_ok.mp divided
  cases divided
  refine Moving.sliced h (Result.foldlM_done (Moving net count) moved (moving_nil h) ?_)
  intro done x rest mid mid' split moving moved
  exact moving.move h split moved

end

/-! ## Sorting the pieces -/

namespace Sliced

variable {shapes : List Shape} {net net' : Netlist} {count : Nat} (s : Sliced net count net')
include s

theorem isWellFormed : net'.isWellFormed = true := by
  have full : net'.hasOrphans = false := by
    rw [Bool.eq_false_iff, ne_eq, s.reachable.consistent.hasOrphans_iff]
    rintro ⟨id, inside, orphan⟩
    obtain ⟨g, found⟩ := contains_iff.mp inside
    obtain ⟨n, home⟩ := s.housed found
    rw [orphan] at home
    cases home
  have occupied : net'.hasEmptyParts = false := by
    rw [Bool.eq_false_iff, ne_eq, s.reachable.consistent.tallied.hasEmptyParts_iff]
    rintro ⟨p, mem, empty⟩
    rw [s.occupied p mem] at empty
    cases empty
  rw [Netlist.isWellFormed, full, occupied]
  exact Bool.or_true _

section

variable (h : Lists shapes net)
include h

/-- A netlist with gates has parts. -/
theorem isFlat_eq_false (nonempty : 0 < shapes.length) : net'.isFlat = false := by
  have first : net'.shape? ⟨0⟩ = some shapes[0] := by
    rw [shape?_congr s.gates, h.shape, List.getElem?_eq_getElem nonempty]
  obtain ⟨g, found, _⟩ := shape?_eq_some.mp first
  obtain ⟨n, home⟩ := s.housed found
  have inside := s.reachable.consistent.homes _ n home
  exact List.isEmpty_eq_false_iff.mpr (List.ne_nil_of_length_pos (Nat.zero_lt_of_lt inside))

/-- A part is fed only by parts of smaller numbers. -/
theorem lt_of_partFeeds {i j : Nat} (feeds : net'.PartFeeds i j) : i < j := by
  obtain ⟨other, d, t, here, there, feeds⟩ := feeds
  obtain ⟨shape, found, _, x, read, rfl⟩ := feeds_iff_shape?.mp feeds
  rw [shape?_congr s.gates, h.shape] at found
  exact Nat.lt_of_le_of_ne (s.monotone (Nat.le_of_lt (h.forward found x read)) here there) other

theorem acyclic_parts (n : Nat) : ¬Relation.TransGen net'.PartFeeds n n := by
  have increasing : ∀ {i j}, Relation.TransGen net'.PartFeeds i j → i < j := by
    intro i j path
    induction path with
    | single edge => exact s.lt_of_partFeeds h edge
    | tail _ edge ih => exact Nat.lt_trans ih (s.lt_of_partFeeds h edge)
  exact fun circle => Nat.lt_irrefl n (increasing circle)

/-- The pieces can be sorted, and each of them stays together. -/
theorem exists_sort (several : 1 < shapes.length) : ∃ sorted, net'.sort = .ok sorted ∧ net'.SortsTo sorted ∧
    ∀ q ∈ sorted.parts, q.gates <:+: sorted.gates := by
  have consistent := s.reachable.consistent
  obtain ⟨sorted, isSorted⟩ := Netlist.exists_sort consistent s.isWellFormed (h.acyclic_of_gates s.gates)
  have size : net'.top.size = shapes.length := by rw [consistent.size_gates, h.size_of_gates consistent s.gates]
  rcases sort_cases isSorted with ⟨marked, _⟩ | ⟨_, order, orders, finds, rfl⟩
  · -- A mark would mean that there is at most one gate.
    rcases Bool.or_eq_true_iff.mp marked with flag | few
    · have := s.disturbed flag
      omega
    · have := of_decide_eq_true few
      omega
  · have sortsTo := (finds.takes consistent).sortsTo consistent
    exact ⟨_, isSorted, sortsTo, sortsTo.together (s.acyclic_parts h)⟩

end

end Sliced

end Netlist

end LogicNet
