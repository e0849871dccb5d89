import LogicNet.Proofs.Equivalence.Reflexive
import LogicNet.Proofs.Netlist.Order

/-!
# Copies are isomorphic

A netlist keeps more than its gates: the boundary of the whole and of every part, the constants, the triggers and the
order. Two netlists are ISOMORPHIC when one correspondence carries all of it over.

**The law** (`copy_isomorphic`): a copy is isomorphic to the netlist by the correspondence that comes with it, and it is
sorted, as a whole and part by part. A driver outside stands for itself, and no gate of the copy has its identifier.

Nothing is said here about how a copy is made. What the correspondence does to the gates is the law of copying, and a
consistent netlist keeps nothing beside its gates that the gates do not determine.

**What it does not establish.** That the gates of the copy stand in the order of their originals. The copy is sorted anew.
-/

namespace LogicNet

open Std

/-- The second part consists of the images of the gates of the first, with their classes and their boundary. -/
structure Part.IsImage (f : GateId → GateId) (p q : Part) : Prop where
  gates : ∀ id', id' ∈ q.gates ↔ ∃ id ∈ p.gates, f id = id'
  constants : ∀ id', id' ∈ q.constants ↔ ∃ id ∈ p.constants, f id = id'
  triggers : ∀ id', id' ∈ q.triggers ↔ ∃ id ∈ p.triggers, f id = id'
  sources : ∀ r, r ∈ q.sources ↔ ∃ l ∈ p.sources, l.rename f = r
  targets : ∀ r, r ∈ q.targets ↔ ∃ l ∈ p.targets, l.rename f = r

theorem View.IsImage.part {f : GateId → GateId} {v w : View} (h : View.IsImage f v w) :
    Part.IsImage f v.part w.part :=
  ⟨fun _ => h.mem_gates, fun _ => h.mem_constants, fun _ => h.mem_triggers, fun _ => h.mem_sources, fun _ => h.mem_targets⟩

namespace Netlist

/-- The correspondence pairs the gates of two netlists, and all that is kept of the second netlist is the image of what
is kept of the first. -/
structure Isomorphic (map : GateMap) (net image : Netlist) : Prop where
  pairs : map.Pairs net image
  shapes : ∀ {id : GateId} {g : Gate}, net.gate? id = some g →
    ∃ g', image.gate? (map.image id) = some g' ∧ g'.toShape = g.toShape.rename map.image
  itself : ∀ {id : GateId}, net.gate? id = none → map.image id = id
  external : ∀ {id : GateId}, net.Mentions id → net.gate? id = none → image.gate? id = none
  homes : ∀ {id : GateId} {g : Gate}, net.gate? id = some g → image.partOf? (map.image id) = net.partOf? id
  top : Part.IsImage map.image net.top image.top
  parts : List.Forall₂ (Part.IsImage map.image) net.parts image.parts

/-- What is no gate has no image but itself. -/
theorem Copies.itself {net image : Netlist} {map : GateMap} (h : net.Copies map image) {id : GateId}
    (unknown : net.gate? id = none) : map.image id = id := by
  refine GateMap.image_of_not_mem fun mem => ?_
  obtain ⟨g, found⟩ := (h.pairs.keys id).mp mem
  rw [unknown] at found
  cases found

/-- A copy of a consistent netlist keeps the images of all that the netlist keeps. -/
theorem Copies.isomorphic {net image : Netlist} {map : GateMap} (h : net.Copies map image) (consistent : net.Consistent)
    (consistent' : image.Consistent) : Isomorphic map net image where
  pairs := h.pairs
  shapes := h.isImage.shapes
  itself := h.itself
  external := by
    intro id mentioned unknown
    refine Option.eq_none_iff_forall_ne_some.mpr fun g' found => ?_
    obtain ⟨x, g, here, same⟩ := h.isImage.onto found
    -- The gate would have the same image as the driver outside, which stands for itself.
    have : x = id := h.isImage.injective (.inl ⟨g, here⟩) mentioned (same.trans (h.itself unknown).symm)
    rw [this, unknown] at here
    cases here
  homes := h.homes
  top := (h.isImage_view consistent consistent').part
  parts := by
    rw [List.forall₂_iff_get]
    refine ⟨h.length.symm, fun n lt lt' => ?_⟩
    exact (h.isImage_part consistent consistent' (List.getElem?_eq_getElem lt) (List.getElem?_eq_getElem lt')).part

/-- What was sorted is marked. -/
theorem isSorted_of_sort {net net' : Netlist} (sorted : net.sort = .ok net') : net'.isSorted = true := by
  rcases sort_cases sorted with ⟨marked, rfl⟩ | ⟨_, order, orders, _, rfl⟩
  · exact marked
  · rfl

theorem isSorted_of_copy {net image : Netlist} {map : GateMap} (h : net.Consistent)
    (copied : net.copy = .ok (map, image)) : image.isSorted = true := by
  obtain ⟨_, _, _, sorted⟩ := builds_copy h copied
  exact isSorted_of_sort sorted

/-- A COPY IS ISOMORPHIC to the netlist, and it is sorted: all of its gates are in order, and so are the gates of every
part. -/
theorem copy_isomorphic {net image : Netlist} {map : GateMap} (h : net.Reachable)
    (copied : net.copy = .ok (map, image)) :
    Isomorphic map net image ∧ image.isSorted = true ∧ InOrder image.gate? image.contains image.gates ∧
      ∀ (n : Nat) (p : Part), image.parts[n]? = some p → p.isSorted = true ∧ InOrder image.gate? (image.inPart n) p.gates := by
  have reachable : image.Reachable := .copy h copied
  have consistent := reachable.consistent
  have sorted := isSorted_of_copy h.consistent copied
  refine ⟨(copies_of_copy h.consistent copied).isomorphic h.consistent consistent, sorted, consistent.top.inOrder sorted, ?_⟩
  intro n p here
  have marked := reachable.together sorted p (List.mem_of_getElem? here)
  exact ⟨marked, (consistent.parts n p here).inOrder marked⟩

/-- Two parts. In the first are a constant and a gate that reads two drivers outside; in the second a flip-flop that is
clocked by itself, reads a conjunction made after it, and stands after the output. The identifier of a gate that was
removed is free. -/
def tangledRun : Result Netlist := do
  let net ← Checker.dividedRun [.nary .xor [⟨0⟩, ⟨1⟩], .nary .not [⟨2⟩], ⟨.flipFlop, [.plain ⟨2⟩, ⟨.rising, ⟨1⟩⟩]⟩,
    .nary .one [], .nary .and [⟨4⟩, ⟨5⟩, ⟨0⟩], .nary .output [⟨6⟩]] [[2, 5], [7, 4, 6]]
  let net ← net.setGate ⟨4⟩ ⟨.flipFlop, [.plain ⟨6⟩, ⟨.rising, ⟨4⟩⟩]⟩
  net.removeGate ⟨3⟩

theorem tangledRun_copied : ∃ net map image, tangledRun = .ok net ∧ net.isSorted = false ∧ net.parts.length = 2 ∧
    net.externalDrivers = [⟨0⟩, ⟨0⟩, ⟨1⟩] ∧ net.copy = .ok (map, image) ∧ map[(⟨7⟩ : GateId)]? = some ⟨3⟩ ∧
    Isomorphic map net image ∧ InOrder image.gate? image.contains image.gates := by
  obtain ⟨net, run, facts⟩ : ∃ net, tangledRun = .ok net ∧ (!net.isSorted && net.parts.length == 2 &&
      net.externalDrivers == [⟨0⟩, ⟨0⟩, ⟨1⟩] && net.copy.toOption.any fun x => x.1[(⟨7⟩ : GateId)]? == some ⟨3⟩) = true :=
    Result.exists_ok_of_any (by decide +kernel)
  simp only [Bool.and_eq_true, Bool.not_eq_true', beq_iff_eq] at facts
  obtain ⟨⟨⟨unmarked, two⟩, external⟩, copies⟩ := facts
  obtain ⟨⟨map, image⟩, copied, moved⟩ := Result.exists_ok_of_any copies
  have reachable : net.Reachable := by
    obtain ⟨net₁, divided, run⟩ := Result.bind_eq_ok.mp run
    obtain ⟨net₂, set, removed⟩ := Result.bind_eq_ok.mp run
    exact .removeGate _ (.setGate _ _ (Checker.reachable_dividedRun divided) set) removed
  obtain ⟨isomorphic, _, inOrder, _⟩ := copy_isomorphic reachable copied
  exact ⟨net, map, image, run, unmarked, two, external, copied, eq_of_beq moved, isomorphic, inOrder⟩

end Netlist

end LogicNet
