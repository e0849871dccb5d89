import LogicNet.Proofs.Netlist.Operations

/-!
# Marked orders

A netlist that is marked as sorted is not sorted again, and whoever walks along its gates takes them as they stand. So
a mark must never outlive the order it was put on.

**The law** (`marked_in_order`): whatever was done to a netlist, where it or one of its parts is marked as sorted, every
gate stands after the gates that feed it, and where the netlist is marked, so are all of its parts.

That a marked order is one is part of consistency. That the marks go TOGETHER is not, and is followed through every
operation here: an edit that reaches into a part always disturbs the order of the whole netlist, so the netlist can be
marked afterwards only if it has at most one gate, and then so has each of its parts.

**What it does not establish.** That the order has no loop: a gate stands after the OTHER gates that feed it. A netlist
of one gate is marked whatever this gate reads.
-/

namespace LogicNet

open Std

/-- The list has each member once, and every gate in it stands after the members that feed it, itself apart. -/
structure InOrder (gate? : GateId → Option Gate) (member : GateId → Bool) (gates : List GateId) : Prop where
  nodup : gates.Nodup
  members : ∀ id, id ∈ gates ↔ member id = true
  drivers : ∀ before t after, gates = before ++ t :: after →
    ∀ d, member d = true → Feeds gate? d t → d ≠ t → d ∈ before

theorem Covers.inOrder {gate? : GateId → Option Gate} {member : GateId → Bool} {p : Part} (h : Covers gate? member p)
    (sorted : p.isSorted = true) : InOrder gate? member p.gates := by
  have ordered : p.gates.Pairwise fun a b => ¬Feeds gate? b a := by
    rcases Bool.or_eq_true_iff.mp sorted with mark | few
    · exact h.accounts.ordered mark
    · exact pairwise_of_length_le_one (of_decide_eq_true few)
  refine ⟨h.accounts.nodup, fun id => (h.members id).symm, ?_⟩
  intro before t after split d inside feeds other
  have mem := (h.members d).mp inside
  rw [split] at mem ordered
  exact mem_of_pairwise ordered mem feeds other

namespace Netlist

/-! ## Marks go together -/

/-- Where the netlist is marked, each of its parts is. -/
def Together (net : Netlist) : Prop := net.isSorted = true → ∀ p ∈ net.parts, p.isSorted = true

/-- A part is no larger than the netlist, so where there is nothing to order, its parts need no order either. -/
theorem together_of_disturbed {net : Netlist} (consistent : net.Consistent) (disturbed : net.Disturbed) :
    net.Together := by
  intro sorted p mem
  have few : net.top.gates.length ≤ 1 := by
    rcases Bool.or_eq_true_iff.mp sorted with mark | few
    · exact disturbed mark
    · exact of_decide_eq_true few
  obtain ⟨n, here⟩ := List.mem_iff_getElem?.mp mem
  have part := (consistent.parts n p here).accounts
  have smaller : p.gates.length ≤ net.top.gates.length :=
    (part.nodup.subperm fun x inside => consistent.mem_view_gates.mpr (part.known x inside)).length_le
  exact Bool.or_eq_true_iff.mpr (.inr (decide_eq_true (Nat.le_trans smaller few)))

theorem together_of_flat {net : Netlist} (flat : net.parts = []) : net.Together := by
  intro _ p mem
  rw [flat] at mem
  cases mem

section Edits

variable {net net' : Netlist} (h : net.Together)
include h

theorem Together.addPart : net.addPart.2.Together := by
  intro sorted p mem
  rcases List.mem_append.mp mem with before | last
  · exact h sorted p before
  · rw [List.mem_singleton.mp last]
    rfl

/-- A gate that stays where it is changes nothing, and any other move disturbs the order. -/
theorem Together.moveGate (consistent : net.Consistent) {id : GateId} {dest : Option Nat}
    (moved : net.moveGate id dest = .ok net') : net'.Together := by
  have now := consistent.moveGate moved
  obtain ⟨g, found, _, ⟨_, rfl⟩ | ⟨_, rfl⟩⟩ := moveGate_spec moved
  · exact h
  · have disturbed : (net.rehome id g dest).Disturbed := disturbed_of_top (top_rehome net id g dest)
    exact together_of_disturbed now (disturbed.refresh _ _ _)

theorem Together.removeEmptyParts : net.removeEmptyParts.Together := by
  intro sorted p mem
  exact h sorted p (List.mem_of_mem_filter mem)

theorem Together.sort (sorted : net.sort = .ok net') : net'.Together := by
  rcases sort_cases sorted with ⟨_, rfl⟩ | ⟨_, order, orders, _, rfl⟩
  · exact h
  · intro _ p mem
    obtain ⟨n, here⟩ := List.mem_iff_getElem?.mp mem
    obtain ⟨q, order, _, _, rfl⟩ := List.getElem?_zipWith_eq_some.mp here
    rfl

omit h in
theorem together_build (consistent : net.Consistent) {shape : Shape} {id : GateId}
    (built : net.build shape = .ok (id, net')) : net'.Together :=
  together_of_disturbed (consistent.build built) (reshapes_build built).2.disturbed

omit h in
theorem together_setGate (consistent : net.Consistent) {id : GateId} {shape : Shape}
    (set : net.setGate id shape = .ok net') : net'.Together :=
  together_of_disturbed (consistent.setGate set) (reshapes_setGate consistent set).disturbed

omit h in
theorem together_removeGate (consistent : net.Consistent) {id : GateId} (removed : net.removeGate id = .ok net') :
    net'.Together := by
  have now := consistent.removeGate removed
  obtain ⟨old, found, ⟨_, rfl⟩ | ⟨_, mid, r, rfl⟩⟩ := removeGate_spec removed
  · exact together_of_flat rfl
  · have mem : old.id ∈ net.top.gates := by
      rw [consistent.wired.keyed found]
      exact (consistent.top.members id).mp (contains_iff.mpr ⟨old, found⟩)
    obtain ⟨i, here⟩ := List.mem_iff_getElem?.mp mem
    have top := r.top.trans (Part.erase_eq ((consistent.top.accounts.indexed _ _).mpr here))
    exact together_of_disturbed now ((disturbed_of_top top).refresh _ _ _)

theorem Together.addGate (consistent : net.Consistent) {shape : Shape} {id : GateId}
    (added : net.addGate shape = .ok (id, net')) : net'.Together := by
  rcases addGate_eq_or_build consistent added with rfl | ⟨s, built⟩
  · exact h
  · exact together_build consistent built

theorem Builds.together (builds : net.Builds net') (consistent : net.Consistent) : net'.Together := by
  induction builds with
  | refl => exact h
  | place before added _ => exact together_build (before.consistent consistent) added
  | fill _ _ before _ set _ => exact together_setGate (before.consistent consistent) set
  | addPart _ ih => exact ih.addPart
  | moveGate _ _ before moved ih => exact ih.moveGate (before.consistent consistent) moved

end Edits

/-- THE WHOLE RUN. Marks go together in every netlist that operations can make. -/
theorem Reachable.together {net : Netlist} (h : net.Reachable) : net.Together := by
  induction h with
  | empty => exact together_of_flat rfl
  | addPlaceholder before added _ => exact together_build before.consistent added
  | addGate _ before added ih => exact ih.addGate before.consistent added
  | setGate _ _ before set _ => exact together_setGate before.consistent set
  | removeGate _ before removed _ => exact together_removeGate before.consistent removed
  | addPart _ ih => exact ih.addPart
  | moveGate _ _ before moved ih => exact ih.moveGate before.consistent moved
  | mergeParts left right before merged _ =>
    have now := before.consistent.mergeParts merged
    obtain ⟨_, _, merged⟩ := Result.bind_eq_ok.mp merged
    obtain ⟨_, _, merged⟩ := Result.bind_eq_ok.mp merged
    obtain ⟨_, _, merged⟩ := Result.bind_eq_ok.mp merged
    cases merged
    exact together_of_disturbed now (disturbed_of_top rfl)
  | groupOrphans before grouped _ =>
    have now := before.consistent.groupOrphans grouped
    obtain ⟨_, _, grouped⟩ := Result.bind_eq_ok.mp grouped
    cases grouped
    exact together_of_disturbed now (disturbed_of_top rfl)
  | flatten _ _ => exact together_of_flat rfl
  | removeEmptyParts _ ih => exact ih.removeEmptyParts
  | importNet before imports imported ih _ =>
    exact (builds_importNet before.consistent imports.consistent imported).together ih before.consistent
  | copy before copied _ =>
    obtain ⟨first, mid, builds, sorted⟩ := builds_copy before.consistent copied
    exact (builds.together (together_of_flat rfl) (consistent_unused first)).sort sorted
  | clear _ _ => exact together_of_flat rfl
  | sort _ sorted ih => exact ih.sort sorted

/-- A MARK IS RIGHT. Where a netlist is marked as sorted, its gates are in order and its parts are marked too. Where a
part is marked, the gates of the part are in order. -/
theorem marked_in_order {net : Netlist} (h : net.Reachable) :
    (net.isSorted = true → InOrder net.gate? net.contains net.gates ∧ ∀ p ∈ net.parts, p.isSorted = true) ∧
    ∀ (n : Nat) (p : Part), net.parts[n]? = some p → p.isSorted = true → InOrder net.gate? (net.inPart n) p.gates := by
  constructor
  · intro sorted
    exact ⟨h.consistent.top.inOrder sorted, h.together sorted⟩
  · intro n p here sorted
    exact (h.consistent.parts n p here).inOrder sorted

/-- A negation is made to read a gate that stands after it, the two are put into different parts, and all is sorted. -/
def sortedRun : Result Netlist := do
  let net := made [.nary .input [], .nary .input [], .nary .not [⟨0⟩], .nary .and [⟨0⟩, ⟨1⟩]]
  let net ← net.setGate ⟨2⟩ (.nary .not [⟨3⟩])
  let net ← net.addPart.2.addPart.2.moveGate ⟨2⟩ (some 0)
  let net ← net.moveGate ⟨0⟩ (some 1)
  let net ← net.moveGate ⟨1⟩ (some 1)
  let net ← net.moveGate ⟨3⟩ (some 1)
  net.sort

theorem sortedRun_in_order : ∃ net, sortedRun = .ok net ∧ net.isSorted = true ∧ net.parts.length = 2 ∧
    InOrder net.gate? net.contains net.gates ∧
    ∀ (n : Nat) (p : Part), net.parts[n]? = some p → InOrder net.gate? (net.inPart n) p.gates := by
  obtain ⟨net, run, marked⟩ : ∃ net, sortedRun = .ok net ∧ (net.isSorted && net.parts.length == 2) = true :=
    Result.exists_ok_of_any (by decide +kernel)
  obtain ⟨sorted, two⟩ := Bool.and_eq_true_iff.mp marked
  have reachable : net.Reachable := by
    obtain ⟨net₁, set, run⟩ := Result.bind_eq_ok.mp run
    obtain ⟨net₂, first, run⟩ := Result.bind_eq_ok.mp run
    obtain ⟨net₃, second, run⟩ := Result.bind_eq_ok.mp run
    obtain ⟨net₄, third, run⟩ := Result.bind_eq_ok.mp run
    obtain ⟨net₅, fourth, run⟩ := Result.bind_eq_ok.mp run
    have divided : net₁.addPart.2.addPart.2.Reachable := .addPart (.addPart (.setGate _ _ (reachable_made _) set))
    exact .sort (.moveGate _ _ (.moveGate _ _ (.moveGate _ _ (.moveGate _ _ divided first) second) third) fourth) run
  obtain ⟨whole, parts⟩ := marked_in_order reachable
  obtain ⟨ordered, marks⟩ := whole sorted
  refine ⟨net, run, sorted, eq_of_beq two, ordered, fun n p here => ?_⟩
  exact parts n p here (marks p (List.mem_of_getElem? here))

end Netlist

end LogicNet
