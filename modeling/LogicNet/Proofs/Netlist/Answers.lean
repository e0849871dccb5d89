import LogicNet.Proofs.Netlist.Sharing

/-!
# Stable answers

What `addGate` answers depends on what was built first: the gate of the shape, an inverter of the complementary gate,
or a new gate. Whatever it answered, it answers again (`addGate_stable`), as long as gates and parts are only added.

An answer is read off the table of shapes (`Answers`): the shape has an entry, or it has none, the complement has one,
and so has the inverter of that. Entries are never lost by an addition, so the first kind of answer is stable for this
reason alone. The second could be overtaken by an entry for the shape itself. It is not: while the complement has an
entry, no addition builds the shape (`Extends.absent`).
-/

namespace LogicNet

open Std

namespace Netlist

/-! ## Tables that grow -/

/-- The second table has the entries of the first, and no entry for a shape of which the first has only the
complement. -/
structure Extends (net net' : Netlist) : Prop where
  kept : ∀ {s : Shape} {id : GateId}, net.shared[s]? = some id → net'.shared[s]? = some id
  absent : ∀ {s : Shape}, net.shared[s]? = none → net.complement? s ≠ none → net'.shared[s]? = none

theorem Extends.of_shared {net net' : Netlist} (same : net'.shared = net.shared) : net.Extends net' where
  kept := by
    rw [same]
    exact fun entry => entry
  absent := by
    rw [same]
    exact fun unknown _ => unknown

/-- A gate that is built gets the entry of its shape if there is none. -/
theorem shared_build {net net' : Netlist} {shape : Shape} {id : GateId} (built : net.build shape = .ok (id, net'))
    (s : Shape) : net'.shared[s]? =
      if shape = s ∧ shape.isShareable = true ∧ net.shared[s]? = none then some id else net.shared[s]? := by
  obtain ⟨mid, b, rfl⟩ := build_spec built
  have before : (mid.refresh id [] none).shared = net.shared := b.shared
  unfold register
  split
  · next shareable =>
    simp only [TreeMap.getElem?_insertIfNew, LawfulEqCmp.compare_eq_iff_eq, before]
    refine if_congr ⟨fun new => ?_, fun new => ⟨new.1, ?_⟩⟩ rfl rfl
    · obtain ⟨rfl, absent⟩ := new
      exact ⟨rfl, shareable, TreeMap.getElem?_eq_none absent⟩
    · obtain ⟨rfl, _, absent⟩ := new
      intro known
      rw [TreeMap.mem_iff_isSome_getElem?] at known
      rw [show net.shared[shape]? = none from absent] at known
      cases known
  · next unshareable =>
    rw [before, if_neg]
    rintro ⟨_, shareable, _⟩
    exact unshareable shareable

theorem shared_build_self {net net' : Netlist} {shape : Shape} {id : GateId}
    (built : net.build shape = .ok (id, net')) (shareable : shape.isShareable = true)
    (unknown : net.shared[shape]? = none) : net'.shared[shape]? = some id := by
  rw [shared_build built, if_pos ⟨rfl, shareable, unknown⟩]

/-- A shape may be built, unless it would be found from then on where an inverter was given out before. -/
theorem Extends.build {net net' : Netlist} {shape : Shape} {id : GateId} (built : net.build shape = .ok (id, net'))
    (alone : shape.isShareable = true → net.complement? shape = none) : net.Extends net' where
  kept := by
    intro s id' entry
    rw [shared_build built, if_neg]
    · exact entry
    · rintro ⟨_, _, unknown⟩
      rw [entry] at unknown
      cases unknown
  absent := by
    intro s unknown complement
    rw [shared_build built, if_neg]
    · exact unknown
    · rintro ⟨rfl, shareable, _⟩
      exact complement (alone shareable)

theorem complement?_nary_not (net : Netlist) (xs : List GateId) : net.complement? (.nary .not xs) = none := rfl

theorem Extends.addGate {net net' : Netlist} {shape : Shape} {id : GateId}
    (added : net.addGate shape = .ok (id, net')) : net.Extends net' := by
  unfold Netlist.addGate at added
  split at added
  · split at added
    · cases added
      exact .of_shared rfl
    · rcases findOrBuild_cases added with ⟨_, rfl⟩ | built
      · exact .of_shared rfl
      · exact .build built fun _ => complement?_nary_not net _
    · next alone => exact .build added fun _ => alone
  · next unshareable => exact .build added fun shareable => absurd shareable unshareable

/-- Operations that only add: a placeholder, a gate, or a part. -/
def Operation.IsAddition : Operation → Prop
  | .addPlaceholder | .addGate _ | .addPart => True
  | _ => False

theorem Extends.perform {net net' : Netlist} {op : Operation} (addition : op.IsAddition)
    (performed : net.perform op = .ok net') : net.Extends net' := by
  cases op with
  | addPlaceholder =>
    obtain ⟨⟨id, mid⟩, added, performed⟩ := Result.bind_eq_ok.mp performed
    cases performed
    exact .build added fun shareable => by cases shareable
  | addGate shape =>
    obtain ⟨⟨id, mid⟩, added, performed⟩ := Result.bind_eq_ok.mp performed
    cases performed
    exact .addGate added
  | addPart =>
    cases performed
    exact .of_shared rfl
  | _ => cases addition

/-! ## Answers -/

/-- The table answers a shape by this gate: it has an entry for the shape, or only for the complement and then also for
the inverter of the complementary gate. -/
def Answers (net : Netlist) (shape : Shape) (id : GateId) : Prop :=
  net.shared[shape]? = some id ∨ net.shared[shape]? = none ∧
    ∃ base, net.complement? shape = some base ∧ net.shared[Shape.nary .not [base]]? = some id

/-- What the table answers is given out, and nothing is built. -/
theorem Answers.addGate {net : Netlist} {shape : Shape} {id : GateId} (h : net.Answers shape id)
    (shareable : shape.isShareable = true) : net.addGate shape = .ok (id, net) := by
  unfold Netlist.addGate
  rw [if_pos shareable]
  rcases h with entry | ⟨unknown, base, complement, inverter⟩
  · rw [entry]
  · rw [unknown, complement]
    show net.findOrBuild _ = _
    rw [findOrBuild, inverter]

theorem Extends.complement? {net net' : Netlist} (h : net.Extends net') {shape : Shape} {base : GateId}
    (found : net.complement? shape = some base) : net'.complement? shape = some base := by
  obtain ⟨c, isComplement, entry⟩ := Option.bind_eq_some_iff.mp found
  exact Option.bind_eq_some_iff.mpr ⟨c, isComplement, h.kept entry⟩

/-- ONE ADDITION keeps every answer. -/
theorem Answers.extend {net net' : Netlist} {shape : Shape} {id : GateId} (h : net.Answers shape id)
    (more : net.Extends net') : net'.Answers shape id := by
  rcases h with entry | ⟨unknown, base, complement, inverter⟩
  · exact .inl (more.kept entry)
  · refine .inr ⟨more.absent unknown ?_, base, more.complement? complement, more.kept inverter⟩
    rw [complement]
    exact Option.some_ne_none base

/-- What was given out is the answer from then on. -/
theorem answers_addGate {net net' : Netlist} {shape : Shape} {id : GateId} (shareable : shape.isShareable = true)
    (added : net.addGate shape = .ok (id, net')) : net'.Answers shape id := by
  have more := Extends.addGate added
  unfold Netlist.addGate at added
  rw [if_pos shareable] at added
  split at added
  · next entry =>
    cases added
    exact .inl entry
  · next base unknown complement =>
    have still := more.absent unknown (by rw [complement]; exact Option.some_ne_none base)
    refine .inr ⟨still, base, more.complement? complement, ?_⟩
    unfold findOrBuild at added
    split at added
    · next entry =>
      cases added
      exact entry
    · next new => exact shared_build_self added rfl new
  · next unknown _ => exact .inl (shared_build_self added shareable unknown)

/-- THE SAME GATE AGAIN. After any number of additions a shape is answered by the gate that was given out for it, and
nothing is built. -/
theorem addGate_stable {net net₁ net₂ : Netlist} {shape : Shape} {id : GateId} {ops : List Operation}
    (shareable : shape.isShareable = true) (first : net.addGate shape = .ok (id, net₁))
    (additions : ∀ op ∈ ops, op.IsAddition) (later : ops.foldlM perform net₁ = .ok net₂) :
    net₂.addGate shape = .ok (id, net₂) := by
  have answers : net₂.Answers shape id := by
    refine Result.foldlM_induction (fun net => net.Answers shape id) ops later (answers_addGate shareable first) ?_
    intro net op net' mem before performed
    exact before.extend (.perform (additions op mem) performed)
  exact answers.addGate shareable

/-- Both forms of the disjunction once more, the inverter by itself, a conjunction with its negation, a placeholder
and a part. -/
def moreAdditions : List Operation :=
  [.addGate (.nary .or [⟨0⟩, ⟨1⟩]), .addGate (.nary .not [⟨3⟩]), .addPart, .addGate (.nary .nor [⟨0⟩, ⟨1⟩]),
    .addPlaceholder, .addGate (.nary .and [⟨3⟩, ⟨4⟩]), .addGate (.nary .nand [⟨3⟩, ⟨4⟩])]

/-- For the negated disjunction the inverter of the disjunction is given out, before and after. -/
theorem differentGates_negated_twice : ∃ net₁ net₂ : Netlist,
    differentGates.addGate (.nary .nor [⟨0⟩, ⟨1⟩]) = .ok (⟨4⟩, net₁) ∧ moreAdditions.foldlM perform net₁ = .ok net₂ ∧
      net₂.size = 8 ∧ net₂.addGate (.nary .nor [⟨0⟩, ⟨1⟩]) = .ok (⟨4⟩, net₂) := by
  obtain ⟨⟨id, net₁⟩, first, facts⟩ : ∃ r, differentGates.addGate (.nary .nor [⟨0⟩, ⟨1⟩]) = .ok r ∧
      (r.1 == ⟨4⟩ && (moreAdditions.foldlM perform r.2).toOption.any fun net₂ => net₂.size == 8) = true :=
    Result.exists_ok_of_any (by decide +kernel)
  obtain ⟨isFour, run⟩ := Bool.and_eq_true_iff.mp facts
  obtain rfl : id = ⟨4⟩ := eq_of_beq isFour
  obtain ⟨net₂, later, size⟩ := Result.exists_ok_of_any run
  refine ⟨net₁, net₂, first, later, eq_of_beq size, addGate_stable rfl first ?_ later⟩
  intro op mem
  simp only [moreAdditions, List.mem_cons, List.not_mem_nil, or_false] at mem
  rcases mem with rfl | rfl | rfl | rfl | rfl | rfl | rfl <;> trivial

end Netlist

end LogicNet
