import LogicNet.Proofs.Netlist.Growing
import LogicNet.Proofs.Netlist.Operations

/-!
# Sharing

A netlist keeps a table from shapes to gates, so that a shape is built only once. It is never stale
(`shared_never_stale`): whatever was done, an entry leads to a gate of its shape, and so `addGate` gives out a gate that
computes what was asked for.

The table has ONE entry for a shape, and several gates may have it: `setGate` and imports do not share. When the gate
that the entry leads to is changed or removed, the entry goes with it, and the other gates of the shape can no longer
be found: they are HIDDEN (`Hides`).

**The law** (`adds_no_duplicate_until_hidden`): as long as no operation hides a gate, `addGate` builds no gate of a
shape that is there. The first operation that hides one ends this, and no other operation can.

**What it does not establish.** That no gate is hidden: `hidden_gate_is_duplicated` removes one of two equal gates, and
the other one is built a second time.
-/

namespace LogicNet

open Std

namespace Netlist

/-! ## Entries -/

theorem Consistent.holds {net : Netlist} (h : net.Consistent) {id : GateId} {g : Gate} (found : net.gate? id = some g) :
    Holds net.gate? g := by
  rw [Holds, h.wired.keyed found, found]
  rfl

theorem mem_register {net : Netlist} {g : Gate} {s : Shape} :
    s ∈ (net.register g).shared ↔ s ∈ net.shared ∨ g.toShape = s ∧ s.isShareable = true := by
  unfold register
  split
  · next shareable =>
    rw [TreeMap.mem_insertIfNew, LawfulEqCmp.compare_eq_iff_eq, or_comm, and_iff_left_of_imp]
    rintro rfl
    exact shareable
  · next unshareable =>
    rw [or_iff_left]
    rintro ⟨rfl, shareable⟩
    exact unshareable shareable

/-- Only the entry that leads to the gate goes with it. -/
theorem mem_unregister {net : Netlist} (h : Shares net.gate? net.shared) {g : Gate} (held : Holds net.gate? g)
    {s : Shape} : s ∈ (net.unregister g).shared ↔ s ∈ net.shared ∧ net.shared[s]? ≠ some g.id := by
  constructor
  · intro mem
    obtain ⟨id, found⟩ := Option.isSome_iff_exists.mp (TreeMap.mem_iff_isSome_getElem?.mp mem)
    obtain ⟨before, other⟩ := getElem?_unregister h held found
    refine ⟨TreeMap.mem_iff_isSome_getElem?.mpr (by rw [before]; rfl), ?_⟩
    rw [before, ne_eq, Option.some.injEq]
    exact other
  · intro known
    obtain ⟨mem, other⟩ := known
    unfold unregister
    split
    · next found =>
      rw [TreeMap.mem_erase, ne_eq, LawfulEqCmp.compare_eq_iff_eq]
      refine ⟨?_, mem⟩
      rintro rfl
      exact other (eq_of_beq found)
    · exact mem

/-- Every gate of a shape that is built only once can be found under it, or another one can. -/
def Findable (net : Netlist) : Prop :=
  ∀ (x : GateId) (s : Shape), net.shape? x = some s → s.isShareable = true → s ∈ net.shared

theorem Findable.congr {net net' : Netlist} (h : net.Findable) (gates : net'.gate? = net.gate?)
    (shared : net'.shared = net.shared) : net'.Findable := by
  intro x s found shareable
  rw [shape?_congr gates] at found
  rw [shared]
  exact h x s found shareable

/-! ## One gate changes -/

/-- Gate `id` has this shape now, or it is gone. Of the entries only those to the gate itself have changed. -/
structure Replaces (net net' : Netlist) (id : GateId) (now : Option Shape) : Prop where
  shapes : net'.shape? = Function.update net.shape? id now
  entries : ∀ s, s ∈ net'.shared ↔
    s ∈ net.shared ∧ net.shared[s]? ≠ some id ∨ now = some s ∧ s.isShareable = true

/-- The gate is the one found under its shape, it is about to lose this shape, and another gate has it too. -/
def Hides (net : Netlist) (id : GateId) (now : Option Shape) : Prop :=
  ∃ s, net.shape? id = some s ∧ now ≠ some s ∧ net.shared[s]? = some id ∧
    ∃ x ∈ net.gates, x ≠ id ∧ net.shape? x = some s

instance (net : Netlist) (id : GateId) (now : Option Shape) : Decidable (net.Hides id now) :=
  inferInstanceAs (Decidable (∃ s, net.shape? id = some s ∧ now ≠ some s ∧ net.shared[s]? = some id ∧
    ∃ x ∈ net.gates, x ≠ id ∧ net.shape? x = some s))

/-- ONE CHANGE. The gates can still be found, unless the change hides one. -/
theorem Replaces.findable_iff {net net' : Netlist} {id : GateId} {now : Option Shape} (h : Replaces net net' id now)
    (consistent : net.Consistent) (findable : net.Findable) : net'.Findable ↔ ¬net.Hides id now := by
  constructor
  · intro findable' hides
    obtain ⟨s, _, changes, entry, x, _, other, same⟩ := hides
    obtain ⟨shareable, _⟩ := consistent.shared s id entry
    have now : net'.shape? x = some s := by rw [h.shapes, Function.update_of_ne other, same]
    rcases (h.entries s).mp (findable' x s now shareable) with ⟨_, elsewhere⟩ | ⟨itself, _⟩
    · exact elsewhere entry
    · exact changes itself
  · intro shown x s found shareable
    refine (h.entries s).mpr ?_
    rw [h.shapes, Function.update_apply] at found
    split at found
    · exact .inr ⟨found, shareable⟩
    · next other =>
      have known := findable x s found shareable
      by_cases entry : net.shared[s]? = some id
      · -- The entry is lost, so the gate itself must have kept the shape.
        have inside : x ∈ net.gates := consistent.mem_gates_iff_shape?.mpr ⟨s, found⟩
        by_cases changes : now = some s
        · exact .inr ⟨changes, shareable⟩
        · exact absurd ⟨s, (consistent.shared s id entry).2, changes, entry, x, inside, other, found⟩ shown
      · exact .inl ⟨known, entry⟩

section Edits

variable {net net' : Netlist} (consistent : net.Consistent) {id : GateId} {shape : Shape}
include consistent

theorem replaces_build (built : net.build shape = .ok (id, net')) : Replaces net net' id (some shape) := by
  obtain ⟨_, reshapes⟩ := reshapes_build built
  refine ⟨reshapes.shapes, fun s => ?_⟩
  have elsewhere : net.shared[s]? ≠ some id := by
    intro entry
    have known : net.shape? id = some s := (consistent.shared s id entry).2
    rw [consistent.absent_of_build built] at known
    cases known
  obtain ⟨mid, b, rfl⟩ := build_spec built
  rw [mem_register, show (mid.refresh id [] none).shared = net.shared from b.shared, and_iff_left elsewhere,
    Option.some.injEq]

theorem replaces_setGate (set : net.setGate id shape = .ok net') : Replaces net net' id (some shape) := by
  have reshapes := reshapes_setGate consistent set
  refine ⟨reshapes.shapes, fun s => ?_⟩
  obtain ⟨old, g, mid, rfl, c, rfl⟩ := setGate_spec set
  have held : Holds net.gate? old := consistent.holds c.found
  rw [mem_register, show (mid.refresh id old.inputLinks none).shared = (net.unregister old).shared from c.shared,
    mem_unregister consistent.shared held, consistent.wired.keyed c.found, Option.some.injEq]

theorem replaces_removeGate (removed : net.removeGate id = .ok net') : Replaces net net' id none := by
  have removes := removes_removeGate consistent removed
  refine ⟨removes.shapes, fun s => ?_⟩
  obtain ⟨old, found, ⟨_, rfl⟩ | ⟨_, mid, r, rfl⟩⟩ := removeGate_spec removed
  · -- Nothing is left, so every entry led to the gate that was removed.
    refine iff_of_false (by simp [clear]) ?_
    rintro (⟨known, elsewhere⟩ | ⟨absurd, _⟩)
    · obtain ⟨y, entry⟩ := Option.isSome_iff_exists.mp (TreeMap.mem_iff_isSome_getElem?.mp known)
      have other : y ≠ id := by
        rintro rfl
        exact elsewhere entry
      have gone := congrFun removes.shapes y
      rw [Function.update_of_ne other, show net.shape? y = some s from (consistent.shared s y entry).2] at gone
      cases gone
    · cases absurd
  · have held : Holds net.gate? old := consistent.holds found
    rw [show (mid.refresh id (old.inputLinks ++ old.fanout) (net.partOf? id)).shared = (net.unregister old).shared
      from r.shared, mem_unregister consistent.shared held, consistent.wired.keyed found]
    simp

/-- A gate that was not there, or is not built only once, hides nothing. -/
theorem not_hides_of_unshareable (away : ∀ s, net.shape? id = some s → s.isShareable = false) (now : Option Shape) :
    ¬net.Hides id now := by
  intro hides
  obtain ⟨s, found, _, entry, _⟩ := hides
  have shareable := (consistent.shared s id entry).1
  rw [away s found] at shareable
  cases shareable

theorem Findable.build (findable : net.Findable) (built : net.build shape = .ok (id, net')) : net'.Findable := by
  refine ((replaces_build consistent built).findable_iff consistent findable).mpr ?_
  refine not_hides_of_unshareable consistent (fun s found => ?_) _
  rw [consistent.absent_of_build built] at found
  cases found

end Edits

/-! ## Operations -/

theorem shared_moveGate {net net' : Netlist} (consistent : net.Consistent) {id : GateId} {dest : Option Nat}
    (moved : net.moveGate id dest = .ok net') : net'.shared = net.shared := by
  obtain ⟨g, found, _, ⟨_, rfl⟩ | ⟨_, rfl⟩⟩ := moveGate_spec moved
  · rfl
  · exact shared_rehome net id g dest

theorem Findable.moveGate {net net' : Netlist} (h : net.Findable) (consistent : net.Consistent) {id : GateId}
    {dest : Option Nat} (moved : net.moveGate id dest = .ok net') : net'.Findable :=
  h.congr (moves_moveGate consistent moved).gates (shared_moveGate consistent moved)

theorem Findable.sort {net net' : Netlist} (h : net.Findable) (sorted : net.sort = .ok net') : net'.Findable := by
  rcases sort_cases sorted with ⟨_, rfl⟩ | ⟨_, order, orders, _, rfl⟩
  · exact h
  · exact h.congr rfl rfl

/-- Where no gate that has a function is changed, none is hidden. -/
theorem Builds.findable {net net' : Netlist} (h : net.Builds net') (consistent : net.Consistent)
    (findable : net.Findable) : net'.Findable := by
  induction h with
  | refl => exact findable
  | place builds added ih => exact ih.build (builds.consistent consistent) added
  | fill id shape builds blank set ih =>
    have now := builds.consistent consistent
    refine ((replaces_setGate now set).findable_iff now ih).mpr (not_hides_of_unshareable now (fun s found => ?_) _)
    rw [blank] at found
    cases found
    rfl
  | addPart _ ih => exact ih.congr rfl rfl
  | moveGate id dest builds moved ih => exact ih.moveGate (builds.consistent consistent) moved

theorem findable_unused (next : Nat) : ({ nextId := next } : Netlist).Findable := by
  intro x s found
  simp [shape?, gate?] at found

theorem Findable.addGate {net net' : Netlist} (h : net.Findable) (consistent : net.Consistent) {shape : Shape}
    {id : GateId} (added : net.addGate shape = .ok (id, net')) : net'.Findable := by
  rcases addGate_eq_or_build consistent added with rfl | ⟨s, built⟩
  · exact h
  · exact h.build consistent built

/-- The operation hides a gate: only a change and a removal can. -/
def Operation.Hides (net : Netlist) : Operation → Prop
  | .setGate id shape => net.Hides id (some shape)
  | .removeGate id => net.Hides id none
  | _ => False

/-- ONE OPERATION. The gates can still be found, unless it hides one. -/
theorem Findable.perform_iff {net net' : Netlist} (h : net.Findable) (reachable : net.Reachable) {op : Operation}
    (admissible : op.Admissible) (performed : net.perform op = .ok net') : net'.Findable ↔ ¬op.Hides net := by
  have consistent := reachable.consistent
  cases op with
  | setGate id shape => exact (replaces_setGate consistent performed).findable_iff consistent h
  | removeGate id => exact (replaces_removeGate consistent performed).findable_iff consistent h
  | addPlaceholder =>
    obtain ⟨_, added, performed⟩ := Result.bind_eq_ok.mp performed
    cases performed
    exact iff_of_true (h.build consistent added) not_false
  | addGate shape =>
    obtain ⟨_, added, performed⟩ := Result.bind_eq_ok.mp performed
    cases performed
    exact iff_of_true (h.addGate consistent added) not_false
  | moveGate id dest => exact iff_of_true (h.moveGate consistent performed) not_false
  | mergeParts left right =>
    obtain ⟨_, _, performed⟩ := Result.bind_eq_ok.mp performed
    obtain ⟨_, _, performed⟩ := Result.bind_eq_ok.mp performed
    obtain ⟨_, _, performed⟩ := Result.bind_eq_ok.mp performed
    cases performed
    exact iff_of_true (h.congr rfl rfl) not_false
  | groupOrphans =>
    obtain ⟨_, grouped, performed⟩ := Result.bind_eq_ok.mp performed
    obtain ⟨_, _, grouped⟩ := Result.bind_eq_ok.mp grouped
    cases grouped
    cases performed
    exact iff_of_true (h.congr rfl rfl) not_false
  | importNet other =>
    obtain ⟨_, imported, performed⟩ := Result.bind_eq_ok.mp performed
    cases performed
    have builds := builds_importNet consistent (Reachable.consistent admissible) imported
    exact iff_of_true (builds.findable consistent h) not_false
  | copy =>
    obtain ⟨_, copied, performed⟩ := Result.bind_eq_ok.mp performed
    cases performed
    obtain ⟨first, mid, builds, sorted⟩ := builds_copy consistent copied
    have built := builds.findable (consistent_unused first) (findable_unused first)
    exact iff_of_true (built.sort sorted) not_false
  | clear =>
    cases performed
    exact iff_of_true (findable_unused _) not_false
  | sort => exact iff_of_true (h.sort performed) not_false
  | addPart | flatten | removeEmptyParts =>
    cases performed
    exact iff_of_true (h.congr rfl rfl) not_false

/-! ## Duplicates -/

/-- A shape that is there and is built only once is not built again: `addGate` gives out a gate that has it. -/
def NeverDuplicates (net : Netlist) : Prop :=
  ∀ (x : GateId) (shape : Shape), net.shape? x = some shape → shape.isShareable = true →
    ∃ id, net.addGate shape = .ok (id, net) ∧ net.shape? id = some shape

theorem neverDuplicates_iff_findable {net : Netlist} (consistent : net.Consistent) :
    net.NeverDuplicates ↔ net.Findable := by
  constructor
  · intro never x s known shareable
    obtain ⟨id, added, found⟩ := never x s known shareable
    rcases addGate_cases consistent added with given | ⟨base, c, complement, _, given⟩
    · rcases findOrBuild_cases given with ⟨entry, _⟩ | built
      · exact TreeMap.mem_iff_isSome_getElem?.mpr (by rw [entry]; rfl)
      · rw [consistent.absent_of_build built] at found
        cases found
    · -- The gate given out is an inverter, and an inverter has no complement.
      have inverter : net.shape? id = some (.nary .not [base]) := by
        rcases findOrBuild_cases given with ⟨entry, _⟩ | built
        · exact (consistent.shared _ id entry).2
        · exact (reshapes_build built).2.self
      rw [found, Option.some.injEq] at inverter
      rw [inverter] at complement
      cases complement
  · intro findable x s known shareable
    obtain ⟨id, entry⟩ := Option.isSome_iff_exists.mp
      (TreeMap.mem_iff_isSome_getElem?.mp (findable x s known shareable))
    refine ⟨id, ?_, (consistent.shared s id entry).2⟩
    unfold addGate
    rw [if_pos shareable, entry]

/-- Made from the empty netlist by operations that returned and hid no gate. -/
inductive OpenlyReachable : Netlist → Prop
  | empty : OpenlyReachable .empty
  | step {net net' : Netlist} (op : Operation) : OpenlyReachable net → op.Admissible → ¬op.Hides net →
      net.perform op = .ok net' → OpenlyReachable net'

theorem OpenlyReachable.reachable {net : Netlist} (h : net.OpenlyReachable) : net.Reachable := by
  induction h with
  | empty => exact .empty
  | step op _ admissible _ performed ih => exact ih.perform admissible performed

theorem OpenlyReachable.findable {net : Netlist} (h : net.OpenlyReachable) : net.Findable := by
  induction h with
  | empty => exact findable_unused 0
  | step op before admissible shown performed ih => exact (ih.perform_iff before.reachable admissible performed).mpr shown

/-- NO DUPLICATES UNTIL ONE IS HIDDEN. As long as no operation hid a gate, `addGate` builds no gate of a shape that is
there. After one more operation the same holds exactly if this operation hides none. -/
theorem adds_no_duplicate_until_hidden {net : Netlist} (h : net.OpenlyReachable) : net.NeverDuplicates ∧
    ∀ op net', op.Admissible → net.perform op = .ok net' → (net'.NeverDuplicates ↔ ¬op.Hides net) := by
  refine ⟨(neverDuplicates_iff_findable h.reachable.consistent).mpr h.findable, ?_⟩
  intro op net' admissible performed
  rw [neverDuplicates_iff_findable (h.reachable.perform admissible performed).consistent]
  exact h.findable.perform_iff h.reachable admissible performed

theorem openlyReachable_made (shapes : List Shape) : (made shapes).OpenlyReachable := by
  refine made_induction .empty (fun {_ _ shape _} before added => ?_) shapes
  exact .step (.addGate shape) before trivial not_false (Result.bind_eq_ok.mpr ⟨_, added, rfl⟩)

/-- Two inputs, their conjunction and their disjunction. -/
def differentGates : Netlist :=
  made [.nary .input [], .nary .input [], .nary .and [⟨0⟩, ⟨1⟩], .nary .or [⟨0⟩, ⟨1⟩]]

/-- The disjunction was made a conjunction as well. -/
def equalGates : Netlist := (differentGates.setGate ⟨3⟩ (.nary .and [⟨0⟩, ⟨1⟩])).toOption.getD .empty

theorem openlyReachable_equalGates : equalGates.OpenlyReachable := by
  have shown : ¬differentGates.Hides ⟨3⟩ (some (.nary .and [⟨0⟩, ⟨1⟩])) := by decide +kernel
  obtain ⟨net, set⟩ : ∃ net, differentGates.setGate ⟨3⟩ (.nary .and [⟨0⟩, ⟨1⟩]) = .ok net :=
    Result.exists_ok (by decide +kernel)
  rw [equalGates, set]
  exact .step (.setGate ⟨3⟩ (.nary .and [⟨0⟩, ⟨1⟩])) (openlyReachable_made _) trivial shown set

/-- Of two equal gates either is found for the other, until the one that is found is removed. -/
theorem equalGates_shared_until_removed : equalGates.NeverDuplicates ∧
    ∃ net', equalGates.removeGate ⟨2⟩ = .ok net' ∧ ¬net'.NeverDuplicates := by
  obtain ⟨never, next⟩ := adds_no_duplicate_until_hidden openlyReachable_equalGates
  obtain ⟨net', removed⟩ : ∃ net', equalGates.removeGate ⟨2⟩ = .ok net' := Result.exists_ok (by decide +kernel)
  have hides : equalGates.Hides ⟨2⟩ none := by decide +kernel
  exact ⟨never, net', removed, fun again => (next (.removeGate ⟨2⟩) net' trivial removed).mp again hides⟩

/-- A conjunction is there and a second one is built, after a third one was removed. -/
theorem hidden_gate_is_duplicated : ∃ net : Netlist, net.Reachable ∧
    net.shape? ⟨3⟩ = some (.nary .and [⟨0⟩, ⟨1⟩]) ∧ (Shape.nary .and [⟨0⟩, ⟨1⟩]).isShareable = true ∧
    ∃ id net', net.addGate (.nary .and [⟨0⟩, ⟨1⟩]) = .ok (id, net') ∧ net.shape? id = none := by
  obtain ⟨net, removed, passes⟩ : ∃ net, equalGates.removeGate ⟨2⟩ = .ok net ∧
      (net.shape? ⟨3⟩ == some (.nary .and [⟨0⟩, ⟨1⟩]) && (net.addGate (.nary .and [⟨0⟩, ⟨1⟩])).toOption.any
        fun added => net.shape? added.1 == none) = true := Result.exists_ok_of_any (by decide +kernel)
  obtain ⟨there, duplicated⟩ := Bool.and_eq_true_iff.mp passes
  obtain ⟨⟨id, net'⟩, added, new⟩ := Result.exists_ok_of_any duplicated
  exact ⟨net, .removeGate ⟨2⟩ openlyReachable_equalGates.reachable removed, eq_of_beq there, rfl, id, net', added,
    eq_of_beq new⟩

/-! ## What is given out -/

/-- Gate `id` was given out for this shape. At most this gate is new and all others are as they were. It has the shape,
or it inverts a gate of the complementary shape, and either way it has the value of the shape. -/
structure GivesOut (net : Netlist) (shape : Shape) (id : GateId) (net' : Netlist) : Prop where
  kept : ∀ {x : GateId} {s : Shape}, net.shape? x = some s → net'.shape? x = some s
  only : ∀ {x : GateId} {s : Shape}, net'.shape? x = some s → net.shape? x = some s ∨ x = id
  asked : net'.shape? id = some shape ∨ ∃ base c, shape.complement = some c ∧
    net'.shape? id = some (.nary .not [base]) ∧ net'.shape? base = some c
  value : shape.isFree = false → ∀ val, net'.view.Valuation val → val id = shape.value val

/-- A gate that was found or built has the shape, and no other gate is touched. -/
theorem findOrBuild_spec {net net' : Netlist} (consistent : net.Consistent) {shape : Shape} {id : GateId}
    (given : net.findOrBuild shape = .ok (id, net')) : net'.shape? id = some shape ∧
      (∀ {x s}, net.shape? x = some s → net'.shape? x = some s) ∧
      ∀ {x s}, net'.shape? x = some s → net.shape? x = some s ∨ x = id := by
  rcases findOrBuild_cases given with ⟨entry, rfl⟩ | built
  · exact ⟨(consistent.shared shape id entry).2, fun known => known, fun known => .inl known⟩
  · obtain ⟨_, reshapes⟩ := reshapes_build built
    refine ⟨reshapes.self, fun {x s} known => ?_, fun {x s} now => ?_⟩
    · have other : x ≠ id := by
        rintro rfl
        rw [consistent.absent_of_build built] at known
        cases known
      exact (reshapes.other other).trans known
    · rcases reshapes.before now with ⟨same, _⟩ | ⟨_, known⟩
      · exact .inr same
      · exact .inl known

theorem givesOut_addGate {net net' : Netlist} (consistent : net.Consistent) {shape : Shape} {id : GateId}
    (added : net.addGate shape = .ok (id, net')) : net.GivesOut shape id net' := by
  have now : net'.Consistent := consistent.addGate added
  rcases addGate_cases consistent added with given | ⟨base, c, complement, known, given⟩
  · obtain ⟨found, kept, only⟩ := findOrBuild_spec consistent given
    refine ⟨kept, only, .inl found, fun driven val valuation => ?_⟩
    rcases now.valuation_iff_shape?.mp valuation id shape found with free | value
    · rw [driven] at free
      cases free
    · exact value
  · obtain ⟨found, kept, only⟩ := findOrBuild_spec consistent given
    refine ⟨kept, only, .inr ⟨base, c, complement, found, kept known⟩, fun driven val valuation => ?_⟩
    obtain ⟨logic, source⟩ := Shape.complement_spec complement
    rw [Shape.isFree, Bool.or_eq_false_iff] at driven
    calc
      val id = !val base := by
        rw [now.value_of_shape? valuation found rfl rfl, Shape.value_nary]
        rfl
      _ = !c.value val := by
        rw [now.value_of_shape? valuation (kept known) logic (source.trans driven.1)]
      _ = shape.value val := (Shape.value_complement complement val).symm

/-- The number of inputs suits the function, no driver is an output, and there are numbers left for a gate above all
drivers. -/
structure Accepts (net : Netlist) (shape : Shape) : Prop where
  arity : shape.hasArity = true
  outputs : ∀ s ∈ shape.inputs, ∀ g, net.gate? s.driver = some g → g.isOutput = false
  drivers : ∀ s ∈ shape.inputs, s.driver.index + 1 < GateId.largest
  room : net.nextId < GateId.largest

theorem exists_reserve {next : Nat} {inputs : List Signal} (room : next < GateId.largest)
    (drivers : ∀ s ∈ inputs, s.driver.index + 1 < GateId.largest) :
    ∃ n, reserve next inputs = .ok n ∧ n < GateId.largest := by
  induction inputs generalizing next with
  | nil => exact ⟨next, rfl, room⟩
  | cons s inputs ih =>
    obtain ⟨first, rest⟩ := List.forall_mem_cons.mp drivers
    have step : reserve next (s :: inputs) =
        (if next ≤ s.driver.index then following s.driver.index else .ok next) >>= (reserve · inputs) := rfl
    rw [step]
    split
    · rw [following, if_pos (Nat.lt_of_succ_lt first)]
      exact ih first rest
    · exact ih room rest

theorem Accepts.exists_build {net : Netlist} {shape : Shape} (h : net.Accepts shape) :
    ∃ id net', net.build shape = .ok (id, net') := by
  obtain ⟨n, reserved, room⟩ := exists_reserve h.room h.drivers
  obtain ⟨_, below⟩ := reserve_spec reserved
  -- It makes no difference whether the numbers up to the drivers are reserved before or now.
  have early : net.build shape = ({ net with nextId := n } : Netlist).build shape := by
    unfold build
    rw [reserved, reserve_of_lt below]
  obtain ⟨net', built, _⟩ := @Netlist.exists_build { net with nextId := n } shape h.arity
    (fun s read => ⟨below s read, h.outputs s read⟩) room
  exact ⟨_, net', early.trans built⟩

theorem Accepts.exists_addGate {net : Netlist} {shape : Shape} (h : net.Accepts shape) (consistent : net.Consistent) :
    ∃ id net', net.addGate shape = .ok (id, net') := by
  unfold addGate
  split
  · split
    · exact ⟨_, _, rfl⟩
    · next base _ complement =>
      obtain ⟨c, _, known⟩ := Option.bind_eq_some_iff.mp complement
      obtain ⟨shareable, found⟩ := consistent.shared c base known
      unfold findOrBuild
      split
      · exact ⟨_, _, rfl⟩
      · have plain : c.isOutput = false := by
          rw [Shape.isShareable, Bool.and_eq_true_iff, Bool.not_eq_true'] at shareable
          exact shareable.1
        obtain ⟨net', built, _⟩ := @Netlist.exists_build net (.nary .not [base]) rfl (by
          intro s read
          rw [List.mem_singleton.mp read]
          exact consistent.canDrive_of_shape? found plain) h.room
        exact ⟨_, net', built⟩
    · exact h.exists_build
  · exact h.exists_build

/-- NEVER STALE. Whatever was done to a netlist, each entry leads to a gate of its shape. A shape that can be taken in is
taken in, and the gate that is given out for it computes it. -/
theorem shared_never_stale {net : Netlist} (h : net.Reachable) :
    (∀ (s : Shape) (id : GateId), net.shared[s]? = some id → net.shape? id = some s) ∧
    (∀ shape, net.Accepts shape → ∃ id net', net.addGate shape = .ok (id, net')) ∧
    ∀ shape id net', net.addGate shape = .ok (id, net') → net.GivesOut shape id net' := by
  refine ⟨fun s id entry => (h.consistent.shared s id entry).2, ?_, ?_⟩
  · intro shape accepts
    exact accepts.exists_addGate h.consistent
  · intro shape id net' added
    exact givesOut_addGate h.consistent added

/-- For the negated disjunction an inverter of the disjunction is given out, and its value is the negated one. -/
theorem differentGates_negated : ∃ id net', differentGates.addGate (.nary .nor [⟨0⟩, ⟨1⟩]) = .ok (id, net') ∧
    net'.shape? id = some (.nary .not [⟨3⟩]) ∧ net'.shape? ⟨3⟩ = some (.nary .or [⟨0⟩, ⟨1⟩]) ∧
    ∀ val, net'.view.Valuation val → val id = !(val ⟨0⟩ || val ⟨1⟩) := by
  obtain ⟨entries, returns, gives⟩ := shared_never_stale (reachable_made _ : differentGates.Reachable)
  have accepts : differentGates.Accepts (.nary .nor [⟨0⟩, ⟨1⟩]) := by
    refine ⟨rfl, fun s read g found => ?_, by decide, by decide +kernel⟩
    have all : differentGates.view.allGates (fun _ g => !g.isOutput) = true := by decide +kernel
    have inside := (reachable_made _ : differentGates.Reachable).consistent.mem_view_gates.mpr ⟨g, found⟩
    simpa using View.of_allGates all inside found
  obtain ⟨id, net', added⟩ := returns _ accepts
  have given := gives _ id net' added
  have disjunction : differentGates.shape? ⟨3⟩ = some (.nary .or [⟨0⟩, ⟨1⟩]) :=
    entries _ ⟨3⟩ (by decide +kernel)
  have inverter : ∃ r, differentGates.addGate (.nary .nor [⟨0⟩, ⟨1⟩]) = .ok r ∧
      (r.2.shape? r.1 == some (.nary .not [⟨3⟩])) = true := Result.exists_ok_of_any (by decide +kernel)
  obtain ⟨r, added', found⟩ := inverter
  obtain rfl : r = (id, net') := Except.ok.inj (added'.symm.trans added)
  refine ⟨id, net', added, eq_of_beq found, given.kept disjunction, fun val valuation => ?_⟩
  rw [given.value rfl val valuation, Shape.value_nary]
  simp [GateFn.evalBit]

end Netlist

end LogicNet
