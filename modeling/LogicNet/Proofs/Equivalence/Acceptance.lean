import LogicNet.Proofs.Equivalence.Coverage
import LogicNet.Proofs.Equivalence.Miter

/-!
# Which miters are built

Before two netlists are combined they are validated: they must have equally many source links and equally many target
links, and every link of the LEFT netlist must be bound. The links of the right netlist are not looked up.

**The law** (`miter_refuses_or_accepts`): whatever the bindings are, as long as they bind links of the two netlists, a
miter is either refused for a reason that is true (`Explains`), or it is built and accounts for every link (`Accepted`).
Each target link on the right that no pair reaches stays an output, and each driver of a source link that no pair
reaches stays an input. So the result is a proper miter, with one output and one input for each pair, exactly for
bindings that repeat no value.

**What it does not establish.** That a binding which repeats a value is refused: with equal counts it leaves out a link
on the right, and the miter is built with an output or an input too many (`miter_accepts_repeated`).
-/

namespace LogicNet

open Std

/-! ## Pairs of a binding -/

/-- Every pair binds one of the links on the left to one of the links on the right. -/
def PairsWithin (b : Binding) (ls rs : LinkSet) : Prop := ∀ p ∈ b.toList, p.1 ∈ ls ∧ p.2 ∈ rs

/-- No two keys have the same value. -/
def Unrepeated (b : Binding) : Prop := ∀ l l' r : Link, b[l]? = some r → b[l']? = some r → l = l'

/-- The links that are not a value of the binding. -/
def missed (b : Binding) (links : LinkSet) : LinkSet := links.filter fun r => b.toList.all fun p => p.2 != r

section Pairs

variable {b : Binding} {ls links : LinkSet}

theorem PairsWithin.keysWithin (h : PairsWithin b ls links) : KeysWithin b ls := by
  intro l mem
  obtain ⟨r, found⟩ := exists_value mem
  exact (h (l, r) (TreeMap.mem_toList_iff_getElem?_eq_some.mpr found)).1

/-- Both links of a pair are links of their sides. -/
theorem PairsWithin.pick {left right : Netlist} (links : Netlist → LinkSet)
    (h : PairsWithin b (links left) (links right)) :
    ∀ p ∈ b.toList, ∀ side : Side, side.pick p.1 p.2 ∈ links (side.pick left right) := by
  intro p mem side
  cases side with
  | left => exact (h p mem).1
  | right => exact (h p mem).2

theorem unrepeated_of_nodup (nodup : (b.toList.map Prod.snd).Nodup) : Unrepeated b := by
  intro l l' r found found'
  have pair := List.inj_on_of_nodup_map nodup (TreeMap.mem_toList_iff_getElem?_eq_some.mpr found)
    (TreeMap.mem_toList_iff_getElem?_eq_some.mpr found') rfl
  exact congrArg Prod.fst pair

theorem mem_missed {r : Link} : r ∈ missed b links ↔ r ∈ links ∧ ∀ p ∈ b.toList, p.2 ≠ r := by
  simp [missed, TreeSet.mem_filter, TreeSet.get_eq]

/-- A binding of as many links as there are reaches all of them exactly if it repeats none. -/
theorem covers_iff_unrepeated (within : PairsWithin b ls links) (size : links.size = b.size) :
    (∀ r ∈ links, ∃ l : Link, b[l]? = some r) ↔ Unrepeated b := by
  constructor
  · intro covers
    have reached : ∀ r ∈ links.toList, r ∈ b.toList.map Prod.snd := by
      intro r mem
      obtain ⟨l, found⟩ := covers r (TreeSet.mem_toList.mp mem)
      exact List.mem_map.mpr ⟨(l, r), TreeMap.mem_toList_iff_getElem?_eq_some.mpr found, rfl⟩
    -- All links are among the values and there are no more values than links, so the values list each link once.
    have perm := (List.Nodup.subperm (nodup_toList links) reached).perm_of_length_le (by simp [size])
    exact unrepeated_of_nodup (perm.nodup_iff.mp (nodup_toList links))
  · intro unrepeated
    have values : ValuesWithin b links :=
      ⟨fun l r found => (within (l, r) (TreeMap.mem_toList_iff_getElem?_eq_some.mpr found)).2,
        fun found found' => unrepeated _ _ _ found found'⟩
    exact values.covers (Nat.le_of_eq size)

/-- Nothing is missed exactly if every link is a value. -/
theorem missed_empty_iff : (∀ r, r ∉ missed b links) ↔ ∀ r ∈ links, ∃ l : Link, b[l]? = some r := by
  refine forall_congr' fun r => ?_
  rw [mem_missed, not_and]
  refine imp_congr_right fun _ => ?_
  simp only [not_forall, not_not, exists_prop]
  constructor
  · rintro ⟨p, mem, rfl⟩
    exact ⟨p.1, TreeMap.mem_toList_iff_getElem?_eq_some.mp mem⟩
  · rintro ⟨l, found⟩
    exact ⟨(l, r), TreeMap.mem_toList_iff_getElem?_eq_some.mpr found, rfl⟩

end Pairs

theorem size_eq_zero_iff {links : LinkSet} : links.size = 0 ↔ ∀ l, l ∉ links := by
  rw [← TreeSet.length_toList, List.length_eq_zero_iff, List.eq_nil_iff_forall_not_mem]
  simp only [TreeSet.mem_toList]

theorem driversOf_eq_nil_iff {links : LinkSet} : driversOf links = [] ↔ ∀ l, l ∉ links := by
  simp only [List.eq_nil_iff_forall_not_mem, mem_driversOf, not_exists, not_and]
  exact ⟨fun none l mem => none l.source l mem rfl, fun none _ l mem => absurd mem (none l)⟩

namespace Miter

/-! ## What is left over -/

section Leftovers

variable {left right : Netlist} {sources targets : Binding} {maps : Side → GateMap}
  {feed : Side → Link → Option GateId} {fed : List ((Link × Link) × GateId)}

/-- What is not fed is in no pair. -/
theorem Supplied.eq_none_iff (supplied : Supplied fed feed) (pairs : fed.map Prod.fst = sources.toList) (side : Side)
    (l : Link) : feed side l = none ↔ ∀ p ∈ sources.toList, side.pick p.1 p.2 ≠ l := by
  rw [← pairs, List.forall_mem_map]
  constructor
  · rintro unfed p mem rfl
    obtain ⟨x, moved⟩ := supplied.reached side p mem
    rw [unfed] at moved
    cases moved
  · intro others
    refine Option.eq_none_iff_forall_ne_some.mpr fun x moved => ?_
    obtain ⟨p, mem, same, _⟩ := supplied.paired side moved
    exact others p mem same

/-- On the left nothing waits. -/
theorem waiting_left (supplied : Supplied fed feed) (pairs : fed.map Prod.fst = sources.toList)
    (bound : ∀ l ∈ left.sources, l ∈ sources) : waiting left (feed .left) = [] := by
  refine List.eq_nil_iff_forall_not_mem.mpr fun id mem => ?_
  obtain ⟨l, source, _, unfed⟩ := mem_waiting.mp mem
  obtain ⟨r, found⟩ := exists_value (bound l source)
  have entry : (l, r) ∈ sources.toList := TreeMap.mem_toList_iff_getElem?_eq_some.mpr found
  exact (supplied.eq_none_iff pairs .left l).mp unfed (l, r) entry rfl

/-- On the right the drivers of the links wait that no pair reaches. -/
theorem waiting_right (right : Netlist) (supplied : Supplied fed feed) (pairs : fed.map Prod.fst = sources.toList) :
    waiting right (feed .right) = driversOf (missed sources right.sources) := by
  have unfed : (fun l => (feed .right l).isNone) = fun r => sources.toList.all fun p => p.2 != r := by
    funext l
    rw [Bool.eq_iff_iff, Option.isNone_iff_eq_none, supplied.eq_none_iff pairs]
    simp [Side.pick]
  rw [waiting, unfed, missed]

/-- The outputs that are compared with nothing are the targets on the right that no pair reaches. -/
theorem uncompared_iff (consistent : ∀ side : Side, (side.pick left right).Consistent)
    (bound : ∀ l ∈ left.targets, l ∈ targets) (within : PairsWithin targets left.targets right.targets)
    {y : GateId} : Uncompared (fun side => side.pick left right) maps targets.toList y ↔
      ∃ r ∈ missed targets right.targets, (maps .right).image r.source = y := by
  constructor
  · rintro ⟨side, id, g, found, output, others, rfl⟩
    have target : .port id ∈ (side.pick left right).targets :=
      (consistent side).mem_targets_iff.mpr ⟨g, found, output, rfl⟩
    cases side with
    | left =>
      obtain ⟨r, entry⟩ := exists_value (bound _ target)
      exact absurd rfl (others (.port id, r) (TreeMap.mem_toList_iff_getElem?_eq_some.mpr entry))
    | right =>
      refine ⟨.port id, mem_missed.mpr ⟨target, fun p mem same => ?_⟩, rfl⟩
      exact others p mem (congrArg Link.source same)
  · rintro ⟨r, mem, rfl⟩
    obtain ⟨target, others⟩ := mem_missed.mp mem
    obtain ⟨g, found, output, port⟩ := (consistent .right).mem_targets_iff.mp target
    refine ⟨.right, r.source, g, found, output, fun p mem same => others p mem ?_, rfl⟩
    obtain ⟨_, _, _, port'⟩ := (consistent .right).mem_targets_iff.mp (within p mem).2
    calc
      p.2 = .port p.2.source := port'
      _ = .port r.source := congrArg Link.port same
      _ = r := port.symm

end Leftovers

/-- A self-contained netlist has one source link for each of its sources. -/
theorem sources_size {net : Netlist} {inputs : List GateId} (h : net.SelfContained inputs) (nodup : inputs.Nodup) :
    net.sources.size = inputs.length := by
  rw [← TreeSet.length_toList, ← List.length_map (f := Link.port)]
  refine length_eq_of_mem_iff (nodup_toList _) (nodup.map fun a b => port_inj) fun l => ?_
  rw [TreeSet.mem_toList, h.mem_sources, List.mem_map]
  exact exists_congr fun x => and_congr_right fun _ => eq_comm

/-- Beside the new output, the targets that no pair reaches are left. -/
theorem Combined.targets_size {left right : Netlist} {maps : Side → GateMap} {base : Netlist} {inputs : List GateId}
    {targets : Binding} {m : Netlist} {out : GateId} (apart : Apart (fun side => side.pick left right) maps)
    (h : Combined (fun side => side.pick left right) maps base inputs targets.toList m out)
    (bound : ∀ l ∈ left.targets, l ∈ targets) (within : PairsWithin targets left.targets right.targets) :
    m.targets.size = 1 + (missed targets right.targets).size := by
  let image : Link → Link := fun r => .port ((maps .right).image r.source)
  have uncompared := fun y => @uncompared_iff left right targets maps apart.consistent bound within y
  have once : ((missed targets right.targets).toList.map image).Nodup := by
    refine nodup_images fun r mem r' mem' same => ?_
    obtain ⟨g, found, _, port⟩ := (apart.consistent .right).mem_targets_iff.mp (mem_missed.mp mem).1
    obtain ⟨g', found', _, port'⟩ := (apart.consistent .right).mem_targets_iff.mp (mem_missed.mp mem').1
    have source : r.source = r'.source := (apart.injective (apart.mem found) (apart.mem found') (port_inj same)).2
    rw [port, port', source]
  have new : .port out ∉ (missed targets right.targets).toList.map image := by
    intro mem
    obtain ⟨r, left, same⟩ := List.mem_map.mp mem
    exact h.fresh ((uncompared out).mpr ⟨r, TreeSet.mem_toList.mp left, port_inj same⟩)
  have members : ∀ l, l ∈ m.targets.toList ↔ l ∈ .port out :: (missed targets right.targets).toList.map image := by
    intro l
    simp only [TreeSet.mem_toList, h.mem_targets, uncompared, List.mem_cons, List.mem_map]
    refine or_congr_right ⟨?_, ?_⟩
    · rintro ⟨_, ⟨r, mem, rfl⟩, rfl⟩
      exact ⟨r, mem, rfl⟩
    · rintro ⟨r, mem, rfl⟩
      exact ⟨_, ⟨r, mem, rfl⟩, rfl⟩
  calc
    m.targets.size = m.targets.toList.length := TreeSet.length_toList.symm
    _ = (.port out :: (missed targets right.targets).toList.map image).length :=
      length_eq_of_mem_iff (nodup_toList _) (List.nodup_cons.mpr ⟨new, once⟩) members
    _ = 1 + (missed targets right.targets).size := by
      rw [List.length_cons, List.length_map, TreeSet.length_toList, Nat.add_comm]

/-! ## What is built -/

/-- The miter accounts for every link, and is proper exactly for bindings that repeat no value. -/
structure Accepted (left right : Netlist) (sources targets : Binding) (m : Netlist) : Prop where
  admissible : Admissible left right sources targets
  outputs : m.targets.size = 1 + (missed targets right.targets).size
  inputs : m.sources.size = sources.size + (driversOf (missed sources right.sources)).length
  allSources : (∀ r ∈ right.sources, ∃ l : Link, sources[l]? = some r) ↔ Unrepeated sources
  allTargets : (∀ r ∈ right.targets, ∃ l : Link, targets[l]? = some r) ↔ Unrepeated targets
  oneOutput : m.targets.size = 1 ↔ Unrepeated targets
  oneInputEach : m.sources.size = sources.size ↔ Unrepeated sources

section Build

variable {left right : Netlist} {sources targets : Binding}
  (sourcePairs : PairsWithin sources left.sources right.sources)
  (targetPairs : PairsWithin targets left.targets right.targets)
include sourcePairs targetPairs

/-- The counts say the rest. -/
theorem accepted_of_counts (admissible : Admissible left right sources targets) {m : Netlist}
    (outputs : m.targets.size = 1 + (missed targets right.targets).size)
    (inputs : m.sources.size = sources.size + (driversOf (missed sources right.sources)).length) :
    Accepted left right sources targets m := by
  have sourceSize : sources.size = left.sources.size :=
    size_eq_of_keys fun l => ⟨sourcePairs.keysWithin l, admissible.boundSources l⟩
  have targetSize : targets.size = left.targets.size :=
    size_eq_of_keys fun l => ⟨targetPairs.keysWithin l, admissible.boundTargets l⟩
  have allSources := covers_iff_unrepeated sourcePairs (sourceSize.trans admissible.sourceCount).symm
  have allTargets := covers_iff_unrepeated targetPairs (targetSize.trans admissible.targetCount).symm
  refine ⟨admissible, outputs, inputs, allSources, allTargets, ?_, ?_⟩
  · rw [outputs, ← allTargets, ← missed_empty_iff, ← size_eq_zero_iff, Nat.add_eq_left]
  · rw [inputs, ← allSources, ← missed_empty_iff, ← driversOf_eq_nil_iff, Nat.add_eq_left, List.length_eq_zero_iff]

variable (reachable : ∀ side : Side, (side.pick left right).Reachable)
  (acyclic : ∀ side : Side, (side.pick left right).view.Acyclic)
  (room : left.names.length + right.names.length + sources.size + targets.size + 2 ≤ GateId.largest)
include reachable acyclic room

/-- ADMISSIBLE NETLISTS WITHOUT LOOPS ARE COMBINED, and what no pair reaches is left over. -/
theorem exists_accepted (admissible : Admissible left right sources targets) :
    ∃ m, combine left right sources targets = .ok m ∧ Accepted left right sources targets m := by
  obtain ⟨_, maps, base, feed, fed, m, out, rfl, built, apart, joined, supplied, pairs, combined⟩ :=
    exists_combined reachable acyclic (sourcePairs.pick Netlist.sources) (targetPairs.pick Netlist.targets) room
  refine ⟨m, built, accepted_of_counts sourcePairs targetPairs admissible ?outputs ?inputs⟩
  case outputs => exact combined.targets_size apart admissible.boundTargets targetPairs
  case inputs =>
    have waitingLeft : waiting left (feed .left) = [] := waiting_left supplied pairs admissible.boundSources
    have waitingRight : waiting right (feed .right) = _ := waiting_right right supplied pairs
    have length : fed.length = sources.size := by rw [← TreeMap.length_toList, ← pairs, List.length_map]
    calc
      m.sources.size = (fed.map Prod.snd ++ pending (fun side => side.pick left right) maps feed).length :=
        sources_size combined.contained (joined.nodup_sources apart supplied.distinct)
      _ = fed.length + ((waiting left (feed .left)).length + (waiting right (feed .right)).length) := by
        simp [pending, Side.pick]
      _ = sources.size + (driversOf (missed sources right.sources)).length := by
        rw [waitingLeft, waitingRight, length, List.length_nil, Nat.zero_add]

end Build

end Miter

/-- A MITER IS REFUSED FOR A REASON THAT IS TRUE, OR ACCOUNTS FOR EVERY LINK. It has one output and one input for each
pair exactly if the bindings repeat no value. -/
theorem miter_refuses_or_accepts {left right : Netlist} (reachableLeft : left.Reachable)
    (reachableRight : right.Reachable) (acyclicLeft : left.view.Acyclic) (acyclicRight : right.view.Acyclic)
    {hints : Hints} {sources targets : Binding} (isSources : hints.sources.getD {} = sources)
    (isTargets : hints.targets.getD {} = targets) (sourcePairs : PairsWithin sources left.sources right.sources)
    (targetPairs : PairsWithin targets left.targets right.targets)
    (room : left.names.length + right.names.length + sources.size + targets.size + 2 ≤ GateId.largest) :
    (∃ r, (miter left right hints).outcome = .error (.refusal r) ∧ Miter.Explains left right sources targets r) ∨
      ∃ m, (miter left right hints).outcome = .ok m ∧ Miter.Accepted left right sources targets m := by
  have reachable : ∀ side : Side, (side.pick left right).Reachable := by
    intro side
    cases side with
    | left => exact reachableLeft
    | right => exact reachableRight
  have acyclic : ∀ side : Side, (side.pick left right).view.Acyclic := by
    intro side
    cases side with
    | left => exact acyclicLeft
    | right => exact acyclicRight
  unfold miter
  dsimp only
  rw [isSources, isTargets]
  rcases Miter.validate_cases left right sources targets with ⟨valid, admissible⟩ | ⟨r, refused, explains⟩
  · obtain ⟨m, built, accepted⟩ := Miter.exists_accepted sourcePairs targetPairs reachable acyclic room admissible
    rw [valid]
    exact .inr ⟨m, built, accepted⟩
  · rw [refused]
    exact .inl ⟨r, rfl, explains⟩

/-! ## Samples -/

section Samples

open Checker (portPairs boundHints samePolarity bothPolarities conjunction indifferent)

/-- A flip-flop whose data and clock come from outside. -/
def clocked : Netlist := .made [⟨.flipFlop, [.plain ⟨0⟩, ⟨.rising, ⟨1⟩⟩]⟩, .nary .output [⟨2⟩]]

/-- A latch whose data and enable come from outside. -/
def enabled : Netlist := .made [⟨.latch, [.plain ⟨0⟩, ⟨.high, ⟨1⟩⟩]⟩, .nary .output [⟨2⟩]]

/-- Data with data, and the clock with the enable. -/
def edgeToEdge : Binding :=
  TreeMap.ofList [(Link.edge ⟨0⟩ ⟨2⟩ 0, Link.edge ⟨0⟩ ⟨2⟩ 0), (.edge ⟨1⟩ ⟨2⟩ 1, .edge ⟨1⟩ ⟨2⟩ 1)]

/-- A flip-flop and a latch, bound link by link, have a proper miter. -/
theorem clocked_enabled_accepted :
    ∃ m, (miter clocked enabled (boundHints edgeToEdge (portPairs [(3, 3)]))).outcome = .ok m ∧
      m.targets.size = 1 ∧ m.sources.size = 2 := by
  have admissible : Miter.Admissible clocked enabled edgeToEdge (portPairs [(3, 3)]) := by
    have sources : ∀ l ∈ clocked.sources.toList, l ∈ edgeToEdge := by decide +kernel
    have targets : ∀ l ∈ clocked.targets.toList, l ∈ portPairs [(3, 3)] := by decide +kernel
    exact ⟨by decide +kernel, by decide +kernel, fun l mem => sources l (TreeSet.mem_toList.mpr mem),
      fun l mem => targets l (TreeSet.mem_toList.mpr mem)⟩
  have sourcePairs : PairsWithin edgeToEdge clocked.sources enabled.sources := by
    unfold PairsWithin
    decide +kernel
  have targetPairs : PairsWithin (portPairs [(3, 3)]) clocked.targets enabled.targets := by
    unfold PairsWithin
    decide +kernel
  rcases @miter_refuses_or_accepts clocked enabled (Netlist.reachable_made _) (Netlist.reachable_made _)
    (View.acyclic_of_all (by decide +kernel)) (View.acyclic_of_all (by decide +kernel))
    (boundHints edgeToEdge (portPairs [(3, 3)])) _ _ rfl rfl sourcePairs targetPairs (by decide +kernel) with
    ⟨r, _, explains⟩ | ⟨m, built, accepted⟩
  · exact absurd explains (admissible.not_explains r)
  · exact ⟨m, built, accepted.oneOutput.mpr (unrepeated_of_nodup (by decide +kernel)),
      accepted.oneInputEach.mpr (unrepeated_of_nodup (by decide +kernel))⟩

/-- Bindings of circuits that repeat a value are accepted. With two targets on the left bound to one on the right, the
other one stays an output beside the new one; with two sources bound to one, the other one stays an input. -/
theorem miter_accepts_repeated :
    (samePolarity.view.Circuit ∧ bothPolarities.view.Circuit ∧ indifferent.view.Circuit ∧ conjunction.view.Circuit) ∧
    (PairsWithin (portPairs [(0, 0)]) samePolarity.sources bothPolarities.sources ∧
      PairsWithin (portPairs [(1, 2), (2, 2)]) samePolarity.targets bothPolarities.targets ∧
      ∃ m, (miter samePolarity bothPolarities
          (boundHints (portPairs [(0, 0)]) (portPairs [(1, 2), (2, 2)]))).outcome = .ok m ∧ m.targets.size = 2 ∧
        Link.port ⟨3⟩ ∈ bothPolarities.targets ∧ Link.port ⟨3⟩ ∉ (portPairs [(1, 2), (2, 2)]).values) ∧
    PairsWithin (portPairs [(0, 0), (1, 0)]) indifferent.sources conjunction.sources ∧
      PairsWithin (portPairs [(3, 3)]) indifferent.targets conjunction.targets ∧
      ∃ m, (miter indifferent conjunction
          (boundHints (portPairs [(0, 0), (1, 0)]) (portPairs [(3, 3)]))).outcome = .ok m ∧ m.sources.size = 3 ∧
        Link.port ⟨1⟩ ∈ conjunction.sources ∧ Link.port ⟨1⟩ ∉ (portPairs [(0, 0), (1, 0)]).values := by
  unfold PairsWithin
  refine ⟨⟨?_, ?_, ?_, ?_⟩, ⟨?_, ?_, _, rfl, ?_⟩, ?_, ?_, _, rfl, ?_⟩
  iterate 4 exact View.circuit_made (by decide +kernel)
  all_goals decide +kernel

end Samples

end LogicNet
