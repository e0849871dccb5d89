import LogicNet.Proofs.Equivalence.Mapping

/-!
# Views and their images

A view of a renamed netlist that has the renamed gates is the IMAGE of a view. Its boundary is the renamed
boundary, and its solutions, read back along the renaming, are solutions (`IsImage.solves`). So if all drivers are
bound to their images, solutions that agree on what is open agree on what is read, and a check finds a view equal
to its image (`flat_image`): by simulation or by solving, with or without triggers to cut.

A view with a loop has no such solutions to rely on. It is found equal to its image nevertheless if nothing in it
is read, for then there is nothing to compare.
-/

namespace LogicNet

open Std

namespace View

/-- The second view has the images of the gates of the first. -/
structure IsImage (f : GateId → GateId) (v w : View) : Prop where
  netlist : Netlist.IsImage f v.net w.net
  coherentLeft : v.Coherent
  coherentRight : w.Coherent
  gates : ∀ {id : GateId} {g : Gate}, v.net.gate? id = some g → (f id ∈ w.part.gates ↔ id ∈ v.part.gates)

namespace IsImage

variable {f : GateId → GateId} {v w : View} (h : IsImage f v w)
include h

/-! ## Gates and boundaries -/

theorem mem_gates {id' : GateId} : id' ∈ w.part.gates ↔ ∃ id ∈ v.part.gates, f id = id' := by
  constructor
  · intro mem
    obtain ⟨g', found, _⟩ := h.coherentRight.known mem
    obtain ⟨id, g, here, rfl⟩ := h.netlist.onto found
    exact ⟨id, (h.gates here).mp mem, rfl⟩
  · intro image
    obtain ⟨id, mem, rfl⟩ := image
    obtain ⟨g, here, _⟩ := h.coherentLeft.known mem
    exact (h.gates here).mpr mem

theorem contains_eq {id : GateId} (mentioned : v.net.Mentions id) : w.part.contains (f id) = v.part.contains id := by
  rw [Bool.eq_iff_iff, h.coherentRight.covers.members, h.coherentLeft.covers.members, h.mem_gates]
  constructor
  · intro image
    obtain ⟨x, mem, same⟩ := image
    obtain ⟨g, here, _⟩ := h.coherentLeft.known mem
    rw [← h.netlist.injective (.inl ⟨g, here⟩) mentioned same]
    exact mem
  · intro mem
    exact ⟨id, mem, rfl⟩

theorem mem_sources {r : Link} : r ∈ w.part.sources ↔ ∃ l ∈ v.part.sources, l.rename f = r := by
  rw [h.coherentRight.covers.bounds.sources, h.netlist.enters_iff h.contains_eq]
  simp only [h.coherentLeft.covers.bounds.sources]

theorem mem_targets {r : Link} : r ∈ w.part.targets ↔ ∃ l ∈ v.part.targets, l.rename f = r := by
  rw [h.coherentRight.covers.bounds.targets, h.netlist.leaves_iff h.contains_eq]
  simp only [h.coherentLeft.covers.bounds.targets]

/-- Where renaming keeps a kind of gates, those of the kind are the images of those of the kind. -/
theorem mem_kind {kind : Shape → Bool} (kept : ∀ s, kind (s.rename f) = kind s) {id' : GateId} :
    (id' ∈ w.part.gates ∧ ∃ g', w.net.gate? id' = some g' ∧ kind g'.toShape = true) ↔
      ∃ id, (id ∈ v.part.gates ∧ ∃ g, v.net.gate? id = some g ∧ kind g.toShape = true) ∧ f id = id' := by
  constructor
  · intro ofKind
    obtain ⟨mem, g', found, isKind⟩ := ofKind
    obtain ⟨id, inside, rfl⟩ := h.mem_gates.mp mem
    obtain ⟨g, here, _⟩ := h.coherentLeft.known inside
    rw [h.netlist.shape_eq here found, kept] at isKind
    exact ⟨id, ⟨inside, g, here, isKind⟩, rfl⟩
  · intro image
    obtain ⟨id, ⟨inside, g, here, isKind⟩, rfl⟩ := image
    obtain ⟨g', found, shape⟩ := h.netlist.shapes here
    refine ⟨h.mem_gates.mpr ⟨id, inside, rfl⟩, g', found, ?_⟩
    rw [shape, kept]
    exact isKind

theorem mem_constants {id' : GateId} : id' ∈ w.part.constants ↔ ∃ id ∈ v.part.constants, f id = id' := by
  simp only [h.coherentRight.covers.accounts.constants, h.coherentLeft.covers.accounts.constants]
  exact h.mem_kind fun _ => Shape.isConstant_rename

theorem mem_triggers {id' : GateId} : id' ∈ w.part.triggers ↔ ∃ id ∈ v.part.triggers, f id = id' := by
  simp only [h.coherentRight.covers.accounts.triggers, h.coherentLeft.covers.accounts.triggers]
  exact h.mem_kind fun _ => Shape.isTrigger_rename

theorem size_sources : v.part.sources.size = w.part.sources.size := by
  refine size_eq_of_images (fun l mem l' mem' same => h.netlist.rename_inj ?_ ?_ same) fun _ => h.mem_sources
  · exact Netlist.mentions_of_onBoundary ((h.coherentLeft.covers.bounds.sources l).mp mem)
  · exact Netlist.mentions_of_onBoundary ((h.coherentLeft.covers.bounds.sources l').mp mem')

theorem size_targets : v.part.targets.size = w.part.targets.size := by
  refine size_eq_of_images (fun l mem l' mem' same => h.netlist.rename_inj ?_ ?_ same) fun _ => h.mem_targets
  · exact Netlist.mentions_of_onBoundary ((h.coherentLeft.covers.bounds.targets l).mp mem)
  · exact Netlist.mentions_of_onBoundary ((h.coherentLeft.covers.bounds.targets l').mp mem')

theorem isCombinational_eq : v.part.isCombinational = w.part.isCombinational := by
  rw [Bool.eq_iff_iff, Part.isCombinational, Part.isCombinational, TreeSet.isEmpty_iff_forall_not_mem,
    TreeSet.isEmpty_iff_forall_not_mem]
  simp [h.mem_triggers]

/-! ## What is kept -/

/-- What renaming does not change holds of the gates of the image. -/
theorem forall_gates {P : Shape → Prop} (kept : ∀ s : Shape, P s → P (s.rename f))
    (all : ∀ id ∈ v.part.gates, ∀ g, v.net.gate? id = some g → P g.toShape) :
    ∀ id' ∈ w.part.gates, ∀ g', w.net.gate? id' = some g' → P g'.toShape := by
  intro id' mem g' found
  obtain ⟨id, inside, rfl⟩ := h.mem_gates.mp mem
  obtain ⟨g, here, _⟩ := h.coherentLeft.known inside
  rw [h.netlist.shape_eq here found]
  exact kept g.toShape (all id inside g here)

theorem customFree (customFree : v.CustomFree) : w.CustomFree :=
  h.forall_gates (P := fun s => s.fn.isUninterpreted = false) (fun _ free => free) customFree

theorem timed (timed : v.Timed) : w.Timed := by
  refine h.forall_gates (P := fun s => s.fn.isTriggered = true → s.isTrigger = true) (fun s sampled => ?_) timed
  rw [Shape.isTrigger_rename]
  exact sampled

/-- A loop has a loop as its image. -/
theorem acyclic (acyclic : w.Acyclic) : v.Acyclic := by
  intro t loop
  refine acyclic (f t) (Relation.TransGen.lift f (fun a b step => ?_) t t loop)
  obtain ⟨ha, hb, feeds⟩ := step
  exact ⟨h.mem_gates.mpr ⟨a, ha, rfl⟩, h.mem_gates.mpr ⟨b, hb, rfl⟩, h.netlist.feeds_iff.mpr ⟨a, b, feeds, rfl, rfl⟩⟩

theorem open_iff {id' : GateId} : w.Open id' ↔ ∃ id, v.Open id ∧ f id = id' := by
  simp only [h.coherentRight.open_iff, h.coherentLeft.open_iff, IsSourceDriver, h.mem_sources, h.mem_triggers]
  constructor
  · intro isOpen
    rcases isOpen with ⟨_, ⟨l, enters, rfl⟩, rfl⟩ | ⟨t, trigger, rfl⟩
    · exact ⟨l.source, .inl ⟨l, enters, rfl⟩, rfl⟩
    · exact ⟨t, .inr trigger, rfl⟩
  · intro image
    obtain ⟨_, ⟨l, enters, rfl⟩ | trigger, rfl⟩ := image
    · exact .inl ⟨_, ⟨l, enters, rfl⟩, rfl⟩
    · exact .inr ⟨_, trigger, rfl⟩

/-- The values of a solution, read back. -/
theorem solves {pins pins' : List GateId} {val : GateId → Bool} (solves : w.Solves pins' val)
    (unpinned : ∀ id ∈ v.part.gates, id ∉ pins → f id ∉ pins') : v.Solves pins (val ∘ f) := by
  intro id mem away g here notSource plain
  obtain ⟨g', found, shape⟩ := h.netlist.shapes here
  have value := solves (f id) (h.mem_gates.mpr ⟨id, mem, rfl⟩) (unpinned id mem away) g' found
    (by rw [shape, Shape.isSource_rename]; exact notSource) (by rw [shape, Shape.isTrigger_rename]; exact plain)
  rw [shape] at value
  show val (f id) = _
  rw [value, Shape.rename, List.map_map]
  rfl

/-- The gates of the image are the images of the gates. -/
theorem perm_gates : w.part.gates.Perm (v.part.gates.map f) := by
  have injective : ∀ a ∈ v.part.gates, ∀ b ∈ v.part.gates, f a = f b → a = b := by
    intro a ha b hb
    obtain ⟨g, found, _⟩ := h.coherentLeft.known ha
    obtain ⟨g', found', _⟩ := h.coherentLeft.known hb
    exact h.netlist.injective (.inl ⟨g, found⟩) (.inl ⟨g', found'⟩)
  have nodup := List.Nodup.map_on injective h.coherentLeft.covers.accounts.nodup
  refine (List.perm_ext_iff_of_nodup h.coherentRight.covers.accounts.nodup nodup).mpr fun id' => ?_
  rw [h.mem_gates, List.mem_map]

/-- The image demands what the view demands. -/
theorem demand_eq : w.demand = v.demand := by
  unfold demand
  rw [(h.perm_gates.map _).sum_nat, List.map_map]
  refine congrArg List.sum (List.map_congr_left fun id mem => ?_)
  obtain ⟨g, found, _⟩ := h.coherentLeft.known mem
  obtain ⟨g', found', shape⟩ := h.netlist.shapes found
  have arity : g'.arity = g.arity := by rw [shape]; exact List.length_map ..
  have fn : g'.fn = g.fn := by rw [shape]; rfl
  rw [Function.comp_apply, found, found', Option.elim_some, Option.elim_some, Gate.demand, Gate.demand, arity, fn]

end IsImage

/-- The gates of a view and the drivers that they read. -/
def mentioned (v : View) : List GateId :=
  v.part.gates.flatMap fun id => (v.net.gate? id).elim [] fun g => id :: g.inputs.map Signal.driver

theorem length_mentioned_le (v : View) : v.mentioned.length ≤ v.demand := by
  rw [mentioned, List.length_flatMap, demand]
  refine List.sum_le_sum fun id _ => ?_
  cases v.net.gate? id with
  | none => exact Nat.le_refl _
  | some g =>
    rw [Option.elim_some, Option.elim_some, List.length_cons, List.length_map, Gate.demand, Shape.arity]
    omega

/-! ## The boundary of a cut view -/

/-- The port of a driver that the gate reads. -/
def IsInputPort (v : View) (t : GateId) (l : Link) : Prop :=
  ∃ g, v.net.gate? t = some g ∧ ∃ s ∈ g.inputs, l = .port s.driver

/-- With the triggers cut, their outputs enter as well. -/
def IsCutSource (v : View) (l : Link) : Prop := (∃ t ∈ v.part.triggers, l = .port t) ∨ l ∈ v.part.sources

/-- With the triggers cut, their inputs leave as well. -/
def IsCutTarget (v : View) (l : Link) : Prop := (∃ t ∈ v.part.triggers, v.IsInputPort t l) ∨ l ∈ v.part.targets

variable {v : View}

theorem Coherent.open_iff_isCutSource (h : v.Coherent) {id : GateId} :
    v.Open id ↔ ∃ l, v.IsCutSource l ∧ l.source = id := by
  rw [h.open_iff]
  constructor
  · intro isOpen
    rcases isOpen with ⟨l, enters, rfl⟩ | trigger
    · exact ⟨l, .inr enters, rfl⟩
    · exact ⟨.port id, .inl ⟨id, trigger, rfl⟩, rfl⟩
  · intro cut
    obtain ⟨l, ⟨t, trigger, rfl⟩ | enters, rfl⟩ := cut
    · exact .inr trigger
    · exact .inl ⟨l, enters, rfl⟩

theorem Coherent.mentions_of_isCutSource (h : v.Coherent) {l : Link} (cut : v.IsCutSource l) :
    v.net.Mentions l.source := by
  rcases cut with ⟨t, trigger, rfl⟩ | enters
  · obtain ⟨_, g, found, _⟩ := (h.covers.accounts.triggers t).mp trigger
    exact .inl ⟨g, found⟩
  · exact (Netlist.mentions_of_onBoundary ((h.covers.bounds.sources l).mp enters)).1

/-- What leaves a cut view comes from one of its gates, or enters it. -/
theorem Coherent.inside_of_isCutTarget (h : v.Coherent) {l : Link} (cut : v.IsCutTarget l) :
    l.source ∈ v.part.gates ∨ ∃ l', v.IsCutSource l' ∧ l'.source = l.source := by
  rw [← h.open_iff_isCutSource]
  rcases cut with ⟨t, trigger, g, found, s, read, rfl⟩ | leaves
  · by_cases inside : s.driver ∈ v.part.gates
    · exact .inl inside
    · have member := ((h.covers.accounts.triggers t).mp trigger).1
      exact .inr (.inr ⟨inside, t, member, g, found, s, read, rfl⟩)
  · exact .inl (h.source_of_target leaves)

theorem Coherent.mem_mentioned (h : v.Coherent) {id : GateId} (mem : id ∈ v.part.gates) : id ∈ v.mentioned := by
  obtain ⟨g, found, _⟩ := h.known mem
  refine List.mem_flatMap.mpr ⟨id, mem, ?_⟩
  rw [found]
  exact List.mem_cons_self

theorem Coherent.mentioned_of_isCutSource (h : v.Coherent) {l : Link} (cut : v.IsCutSource l) :
    l.source ∈ v.mentioned := by
  rcases h.open_iff_isCutSource.mpr ⟨l, cut, rfl⟩ with ⟨inside, _⟩ | ⟨_, t, member, g, found, s, read, driver⟩
  · exact h.mem_mentioned inside
  · refine List.mem_flatMap.mpr ⟨t, member, ?_⟩
    rw [found]
    exact List.mem_cons_of_mem t (List.mem_map.mpr ⟨s, read, driver⟩)

theorem Coherent.mentioned_of_isCutTarget (h : v.Coherent) {l : Link} (cut : v.IsCutTarget l) :
    l.source ∈ v.mentioned := by
  rcases h.inside_of_isCutTarget cut with inside | ⟨l', enters, same⟩
  · exact h.mem_mentioned inside
  · rw [← same]
    exact h.mentioned_of_isCutSource enters

/-- Without triggers there is nothing to cut. -/
theorem isCutSource_iff (comb : v.part.isCombinational = true) {l : Link} :
    v.IsCutSource l ↔ l ∈ v.part.sources := by
  refine or_iff_right fun cut => ?_
  obtain ⟨t, trigger, _⟩ := cut
  exact TreeSet.not_mem_of_isEmpty comb trigger

theorem isCutTarget_iff (comb : v.part.isCombinational = true) {l : Link} :
    v.IsCutTarget l ↔ l ∈ v.part.targets := by
  refine or_iff_right fun cut => ?_
  obtain ⟨t, trigger, _⟩ := cut
  exact TreeSet.not_mem_of_isEmpty comb trigger

end View

/-- Ports of drivers, bound to the ports of their images. -/
theorem Carries.bindPorts {f : GateId → GateId} {b : Binding} {links : Link → Prop} (h : Carries f b links)
    (ids : List GateId) :
    Carries f (LogicNet.bindPorts b (ids.map fun id => (id, f id))) fun l => (∃ id ∈ ids, l = .port id) ∨ links l := by
  induction ids generalizing b links with
  | nil => exact h.congr fun l => by simp
  | cons id ids ih =>
    refine (ih (h.insert (k := .port id) (r := .port (f id)) rfl)).congr fun l => ?_
    simp only [List.exists_mem_cons_iff]
    exact or_left_comm.trans or_assoc.symm

namespace Checker

variable {c : Checker} {f : GateId → GateId} {v w : View} {sources targets triggers : Binding}

/-! ## The size of a query -/

/-- Distinct drivers that are all mentioned by a view are not more than its demand. -/
theorem length_driverPairs_le {b : Binding} {links : Link → Prop} (carries : Carries f b links)
    (mentioned : ∀ l, links l → l.source ∈ v.mentioned) : (driverPairs b).length ≤ v.demand := by
  have inside : driverPairs b ⊆ v.mentioned.map fun id => (id, f id) := by
    intro x mem
    obtain ⟨l, link, rfl⟩ := carries.mem_driverPairs.mp mem
    exact List.mem_map_of_mem (mentioned l link)
  have le := ((nodup_eraseDups _).subperm inside).length_le
  rw [List.length_map] at le
  exact Nat.le_trans le v.length_mentioned_le

/-- The variables of a query about a view and its image are counted from the gates of the view: once for each of the two
views, twice for what enters, and three times for what leaves. -/
theorem inRange_image (h : View.IsImage f v w) (hs : Carries f sources v.IsCutSource)
    (ht : Carries f targets v.IsCutTarget) (small : 7 * v.demand ≤ Lit.largestVar + 1) (q : Query)
    (made : pairQuery v w sources targets = .ok q) : q.formula.size ≤ Lit.largestVar + 1 := by
  have size := size_query_le (coherent_pair h.coherentLeft h.coherentRight) made
  have entering := length_driverPairs_le hs fun l cut => h.coherentLeft.mentioned_of_isCutSource cut
  have leaving := length_driverPairs_le ht fun l cut => h.coherentLeft.mentioned_of_isCutTarget cut
  simp only [sitePairs, List.length_map, List.map_cons, List.map_nil, List.sum_cons, List.sum_nil, h.demand_eq] at size
  omega

/-- Solving finds a view equal to its image if their valuations are forced to agree. -/
theorem bySolving_image (correct : c.oracle.Correct) (h : View.IsImage f v w) (customFree : v.CustomFree)
    (inRange : ∀ q, pairQuery v w sources targets = .ok q → q.formula.size ≤ Lit.largestVar + 1)
    {leftOrder rightOrder : List GateId} (orderedLeft : v.orderedGates = .ok leftOrder)
    (orderedRight : w.orderedGates = .ok rightOrder)
    (forces : Forces v.Valuation w.Valuation (driverPairs sources) (driverPairs targets)) :
    (c.bySolving [v, w] {} (sitePairs sources 0 1) (sitePairs targets 0 1)).outcome = .ok .equal := by
  obtain ⟨q, encoded⟩ := @exists_pairQuery_of_customFree v w sources targets h.coherentLeft h.coherentRight
    customFree (h.customFree customFree) leftOrder rightOrder orderedLeft orderedRight
  obtain ⟨verdict, made, iff⟩ := bySolving_verdict correct h.coherentLeft h.coherentRight encoded (inRange q encoded)
  rw [made, Verdict.isEqual_iff.mp (iff.mpr forces)]

/-! ## Cut views compared -/

section Cut

variable (h : View.IsImage f v w) (hs : Carries f sources v.IsCutSource) (ht : Carries f targets v.IsCutTarget)
include h hs

/-- Bound to their images, the open drivers determine a view and its image. -/
theorem determined_image (customFree : v.CustomFree) (acyclic : w.Acyclic) :
    v.Determined ((driverPairs sources).map Prod.fst) ∧ w.Determined ((driverPairs sources).map Prod.snd) := by
  have oneToOne := hs.oneToOne fun l l' cut cut' => h.netlist.injective (h.coherentLeft.mentions_of_isCutSource cut)
    (h.coherentLeft.mentions_of_isCutSource cut')
  constructor
  · refine ⟨h.coherentLeft, fun id mem g found _ => customFree id mem g found, h.acyclic acyclic, oneToOne.nodup.1, ?_⟩
    intro id isOpen
    exact hs.mem_left.mpr (h.coherentLeft.open_iff_isCutSource.mp isOpen)
  · refine ⟨h.coherentRight, fun id mem g found _ => h.customFree customFree id mem g found, acyclic, oneToOne.nodup.2, ?_⟩
    intro id' openRight
    obtain ⟨id, isOpen, rfl⟩ := h.open_iff.mp openRight
    obtain ⟨l, cut, rfl⟩ := h.coherentLeft.open_iff_isCutSource.mp isOpen
    exact hs.mem_right.mpr ⟨l, cut, rfl⟩

include ht

/-- Solutions of a view and its image that agree on what enters agree on what leaves. -/
theorem forces_image (acyclic : v.Acyclic) : Forces (v.Solves ((driverPairs sources).map Prod.fst))
    (w.Solves ((driverPairs sources).map Prod.snd)) (driverPairs sources) (driverPairs targets) := by
  intro vl vr solvesLeft solvesRight agree
  rw [hs.together_iff] at agree
  rw [ht.together_iff]
  -- The values on the right, read back, are a second solution on the left, cut at the same drivers.
  have readBack : v.Solves ((driverPairs sources).map Prod.fst) (vr ∘ f) := by
    refine h.solves solvesRight fun id mem away pinned => away ?_
    obtain ⟨l, cut, same⟩ := hs.mem_right.mp pinned
    obtain ⟨g, found, _⟩ := h.coherentLeft.known mem
    have driver := h.netlist.injective (h.coherentLeft.mentions_of_isCutSource cut) (.inl ⟨g, found⟩) same
    exact hs.mem_left.mpr ⟨l, cut, driver⟩
  have entering : ∀ id, id ∈ (driverPairs sources).map Prod.fst ∨ v.Open id → vl id = vr (f id) := by
    intro id given
    rw [hs.mem_left, h.coherentLeft.open_iff_isCutSource, or_self] at given
    obtain ⟨l, cut, rfl⟩ := given
    exact agree l cut
  intro l cut
  rcases h.coherentLeft.inside_of_isCutTarget cut with inside | ⟨l', enters, same⟩
  · exact solvesLeft.unique readBack h.coherentLeft acyclic entering l.source inside
  · rw [← same]
    exact agree l' enters

/-- What is read has a value on both sides. -/
theorem inside_image :
    (∀ id ∈ (driverPairs targets).map Prod.fst, id ∈ v.part.gates ∨ id ∈ (driverPairs sources).map Prod.fst) ∧
      ∀ id ∈ (driverPairs targets).map Prod.snd, id ∈ w.part.gates ∨ id ∈ (driverPairs sources).map Prod.snd := by
  constructor
  · intro id read
    obtain ⟨l, cut, rfl⟩ := ht.mem_left.mp read
    rw [hs.mem_left]
    exact h.coherentLeft.inside_of_isCutTarget cut
  · intro id read
    obtain ⟨l, cut, rfl⟩ := ht.mem_right.mp read
    rw [hs.mem_right, h.mem_gates]
    rcases h.coherentLeft.inside_of_isCutTarget cut with inside | ⟨l', enters, same⟩
    · exact .inl ⟨l.source, inside, rfl⟩
    · exact .inr ⟨l', enters, congrArg f same⟩

/-- A view without loops is found equal to its image, whichever strategy is taken. -/
theorem combinational_acyclic (correct : c.oracle.Correct) (room : c.simBound ≤ 64)
    (small : 7 * v.demand ≤ Lit.largestVar + 1) (customFree : v.CustomFree) (timed : v.Timed) (acyclic : w.Acyclic) :
    (c.combinational v w sources targets).outcome = .ok .equal := by
  have forces := forces_image h hs ht (h.acyclic acyclic)
  unfold combinational
  split
  · next few =>
    obtain ⟨detLeft, detRight⟩ := determined_image h hs customFree acyclic
    obtain ⟨insideLeft, insideRight⟩ := inside_image h hs ht
    obtain ⟨verdict, made, iff⟩ :=
      bySimulation_verdict detLeft detRight insideLeft insideRight (Nat.le_trans few room)
    rw [made, Verdict.isEqual_iff.mp (iff.mpr forces)]
  · obtain ⟨leftOrder, orderedLeft⟩ := h.coherentLeft.exists_orderedGates (h.acyclic acyclic)
    obtain ⟨rightOrder, orderedRight⟩ := h.coherentRight.exists_orderedGates acyclic
    apply bySolving_image correct h customFree (inRange_image h hs ht small) orderedLeft orderedRight
    -- A formula leaves all memory free. As memory is sampled, it is cut here too.
    intro vl vr valLeft valRight
    exact forces vl vr (valLeft.solves h.coherentLeft timed) (valRight.solves h.coherentRight (h.timed timed))

end Cut

/-! ## Views of which nothing is read -/

theorem runOnce_unread {pins order : List GateId} {words : List Word} (width : words.length = pins.length) :
    (v.program pins [] order).runOnce words = .ok [] := by
  simp [Simulator.runOnce_eq, Simulator.step, Simulator.feed, Simulator.read, View.program, width]

/-- A single gate that feeds itself drives nothing else, and it is in order. -/
theorem unread_of_lone (coherent : v.Coherent) {x : GateId} (only : ∀ id g, v.net.gate? id = some g → id = x)
    (feeds : Feeds v.net.gate? x x) : (∃ order, v.orderedGates = .ok order) ∧ ∀ l, ¬v.IsCutTarget l := by
  obtain ⟨g, found, plain, s, read, self⟩ := feeds
  have member : ∀ id ∈ v.part.gates, id = x := by
    intro id mem
    obtain ⟨g', here, _⟩ := coherent.known mem
    exact only id g' here
  constructor
  · have few : v.part.size ≤ 1 := by
      have inside : v.part.gates ⊆ [x] := fun id mem => List.mem_singleton.mpr (member id mem)
      exact (List.Nodup.subperm coherent.covers.accounts.nodup inside).length_le
    refine ⟨v.part.gates, if_pos ?_⟩
    rw [Part.isSorted, decide_eq_true few, Bool.or_true]
  · intro l cut
    rcases cut with ⟨t, trigger, _⟩ | leaves
    · obtain ⟨_, g', here, isTrigger⟩ := (coherent.covers.accounts.triggers t).mp trigger
      rw [only t g' here, found] at here
      cases here
      rw [plain] at isTrigger
      cases isTrigger
    · rcases (coherent.covers.bounds.targets l).mp leaves with ⟨d, driver, _, output, _⟩ | ⟨⟨g', here, _⟩, crosses⟩
      · rw [only l.source d driver, ← self] at driver
        rw [coherent.wired.not_isOutput_of_read found read driver] at output
        cases output
      · rw [Bool.and_eq_true, Bool.not_eq_true'] at crosses
        have source := member l.source ((coherent.covers.members _).mp crosses.1)
        rw [source, only l.target g' here] at crosses
        exact Bool.false_ne_true (crosses.2.symm.trans crosses.1)

theorem bySimulation_unread {leftOrder rightOrder : List GateId} (h : View.IsImage f v w) (customFree : v.CustomFree)
    (orderedLeft : v.orderedGates = .ok leftOrder) (orderedRight : w.orderedGates = .ok rightOrder)
    (unread : driverPairs targets = []) (room : (driverPairs sources).length ≤ 64) :
    (bySimulation v w sources targets).outcome = .ok .equal := by
  unfold bySimulation
  rw [unread]
  generalize driverPairs sources = pins at *
  have compiledLeft := @View.Coherent.compile_eq v (pins.map Prod.fst) [] leftOrder h.coherentLeft
    (fun id mem g found _ => customFree id mem g found) orderedLeft (by simp)
  have compiledRight := @View.Coherent.compile_eq w (pins.map Prod.snd) [] rightOrder h.coherentRight
    (fun id mem g found _ => h.customFree customFree id mem g found) orderedRight (by simp)
  have patterns : exhaustivePatterns pins.length = .ok (patternRows pins.length) :=
    exhaustivePatterns_eq_ok.mpr ⟨room, rfl⟩
  simp only [Traced.outcome_bind, Traced.outcome_note, Traced.outcome_liftM, Result.ok_bind, List.map_nil, compiledLeft,
    compiledRight, patterns]
  rcases @findDifference_spec (v.program (pins.map Prod.fst) [] leftOrder) (w.program (pins.map Prod.snd) [] rightOrder)
      (laneCount pins.length) (fun _ => []) (fun _ => []) (patternRows pins.length)
      (fun words mem => runOnce_unread (by rw [List.length_map]; exact length_of_mem_patternRows mem))
      (fun words mem => runOnce_unread (by rw [List.length_map]; exact length_of_mem_patternRows mem)) _ _ .start .start
    with ⟨none, _⟩ | ⟨words, _, p, found, _⟩
  · rw [none]
    rfl
  · obtain ⟨_, x, mem, _⟩ := differingLane_eq_some found
    cases mem

/-- Views of which nothing is read are found equal, whichever strategy is taken. -/
theorem combinational_unread (correct : c.oracle.Correct) (room : c.simBound ≤ 64) (h : View.IsImage f v w)
    (inRange : ∀ q, pairQuery v w sources targets = .ok q → q.formula.size ≤ Lit.largestVar + 1)
    (customFree : v.CustomFree) {leftOrder rightOrder : List GateId} (orderedLeft : v.orderedGates = .ok leftOrder)
    (orderedRight : w.orderedGates = .ok rightOrder) (unread : driverPairs targets = []) :
    (c.combinational v w sources targets).outcome = .ok .equal := by
  unfold combinational
  split
  · next few => exact bySimulation_unread h customFree orderedLeft orderedRight unread (Nat.le_trans few room)
  · apply bySolving_image correct h customFree inRange orderedLeft orderedRight
    intro vl vr _ _ _ x read
    rw [unread] at read
    cases read

/-- The image has no loops, or both views are in order and nothing leaves. -/
def Harmless (v w : View) : Prop :=
  w.Acyclic ∨ ((∃ order, v.orderedGates = .ok order) ∧ ∃ order, w.orderedGates = .ok order) ∧ ∀ l, ¬v.IsCutTarget l

theorem combinational_image (correct : c.oracle.Correct) (room : c.simBound ≤ 64) (h : View.IsImage f v w)
    (small : 7 * v.demand ≤ Lit.largestVar + 1) (customFree : v.CustomFree) (timed : v.Timed) (harmless : Harmless v w)
    (hs : Carries f sources v.IsCutSource) (ht : Carries f targets v.IsCutTarget) : (c.combinational v w sources targets).outcome = .ok .equal := by
  rcases harmless with acyclic | ⟨⟨⟨_, orderedLeft⟩, ⟨_, orderedRight⟩⟩, unread⟩
  · exact combinational_acyclic h hs ht correct room small customFree timed acyclic
  · refine combinational_unread correct room h (inRange_image h hs ht small) customFree orderedLeft orderedRight ?_
    refine List.eq_nil_iff_forall_not_mem.mpr fun x read => ?_
    obtain ⟨l, cut, _⟩ := ht.mem_driverPairs.mp read
    exact unread l cut

/-! ## Triggers cut -/

theorem cutTrigger_image (h : View.IsImage f v w) {t : GateId} {g : Gate} (found : v.net.gate? t = some g)
    (bound : Binding × Binding) {pair : Link × Link} (atLeft : pair.1.source = t) (atRight : pair.2.source = f t) :
    cutTrigger v w bound pair = .ok (bindPorts bound.1 [(t, f t)],
      bindPorts bound.2 ((g.inputs.map Signal.driver).map fun id => (id, f id))) := by
  obtain ⟨g', found', shape⟩ := h.netlist.shapes found
  have inputs : g'.inputs = g.inputs.map fun s => s.withDriver (f s.driver) := congrArg Shape.inputs shape
  have zipped : g.inputs.zip g'.inputs = g.inputs.map fun s => (s, s.withDriver (f s.driver)) := by
    rw [inputs, List.zip_map_right, List.zip_eq_zipWith, List.zipWith_self, List.map_map]
    rfl
  refine Result.bind_eq_ok.mpr ⟨g, Netlist.gate_eq_ok.mpr (by rw [atLeft]; exact found), ?_⟩
  refine Result.bind_eq_ok.mpr ⟨g', Netlist.gate_eq_ok.mpr (by rw [atRight]; exact found'), ?_⟩
  refine Result.bind_eq_ok.mpr ⟨(), Result.require_eq_ok.mpr ?_, ?_⟩
  · exact beq_iff_eq.mpr (congrArg Shape.fn shape).symm
  refine Result.bind_eq_ok.mpr ⟨(), Result.require_eq_ok.mpr ?_, ?_⟩
  · exact beq_iff_eq.mpr (by rw [Shape.arity, Shape.arity, inputs, List.length_map])
  rw [zipped, h.coherentLeft.wired.keyed found, h.coherentRight.wired.keyed found', bindPorts, bindPorts, List.map_map,
    List.foldl_map, List.foldl_map]
  rfl

/-- Cutting triggers bound to their images keeps all drivers bound to their images. -/
theorem foldlM_cutTrigger (h : View.IsImage f v w) {pairs : List (Link × Link)}
    (bound : ∀ x ∈ pairs, x.1.source ∈ v.part.triggers ∧ x.2.source = f x.1.source) {start : Binding × Binding}
    {isSource isTarget : Link → Prop} (hs : Carries f start.1 isSource) (ht : Carries f start.2 isTarget) :
    ∃ cut, pairs.foldlM (cutTrigger v w) start = .ok cut ∧
      Carries f cut.1 (fun l => (∃ x ∈ pairs, l = .port x.1.source) ∨ isSource l) ∧
      Carries f cut.2 fun l => (∃ x ∈ pairs, v.IsInputPort x.1.source l) ∨ isTarget l := by
  induction pairs generalizing start isSource isTarget with
  | nil => exact ⟨start, rfl, hs.congr fun l => by simp, ht.congr fun l => by simp⟩
  | cons x pairs ih =>
    obtain ⟨⟨trigger, image⟩, others⟩ := List.forall_mem_cons.mp bound
    obtain ⟨_, g, found, _⟩ := (h.coherentLeft.covers.accounts.triggers _).mp trigger
    obtain ⟨cut, made, hs', ht'⟩ := @ih others (_, _) _ _ (hs.bindPorts [x.1.source])
      (ht.bindPorts (g.inputs.map Signal.driver))
    refine ⟨cut, ?_, hs'.congr fun l => ?_, ht'.congr fun l => ?_⟩
    · rw [List.foldlM_cons, cutTrigger_image h found start rfl image]
      exact made
    · simp only [List.exists_mem_cons_iff, List.not_mem_nil, false_and, exists_false, or_false]
      exact or_left_comm.trans or_assoc.symm
    · have read : v.IsInputPort x.1.source l ↔ ∃ id ∈ g.inputs.map Signal.driver, l = .port id := by
        simp [View.IsInputPort, found]
      rw [List.exists_mem_cons_iff, read]
      exact or_left_comm.trans or_assoc.symm

theorem exists_cutTriggers (h : View.IsImage f v w) (hs : Carries f sources (· ∈ v.part.sources))
    (ht : Carries f targets (· ∈ v.part.targets))
    (hg : Carries f triggers fun l => ∃ t ∈ v.part.triggers, l = .port t) :
    ∃ cut, cutTriggers v w sources targets triggers = .ok cut ∧
      Carries f cut.1 v.IsCutSource ∧ Carries f cut.2 v.IsCutTarget := by
  have keys : ∀ t, (∃ x ∈ triggers.toList, x.1.source = t) ↔ t ∈ v.part.triggers := by
    intro t
    constructor
    · intro bound
      obtain ⟨x, mem, rfl⟩ := bound
      obtain ⟨t, trigger, port⟩ := (hg.keys _).mp (mem_of_getElem? (TreeMap.mem_toList_iff_getElem?_eq_some.mp mem))
      rw [port]
      exact trigger
    · intro trigger
      obtain ⟨r, found⟩ := Option.isSome_iff_exists.mp
        (TreeMap.mem_iff_isSome_getElem?.mp ((hg.keys (.port t)).mpr ⟨t, trigger, rfl⟩))
      exact ⟨(.port t, r), TreeMap.mem_toList_iff_getElem?_eq_some.mpr found, rfl⟩
  obtain ⟨cut, made, hs', ht'⟩ := @foldlM_cutTrigger f v w h triggers.toList
    (fun x mem => ⟨(keys _).mp ⟨x, mem, rfl⟩, hg.drivers (TreeMap.mem_toList_iff_getElem?_eq_some.mp mem)⟩)
    (sources, targets) _ _ hs ht
  refine ⟨cut, made, hs'.congr fun l => or_congr_left ?_, ht'.congr fun l => or_congr_left ?_⟩
  · simp only [← keys]
    grind
  · simp only [← keys]
    grind

/-! ## Flat checks -/

/-- A VIEW EQUALS ITS IMAGE, under bindings of its boundary and its triggers to their images. -/
theorem flat_image (correct : c.oracle.Correct) (room : c.simBound ≤ 64) (h : View.IsImage f v w)
    (small : 7 * v.demand ≤ Lit.largestVar + 1) (customFree : v.CustomFree) (timed : v.Timed) (harmless : Harmless v w)
    (hs : Carries f sources (· ∈ v.part.sources)) (ht : Carries f targets (· ∈ v.part.targets)) {hints : Hints}
    (hasTriggers : hints.triggers = some triggers)
    (hg : Carries f triggers fun l => ∃ t ∈ v.part.triggers, l = .port t) :
    (c.flat v w sources targets hints).outcome = .ok .equal := by
  by_cases comb : v.part.isCombinational = true
  · rw [outcome_flat_combinational comb (h.isCombinational_eq.symm.trans comb)]
    exact combinational_image correct room h small customFree timed harmless
      (hs.congr fun l => (View.isCutSource_iff comb).symm) (ht.congr fun l => (View.isCutTarget_iff comb).symm)
  · obtain ⟨cut, made, hs', ht'⟩ := exists_cutTriggers h hs ht hg
    have sameKind : Result.require (v.part.isCombinational == w.part.isCombinational) .mixedKinds = .ok () :=
      Result.require_eq_ok.mpr (beq_iff_eq.mpr h.isCombinational_eq)
    simp only [flat, Traced.outcome_bind, Traced.outcome_require, sameKind, Result.ok_bind, if_neg comb, hasTriggers,
      byTriggers, Traced.outcome_liftM, made, Traced.outcome_note]
    exact combinational_image correct room h small customFree timed harmless hs' ht'

end Checker

end LogicNet
