import LogicNet.Proofs.Equivalence.Images
import LogicNet.Proofs.Equivalence.Parts
import LogicNet.Proofs.Netlist.Copying

/-!
# A netlist equals its copy

A copy has the gates of a netlist under other identifiers, in the same parts. So the whole of the copy is the image
of the whole, and each of its parts the image of a part. The hints that come with the correspondence of the gates
bind every boundary, every trigger and every part, and under them a check finds netlist and copy equal
(`copy_equals`): flat or part by part, by simulation or by solving, with drivers outside and memory inside.

A copy is sorted, so it is free of loops, with one exception: a single gate is in order even if it feeds itself. Then
nothing leaves any view of it.
-/

namespace LogicNet

open Std

/-! ## Views of a copy -/

namespace Netlist.Copies

variable {net image : Netlist} {map : GateMap} (h : net.Copies map image)
include h

section Images

variable (consistent : net.Consistent) (consistent' : image.Consistent)
include consistent consistent'

theorem isImage_view : View.IsImage map.image net.view image.view where
  netlist := h.isImage
  coherentLeft := consistent.coherent_view
  coherentRight := consistent'.coherent_view
  gates := by
    intro id g found
    rw [consistent'.mem_view_gates, consistent.mem_view_gates]
    exact iff_of_true (h.pairs.image_known found) ⟨g, found⟩

theorem isImage_part {n : Nat} {p q : Part} (found : net.parts[n]? = some p) (found' : image.parts[n]? = some q) :
    View.IsImage map.image ⟨net, p, false⟩ ⟨image, q, false⟩ where
  netlist := h.isImage
  coherentLeft := consistent.coherent_part found
  coherentRight := consistent'.coherent_part found'
  gates := by
    intro id g known
    show map.image id ∈ q.gates ↔ id ∈ p.gates
    rw [consistent'.mem_part found', consistent.mem_part found, h.homes known]

end Images

/-- A copy with a loop is a copy of one gate that feeds itself. -/
theorem acyclic_or_lone (consistent' : image.Consistent) :
    image.view.Acyclic ∨ ∃ x, (∀ id g, net.gate? id = some g → id = x) ∧ Feeds net.gate? x x := by
  by_cases acyclic : image.view.Acyclic
  · exact .inl acyclic
  have few := h.loopless.resolve_right acyclic
  obtain ⟨t, loop⟩ := not_forall_not.mp acyclic
  -- There is one gate only, so already the first step of the loop leads back.
  obtain ⟨u, ⟨inside, inside', feeds⟩, _⟩ := Relation.TransGen.head'_iff.mp loop
  have only : ∀ y ∈ image.view.part.gates, y = t := by
    intro y mem
    obtain ⟨z, single⟩ := List.length_eq_one_iff.mp (Nat.le_antisymm few (List.length_pos_of_mem mem))
    rw [Netlist.view, single, List.mem_singleton] at mem inside
    rw [mem, inside]
  obtain ⟨a, x, feeds, imageA, imageX⟩ := h.isImage.feeds_iff.mp feeds
  rw [only u inside'] at imageX
  have same : a = x := by
    obtain ⟨g, found, _, s, read, driver⟩ := feeds
    exact h.isImage.injective (.inr ⟨x, g, s, found, read, driver⟩) (.inl ⟨g, found⟩) (imageA.trans imageX.symm)
  refine .inr ⟨x, fun id g found => ?_, ?_⟩
  · have image := only _ (consistent'.mem_view_gates.mpr (h.pairs.image_known found))
    obtain ⟨gx, here, _⟩ := feeds
    exact h.pairs.image_inj found here (image.trans imageX.symm)
  · rw [same] at feeds
    exact feeds

/-- Loops do no harm to the views of a copy. -/
theorem harmless (consistent' : image.Consistent) {v w : View} (isImage : View.IsImage map.image v w)
    (left : v.net = net) (right : w.net = image) : Checker.Harmless v w := by
  obtain rfl := left
  obtain rfl := right
  rcases h.acyclic_or_lone consistent' with acyclic | ⟨x, only, feeds⟩
  · refine .inl fun t loop => acyclic t (Relation.TransGen.mono (fun a b step => ?_) t t loop)
    obtain ⟨ga, foundA, _⟩ := isImage.coherentRight.known step.1
    obtain ⟨gb, foundB, _⟩ := isImage.coherentRight.known step.2.1
    exact ⟨consistent'.mem_view_gates.mpr ⟨ga, foundA⟩, consistent'.mem_view_gates.mpr ⟨gb, foundB⟩, step.2.2⟩
  · obtain ⟨ordered, unread⟩ := Checker.unread_of_lone isImage.coherentLeft only feeds
    have image : ∀ id' g', w.net.gate? id' = some g' → id' = map.image x := by
      intro id' g' found
      obtain ⟨id, g, here, same⟩ := h.isImage.onto found
      rw [← same, only id g here]
    have feeds' := h.isImage.feeds_iff.mpr ⟨x, x, feeds, rfl, rfl⟩
    exact .inr ⟨⟨ordered, (Checker.unread_of_lone isImage.coherentRight image feeds').1⟩, unread⟩

end Netlist.Copies

theorem Netlist.wellFormed_of_copy {net image : Netlist} {map : GateMap} (copied : net.copy = .ok (map, image)) :
    net.isWellFormed = true := by
  obtain ⟨_, wellFormed, _⟩ := Result.bind_eq_ok.mp copied
  exact Result.require_eq_ok.mp wellFormed

/-! ## Parts of a copy -/

namespace Checker

variable {c : Checker} {net image : Netlist} {map : GateMap} {hints : Hints} {sources targets triggers inner : Binding}

/-- The hints for a part are found if its boundary is bound, as a boundary of the whole or between parts. -/
theorem exists_partHints {v : View} {n : Nat} (entering : ∀ l ∈ v.part.sources, l ∈ sources ∨ l ∈ inner)
    (leaving : ∀ l ∈ v.part.targets, l ∈ targets ∨ l ∈ inner) :
    ∃ found, partHints hints sources targets inner n v = .ok found := by
  have bound : ∀ {whole : Binding} {links : LinkSet}, (∀ l ∈ links, l ∈ whole ∨ l ∈ inner) →
      ∃ b, Hints.bind (boundaryImage whole inner n) {} links.toList = .ok b := by
    intro whole links each
    refine Hints.exists_bind (fun l mem => ?_) {}
    have some : (whole[l]?.or inner[l]?).isSome = true := by
      rw [Option.isSome_or, Bool.or_eq_true, ← TreeMap.mem_iff_isSome_getElem?, ← TreeMap.mem_iff_isSome_getElem?]
      exact each l (TreeSet.mem_toList.mp mem)
    obtain ⟨r, found⟩ := Option.isSome_iff_exists.mp some
    exact ⟨r, Result.getOrBreach_eq_ok.mpr found⟩
  obtain ⟨sources', madeSources⟩ := bound entering
  obtain ⟨targets', madeTargets⟩ := bound leaving
  exact ⟨_, Result.bind_eq_ok.mpr ⟨sources', madeSources, Result.bind_eq_ok.mpr ⟨targets', madeTargets, rfl⟩⟩⟩

theorem triggers_partHints {v : View} {n : Nat} {found : Hints}
    (made : partHints hints sources targets inner n v = .ok found) :
    found.triggers = hints.triggers.map fun t => t.filter fun l _ => v.part.contains l.source := by
  obtain ⟨_, _, made⟩ := Result.bind_eq_ok.mp made
  obtain ⟨_, _, made⟩ := Result.bind_eq_ok.mp made
  cases made
  rfl

/-- The sizes of bindings that carry the boundary of a view to that of its image are as required. -/
theorem requireBindings_image {f : GateId → GateId} {v w : View} (isImage : View.IsImage f v w)
    (hasSources : hints.sources = some sources) (hasTargets : hints.targets = some targets)
    (hs : Carries f sources (· ∈ v.part.sources)) (ht : Carries f targets (· ∈ v.part.targets)) :
    requireBindings v w hints = .ok (sources, targets) := by
  refine requireBindings_eq_ok.mpr ⟨hasSources, hasTargets, isImage.size_sources, ?_, ?_⟩
  · exact Nat.le_of_eq (size_eq_of_keys hs.keys).symm
  · rw [← isImage.size_targets]
    exact Nat.le_of_eq (size_eq_of_keys ht.keys).symm

section Copy

variable (copies : net.Copies map image) (consistent : net.Consistent) (consistent' : image.Consistent)
include copies consistent

/-- Part by part, a netlist without empty parts is bound to its copy. -/
theorem parts_bound {bound : PartBinding × Binding}
    (binds : Hints.BindsParts net image map net.parts.length bound) (full : net.hasEmptyParts = false) {n : Nat} {p : Part}
    (found : net.parts[n]? = some p) :
    bound.1[n]? = some n ∧ ∀ l, l ∈ p.sources ∨ l ∈ p.targets → l.isPort = false → l ∈ bound.2 := by
  have nonempty : p.gates ≠ [] := by
    intro empty
    rw [Bool.eq_false_iff, ne_eq, consistent.tallied.hasEmptyParts_iff] at full
    exact full ⟨p, List.mem_of_getElem? found, by rw [Part.isEmpty, empty, List.isEmpty_nil]⟩
  have first : p.gates.head? = some (p.gates.head nonempty) := List.head?_eq_some_head nonempty
  have mem := List.head_mem nonempty
  obtain ⟨g, known⟩ := (consistent.parts n p found).accounts.known _ mem
  refine binds.binds (List.getElem?_eq_some_iff.mp found).1 found first ?_
  rw [copies.homes known]
  exact (consistent.mem_part found).mp mem

theorem parts_size {bound : PartBinding × Binding}
    (binds : Hints.BindsParts net image map net.parts.length bound) (full : net.hasEmptyParts = false) :
    net.parts.length = bound.1.size := by
  have members : ∀ n, n ∈ List.range net.parts.length ↔ n ∈ bound.1.keys := by
    intro n
    rw [List.mem_range, TreeMap.mem_keys]
    refine ⟨fun lt => ?_, binds.below n⟩
    rw [TreeMap.mem_iff_isSome_getElem?, (parts_bound copies consistent binds full (List.getElem?_eq_getElem lt)).1]
    rfl
  calc
    net.parts.length = (List.range net.parts.length).length := List.length_range.symm
    _ = bound.1.keys.length := length_eq_of_mem_iff List.nodup_range (nodup_keys bound.1) members
    _ = bound.1.size := TreeMap.length_keys

include consistent'

theorem flat_copy {v w : View} (correct : c.oracle.Correct) (room : c.simBound ≤ 64)
    (small : 7 * net.view.demand ≤ Lit.largestVar + 1) (isImage : View.IsImage map.image v w) (left : v.net = net)
    (right : w.net = image) (customFree : net.view.CustomFree) (timed : net.view.Timed)
    (hs : Carries map.image sources (· ∈ v.part.sources))
    (ht : Carries map.image targets (· ∈ v.part.targets)) (hasTriggers : hints.triggers = some triggers)
    (hg : Carries map.image triggers fun l => ∃ t ∈ v.part.triggers, l = .port t) :
    (c.flat v w sources targets hints).outcome = .ok .equal := by
  have inside : ∀ id ∈ v.part.gates, id ∈ net.view.part.gates := by
    intro id mem
    obtain ⟨g, found, _⟩ := isImage.coherentLeft.known mem
    rw [left] at found
    exact consistent.mem_view_gates.mpr ⟨g, found⟩
  have fewer : v.demand ≤ net.view.demand :=
    View.demand_le_of_subset left isImage.coherentLeft.covers.accounts.nodup inside
  have harmless := copies.harmless consistent' isImage left right
  refine flat_image correct room isImage (by omega) ?_ ?_ harmless hs ht hasTriggers hg
  · intro id mem g found
    rw [left] at found
    exact customFree id (inside id mem) g found
  · intro id mem g found
    rw [left] at found
    exact timed id (inside id mem) g found

/-- Each part is found equal to its copy. -/
theorem partPair_copy (correct : c.oracle.Correct) (room : c.simBound ≤ 64)
    (small : 7 * net.view.demand ≤ Lit.largestVar + 1) (customFree : net.view.CustomFree)
    (timed : net.view.Timed) (follows : Hints.Follows net image map hints sources targets triggers)
    {bound : PartBinding × Binding} (binds : Hints.BindsParts net image map net.parts.length bound)
    (full : net.hasEmptyParts = false) {n : Nat} (lt : n < net.parts.length) :
    (c.partPair net image hints sources targets bound.2 n n).outcome = .ok .equal := by
  obtain ⟨p, found⟩ : ∃ p, net.parts[n]? = some p := ⟨_, List.getElem?_eq_getElem lt⟩
  obtain ⟨q, found'⟩ : ∃ q, image.parts[n]? = some q :=
    ⟨_, List.getElem?_eq_getElem (by rw [copies.length]; exact lt)⟩
  have isImage := copies.isImage_part consistent consistent' found found'
  have covers := consistent.parts n p found
  obtain ⟨_, edges⟩ := parts_bound copies consistent binds full found
  -- A port on the boundary of a part is one on the boundary of the whole; every other link is between parts.
  obtain ⟨partial_, made⟩ : ∃ found, partHints hints sources targets bound.2 n ⟨net, p, false⟩ = .ok found := by
    refine exists_partHints (fun l enters => ?_) fun l leaves => ?_
    · cases isPort : l.isPort with
      | true => exact .inl ((follows.sources.keys l).mpr (consistent.port_enters_top found enters isPort))
      | false => exact .inr (edges l (.inl enters) isPort)
    · cases isPort : l.isPort with
      | true => exact .inl ((follows.targets.keys l).mpr (consistent.port_leaves_top found leaves isPort))
      | false => exact .inr (edges l (.inr leaves) isPort)
  obtain ⟨sources', targets', hasSources, hasTargets, hs, ht⟩ :=
    carries_partHints follows.sources follows.targets binds.carries made
  have hasTriggers := triggers_partHints made
  rw [follows.hasTriggers, Option.map_some] at hasTriggers
  refine partPair_eq_equal.mpr ⟨_, _, partial_, (sources', targets'), Netlist.partView_eq_ok.mpr ⟨p, found, rfl⟩,
    Netlist.partView_eq_ok.mpr ⟨q, found', rfl⟩, made, requireBindings_image isImage hasSources hasTargets hs ht, ?_⟩
  refine flat_copy copies consistent consistent' correct room small isImage rfl rfl customFree timed hs ht hasTriggers ?_
  refine (follows.triggers.filter fun l => p.contains l.source).congr fun l => ?_
  simp only [List.mem_map, TreeSet.mem_toList, consistent.top.accounts.triggers, covers.accounts.triggers]
  constructor
  · intro trigger
    obtain ⟨⟨t, ⟨_, isTrigger⟩, rfl⟩, inside⟩ := trigger
    exact ⟨t, ⟨covers.accounts.indexed.contains_iff.mp inside, isTrigger⟩, rfl⟩
  · intro trigger
    obtain ⟨t, ⟨inside, isTrigger⟩, rfl⟩ := trigger
    exact ⟨⟨t, ⟨consistent.part_subset found inside, isTrigger⟩, rfl⟩, covers.accounts.indexed.contains_iff.mpr inside⟩

/-- The check of the whole or of the parts, whichever is made. -/
theorem check_copy (correct : c.oracle.Correct) (room : c.simBound ≤ 64)
    (small : 7 * net.view.demand ≤ Lit.largestVar + 1) (customFree : net.view.CustomFree)
    (timed : net.view.Timed) (wellFormed : net.isWellFormed = true) (derived : Hints.ofMap net image map = .ok hints) :
    (c.check net image hints).outcome = .ok .equal := by
  obtain ⟨sources, targets, triggers, follows⟩ := Hints.follows_of_ofMap derived
  have isImage := copies.isImage_view consistent consistent'
  have bindings := requireBindings_image isImage follows.hasSources follows.hasTargets follows.sources follows.targets
  by_cases flat : hints.parts = none ∨ net.size + image.size ≤ c.flatBound
  · rw [outcome_check_flat bindings flat]
    refine flat_copy copies consistent consistent' correct room small isImage rfl rfl customFree timed follows.sources
      follows.targets follows.hasTriggers (follows.triggers.congr fun l => ?_)
    rw [List.mem_map]
    simp only [TreeSet.mem_toList, eq_comm]
    rfl
  · obtain ⟨isDivided, large⟩ := not_or.mp flat
    obtain ⟨bound, hasParts, hasInner, binds⟩ := follows.parts.resolve_left isDivided
    obtain ⟨divided, length⟩ := follows.divided isDivided
    have notFlat : net.isFlat = false := List.isEmpty_eq_false_iff.mpr divided
    have notFlat' : image.isFlat = false := by
      refine List.isEmpty_eq_false_iff.mpr fun empty => divided ?_
      rw [empty, List.length_nil] at length
      exact List.length_eq_zero_iff.mp length
    have full : net.hasEmptyParts = false := by
      rw [Netlist.isWellFormed, notFlat, Bool.false_or, Bool.and_eq_true, Bool.not_eq_true', Bool.not_eq_true'] at wellFormed
      exact wellFormed.2
    rw [outcome_check_parts bindings hasParts (Nat.lt_of_not_le large)]
    refine byParts_eq_equal.mpr ⟨⟨notFlat, notFlat'⟩, length, parts_size copies consistent binds full, bound.2, hasInner, ?_⟩
    intro x mem
    have here := TreeMap.mem_toList_iff_getElem?_eq_some.mp mem
    have lt := binds.below x.1 (TreeMap.mem_iff_isSome_getElem?.mpr (by rw [here]; rfl))
    have same := (parts_bound copies consistent binds full (List.getElem?_eq_getElem lt)).1
    rw [here] at same
    rw [Option.some.inj same]
    exact partPair_copy copies consistent consistent' correct room small customFree timed follows binds full lt

end Copy

section Samples

/-- A flip-flop and a latch in different parts, each of which reads the other part, and two drivers outside that
several gates read. -/
def crossedMemory : Netlist := divided [.nary .xor [⟨0⟩, ⟨1⟩], ⟨.flipFlop, [.plain ⟨2⟩, ⟨.rising, ⟨1⟩⟩]⟩,
  ⟨.latch, [.plain ⟨3⟩, ⟨.high, ⟨0⟩⟩]⟩, .nary .and [⟨4⟩, ⟨0⟩, ⟨2⟩], .nary .output [⟨5⟩]] [[2, 4], [3, 5, 6]]

end Samples

end Checker

end LogicNet
