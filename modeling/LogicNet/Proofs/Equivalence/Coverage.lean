import LogicNet.Proofs.Equivalence.Strategies

/-!
# What a verdict has looked at

A check compares what is bound. It is told by the bindings which links these are, and before it compares it asks for
enough pairs: as many pairs of sources as either netlist has sources, and as many pairs of targets as the RIGHT
netlist has targets. It counts, and never looks a link up.

**The law** (`verdict_covers`): a count is enough where no pair is wasted. If every key is a link of the left boundary,
all of that boundary are keys, and if every value is a link of the right boundary and no two are the same, all of that
boundary are values. The targets on the left are not counted, so there the number of pairs has to be asked for, and it
is exactly what is missing.

A wasted pair hides a link, and so does a target that is not counted (`equal_leaves_uncompared`). None of the four
verdicts there says anything about the link that it leaves out.
-/

namespace LogicNet

open Std

/-! ## Pairs that are not wasted -/

/-- Every key is one of the links. -/
def KeysWithin (b : Binding) (links : LinkSet) : Prop := ∀ l ∈ b, l ∈ links

/-- Every value is one of the links, and no two keys have the same. -/
structure ValuesWithin (b : Binding) (links : LinkSet) : Prop where
  inside : ∀ l r : Link, b[l]? = some r → r ∈ links
  distinct : ∀ {l l' r : Link}, b[l]? = some r → b[l']? = some r → l = l'

/-- Some of the links without repetition, and not fewer, are all of them. -/
theorem mem_of_length_le {links : LinkSet} {some : List Link} (nodup : some.Nodup)
    (inside : ∀ l ∈ some, l ∈ links) (enough : links.size ≤ some.length) : ∀ l ∈ links, l ∈ some := by
  have subperm := nodup.subperm fun l mem => TreeSet.mem_toList.mpr (inside l mem)
  have perm := subperm.perm_of_length_le (by rw [TreeSet.length_toList]; exact enough)
  intro l mem
  exact perm.mem_iff.mpr (TreeSet.mem_toList.mpr mem)

/-- Keys that are all links are all of the links exactly if there are enough of them. -/
theorem KeysWithin.covers_iff {b : Binding} {links : LinkSet} (h : KeysWithin b links) :
    (∀ l ∈ links, l ∈ b) ↔ links.size ≤ b.size := by
  constructor
  · intro covers
    have keys : ∀ l, l ∈ b ↔ l ∈ links := fun l => ⟨h l, covers l⟩
    exact Nat.le_of_eq (size_eq_of_keys keys).symm
  · intro enough l mem
    have inside : ∀ l ∈ b.keys, l ∈ links := fun l key => h l (TreeMap.mem_keys.mp key)
    exact TreeMap.mem_keys.mp
      (mem_of_length_le (nodup_keys b) inside (by rw [TreeMap.length_keys]; exact enough) l mem)

/-- Values that are all links, each once, are all of the links if there are enough of them. -/
theorem ValuesWithin.covers {b : Binding} {links : LinkSet} (h : ValuesWithin b links) (enough : links.size ≤ b.size) :
    ∀ r ∈ links, ∃ l : Link, b[l]? = some r := by
  have inside : ∀ r ∈ b.toList.map Prod.snd, r ∈ links := by
    refine List.forall_mem_map.mpr fun x mem => ?_
    exact h.inside x.1 x.2 (TreeMap.mem_toList_iff_getElem?_eq_some.mp mem)
  intro r mem
  have many : links.size ≤ (b.toList.map Prod.snd).length := by
    rw [List.length_map, TreeMap.length_toList]
    exact enough
  have value := mem_of_length_le (nodup_values h.distinct) inside many r mem
  obtain ⟨⟨l, _⟩, pair, rfl⟩ := List.mem_map.mp value
  exact ⟨l, TreeMap.mem_toList_iff_getElem?_eq_some.mp pair⟩

/-! ## Verdicts -/

namespace Checker

/-- A VERDICT COVERS BOTH BOUNDARIES as far as no pair is wasted. On the left this takes as many pairs of targets as
there are targets, for which a check does not ask. -/
theorem verdict_covers {c : Checker} {left right : Netlist} {hints : Hints} {verdict : Verdict}
    (made : (c.check left right hints).outcome = .ok verdict) :
    ∃ sources targets, hints.sources = some sources ∧ hints.targets = some targets ∧
      (KeysWithin sources left.sources → ∀ l ∈ left.sources, l ∈ sources) ∧
      (ValuesWithin sources right.sources → ∀ r ∈ right.sources, ∃ l : Link, sources[l]? = some r) ∧
      (ValuesWithin targets right.targets → ∀ r ∈ right.targets, ∃ l : Link, targets[l]? = some r) ∧
      (KeysWithin targets left.targets →
        ((∀ l ∈ left.targets, l ∈ targets) ↔ left.targets.size ≤ targets.size)) := by
  obtain ⟨⟨sources, targets⟩, bindings⟩ := bindings_of_check made
  obtain ⟨hasSources, hasTargets, counts, enoughSources, enoughTargets⟩ := requireBindings_eq_ok.mp bindings
  have counts : left.sources.size = right.sources.size := counts
  have enoughSources : left.sources.size ≤ sources.size := enoughSources
  refine ⟨sources, targets, hasSources, hasTargets, ?_, ?_, ?_, KeysWithin.covers_iff⟩
  · intro within
    exact within.covers_iff.mpr enoughSources
  · intro within
    exact within.covers (counts ▸ enoughSources)
  · intro within
    exact within.covers enoughTargets

section Samples

/-- An input, as it is and negated. -/
def bothPolarities : Netlist := .made [⟨.input, []⟩, .nary .not [⟨0⟩], .nary .output [⟨0⟩], .nary .output [⟨1⟩]]

/-- An input as it is. -/
def onePolarity : Netlist := .made [⟨.input, []⟩, .nary .output [⟨0⟩]]

/-- An input as it is, two times. -/
def samePolarity : Netlist := .made [⟨.input, []⟩, .nary .output [⟨0⟩], .nary .output [⟨0⟩]]

/-- The conjunction of two inputs. -/
def conjunction : Netlist := .made [⟨.input, []⟩, ⟨.input, []⟩, .nary .and [⟨0⟩, ⟨1⟩], .nary .output [⟨2⟩]]

/-- Two inputs that do not matter. -/
def indifferent : Netlist := .made [⟨.input, []⟩, ⟨.input, []⟩, ⟨.zero, []⟩, .nary .output [⟨2⟩]]

theorem keysWithin_of_all {b : Binding} {links : LinkSet} (all : b.keys.all links.contains = true) :
    KeysWithin b links := fun l mem => List.all_eq_true.mp all l (TreeMap.mem_keys.mpr mem)

/-- Two bound inputs and one bound output leave nothing out. -/
theorem conjunction_covered :
    (Checker.check {} conjunction conjunction (boundHints (portPairs [(0, 0), (1, 1)]) (portPairs [(3, 3)]))).outcome =
        .ok .equal ∧
      (∀ l ∈ conjunction.sources, l ∈ portPairs [(0, 0), (1, 1)]) ∧
      ∀ l ∈ conjunction.targets, l ∈ portPairs [(3, 3)] := by
  have equal : (Checker.check {} conjunction conjunction
      (boundHints (portPairs [(0, 0), (1, 1)]) (portPairs [(3, 3)]))).outcome = .ok .equal := by decide +kernel
  obtain ⟨sources, targets, hasSources, hasTargets, keys, _, _, targetKeys⟩ := verdict_covers equal
  cases hasSources
  cases hasTargets
  exact ⟨equal, keys (keysWithin_of_all (by decide +kernel)),
    (targetKeys (keysWithin_of_all (by decide +kernel))).mpr (by decide +kernel)⟩

/-- Equal, and yet a link of circuits of logic gates is not bound: a target on the left of which there are more than
on the right, a source on the left whose pair went to a link that is not there, and a source and a target on the right
whose pairs went to another one. -/
theorem equal_leaves_uncompared :
    (bothPolarities.view.Circuit ∧ onePolarity.view.Circuit ∧ samePolarity.view.Circuit ∧ conjunction.view.Circuit ∧
      indifferent.view.Circuit) ∧
    ((Checker.check {} bothPolarities onePolarity
        (boundHints (portPairs [(0, 0)]) (portPairs [(2, 1)]))).outcome = .ok .equal ∧
      Link.port ⟨3⟩ ∈ bothPolarities.targets ∧ Link.port ⟨3⟩ ∉ portPairs [(2, 1)]) ∧
    ((Checker.check {} conjunction indifferent
        (boundHints (portPairs [(0, 0), (9, 1)]) (portPairs [(3, 3)]))).outcome = .ok .equal ∧
      Link.port ⟨1⟩ ∈ conjunction.sources ∧ Link.port ⟨1⟩ ∉ portPairs [(0, 0), (9, 1)]) ∧
    ((Checker.check {} indifferent conjunction
        (boundHints (portPairs [(0, 0), (1, 0)]) (portPairs [(3, 3)]))).outcome = .ok .equal ∧
      Link.port ⟨1⟩ ∈ conjunction.sources ∧ Link.port ⟨1⟩ ∉ (portPairs [(0, 0), (1, 0)]).values) ∧
    ((Checker.check {} samePolarity bothPolarities
        (boundHints (portPairs [(0, 0)]) (portPairs [(1, 2), (2, 2)]))).outcome = .ok .equal ∧
      Link.port ⟨3⟩ ∈ bothPolarities.targets ∧ Link.port ⟨3⟩ ∉ (portPairs [(1, 2), (2, 2)]).values) := by
  refine ⟨⟨?_, ?_, ?_, ?_, ?_⟩, ?_, ?_, ?_, ?_⟩
  iterate 5 exact View.circuit_made (by decide +kernel)
  all_goals decide +kernel

end Samples

end Checker

end LogicNet
