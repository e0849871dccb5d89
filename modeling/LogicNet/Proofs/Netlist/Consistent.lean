import Mathlib.Data.List.Perm.Subperm
import LogicNet.Proofs.Netlist.Boundary

/-!
# Consistent netlists

THE REPRESENTATION INVARIANT. A netlist is consistent when its table is wired and everything it
keeps beside the table is what the table says: `top` covers all gates, every part covers the gates
whose home it is, every home is a part, and the tallies are those of the homes and the parts.

A part COVERS its members when its list is exactly the members, it accounts for them, and it has
their boundary. The tallies do not depend on the gate table: they are right as long as they follow
every gate that enters or leaves a part (`Tallied.enterPart`, `Tallied.leavePart`).

Four edits change the links or the home of one gate and then refresh the boundaries they can reach:
building, changing, removing and moving. What refreshing owes is shown once, in
`Consistent.refreshed`. It is told which links the gate has or had and where it was, and it needs
nothing else about the edit.
-/

namespace LogicNet

open Std

/-- The part lists exactly the members, accounts for them, and has their boundary. -/
structure Covers (gate? : GateId → Option Gate) (member : GateId → Bool) (p : Part) : Prop where
  members : ∀ id, member id = true ↔ id ∈ p.gates
  accounts : Accounts gate? p
  bounds : Bounds gate? member p

/-- The gates of a part are up to date, but its boundary is still that of the part `before`. -/
structure Stale (gate? : GateId → Option Gate) (member : GateId → Bool) (before now : Part) : Prop where
  members : ∀ id, member id = true ↔ id ∈ now.gates
  accounts : Accounts gate? now
  sources : now.sources = before.sources
  targets : now.targets = before.targets

theorem Stale.bounds {gate? before? : GateId → Option Gate} {member member' : GateId → Bool}
    {before now : Part} (h : Stale gate? member' before now) (bounds : Bounds before? member before) :
    Bounds before? member now := by
  constructor
  · rw [h.sources]
    exact bounds.sources
  · rw [h.targets]
    exact bounds.targets

theorem Stale.settled {gate? : GateId → Option Gate} {net : Netlist} {id : GateId} {links : List Link}
    {member member' : GateId → Bool} {before now : Part} (h : Stale net.gate? member' before now)
    (around : Around gate? net.gate? id links) (edges : ∀ l ∈ links, l.isPort = false)
    (members : ∀ x ≠ id, member' x = member x) (bounds : Bounds gate? member before) :
    Covers net.gate? member' (net.settle id links member' now) := by
  have same := Netlist.settle_sameGates net id links member' now
  refine ⟨?_, h.accounts.sameGates same, around.settle edges members (h.bounds bounds)⟩
  rw [same.gates]
  exact h.members

/-- A part none of whose gates changes its shape is as up to date as it was. -/
theorem Covers.stale {gate? gate?' : GateId → Option Gate} {member : GateId → Bool} {p : Part}
    (h : Covers gate? member p) (shapes : ∀ x ∈ p.gates, SameShape gate?' gate? x) :
    Stale gate?' member p p :=
  ⟨h.members, h.accounts.congr shapes, rfl, rfl⟩

/-- A part without gates covers no members. -/
theorem Covers.nothing {gate? : GateId → Option Gate} {member : GateId → Bool}
    (none : ∀ id, member id = false) : Covers gate? member {} where
  members := by simp [none]
  accounts := ⟨.nil, by simp [Part.Indexed], by simp, by simp, by simp, rfl, by simp⟩
  bounds := by constructor <;> intro l <;> simp [Enters, Leaves, OnBoundary, none]

namespace Covers

variable {gate? gate?' : GateId → Option Gate} {member member' : GateId → Bool} {p : Part} {g : Gate}

/-- A gate joins the part. -/
theorem inserted (h : Covers gate? member p) (held : Holds gate?' g) (new : g.id ∉ p.gates)
    (shapes : ∀ x ≠ g.id, SameShape gate?' gate? x)
    (members : ∀ x, member' x = true ↔ x = g.id ∨ member x = true) : Stale gate?' member' p (p.insert g) := by
  have others : ∀ x ∈ p.gates, x ≠ g.id := by
    rintro x mem rfl
    exact new mem
  refine ⟨?_, (h.accounts.congr fun x mem => shapes x (others x mem)).insert held new, rfl, rfl⟩
  intro x
  rw [members, h.members x]
  simp [Part.insert, Part.classify, Part.disturb, or_comm]

/-- A gate leaves the part. -/
theorem erased (h : Covers gate? member p) (held : Holds gate? g) (inside : member g.id = true)
    (shapes : ∀ x ≠ g.id, SameShape gate?' gate? x)
    (members : ∀ x, member' x = true ↔ x ≠ g.id ∧ member x = true) : Stale gate?' member' p (p.erase g) := by
  have mem := (h.members _).mp inside
  have listed : ∀ x, x ∈ (p.erase g).gates ↔ x ≠ g.id ∧ x ∈ p.gates := by
    intro x
    rw [(Part.erase_perm h.accounts.indexed h.accounts.nodup mem).mem_iff, h.accounts.nodup.mem_erase_iff]
  refine ⟨?_, ?_, p.erase_sources g, p.erase_targets g⟩
  · intro x
    rw [members, listed, h.members x]
  · refine (h.accounts.erase held mem).congr fun x mem => ?_
    exact shapes x ((listed x).mp mem).1

/-- A gate of the part changes its shape. -/
theorem reclassified (h : Covers gate? member p) {old : Gate} (held : Holds gate? old)
    (inside : member old.id = true) (held' : Holds gate?' g) (keyed : g.id = old.id)
    (shapes : ∀ x ≠ old.id, SameShape gate?' gate? x) :
    Stale gate?' member p ((p.unclassify old).classify g).disturb :=
  ⟨h.members, h.accounts.reclassify held ((h.members _).mp inside) held' keyed shapes, rfl, rfl⟩

/-- Computed from nothing, a part that covers its gates still does. -/
theorem rebuilt {next : Nat} (wired : Wired gate? next) (h : Covers gate? member p) :
    Covers gate? member (p.rebuild gate? member) where
  members id := by
    rw [Part.rebuild_gates]
    exact h.members id
  accounts := Part.rebuild_accounts wired h.accounts.nodup h.accounts.indexed h.accounts.known h.accounts.ordered
  bounds := Part.rebuild_bounds wired h.accounts.known h.members

end Covers

/-- A gate that is found under a shape has that shape, and it is one that is built only once. -/
def Shares (gate? : GateId → Option Gate) (shared : TreeMap Shape GateId) : Prop :=
  ∀ (s : Shape) (id : GateId), shared[s]? = some id →
    s.isShareable = true ∧ (gate? id).map Gate.toShape = some s

theorem Shares.congr {gate? gate?' : GateId → Option Gate} {shared shared' : TreeMap Shape GateId}
    (h : Shares gate? shared) (kept : ∀ (s : Shape) (id : GateId), shared'[s]? = some id →
      shared[s]? = some id ∧ SameShape gate?' gate? id) : Shares gate?' shared' := by
  intro s id found
  obtain ⟨before, same⟩ := kept s id found
  obtain ⟨shareable, shape⟩ := h s id before
  exact ⟨shareable, Eq.trans same shape⟩

/-- A map lists each of its keys once. -/
theorem nodup_keys {α β : Type} [Ord α] [TransOrd α] [LawfulEqOrd α] (m : TreeMap α β) : m.keys.Nodup := by
  refine m.distinct_keys.imp ?_
  rintro a _ different rfl
  exact different ReflCmp.compare_self

namespace Netlist

/-- The tallies are those of the homes and of the parts. -/
structure Tallied (net : Netlist) : Prop where
  housed : net.housed = net.home.size
  emptied : ∀ n, n ∈ net.emptyParts ↔ net.parts[n]?.map Part.gates = some []

/-- Everything kept beside the gate table agrees with it. -/
structure Consistent (net : Netlist) : Prop where
  wired : Wired net.gate? net.nextId
  top : Covers net.gate? net.contains net.top
  parts : ∀ (n : Nat) (p : Part), net.parts[n]? = some p → Covers net.gate? (net.inPart n) p
  homes : ∀ (id : GateId) (n : Nat), net.partOf? id = some n → n < net.parts.length
  tallied : net.Tallied
  shared : Shares net.gate? net.shared

/-! ## Reading a netlist -/

theorem contains_eq_isSome (net : Netlist) (id : GateId) : net.contains id = (net.gate? id).isSome :=
  TreeMap.contains_eq_isSome_getElem?

theorem contains_iff {net : Netlist} {id : GateId} :
    net.contains id = true ↔ ∃ g, net.gate? id = some g := by
  rw [contains_eq_isSome, Option.isSome_iff_exists]

/-- Where two netlists have gates of the same shape, both have one or none. -/
theorem contains_congr {net net' : Netlist} {x : GateId} (h : SameShape net'.gate? net.gate? x) :
    net'.contains x = net.contains x := by
  rw [Bool.eq_iff_iff, contains_iff, contains_iff]
  simpa using h.exists_iff fun _ => True

theorem inPart_iff {net : Netlist} {n : Nat} {id : GateId} :
    net.inPart n id = true ↔ net.partOf? id = some n := by
  simp [inPart]

theorem gate_eq_ok {net : Netlist} {id : GateId} {g : Gate} :
    net.gate id = .ok g ↔ net.gate? id = some g := Result.getOrBreach_eq_ok

theorem linksOf_eq {net : Netlist} {id : GateId} {g : Gate} (found : net.gate? id = some g) :
    net.linksOf id = g.inputLinks ++ g.fanout := by
  have found : net.table[id]? = some g := found
  simp [linksOf, found]

/-- The netlist without gates, whatever its next number is. -/
theorem consistent_unused (next : Nat) : ({ nextId := next } : Netlist).Consistent where
  wired := by
    refine ⟨⟨?_, ?_, ?_⟩, ?_, ?_, ?_⟩ <;> intro id g found <;> simp [gate?] at found
  top := .nothing fun _ => by simp [contains]
  parts := by simp
  homes := by simp [partOf?]
  tallied := ⟨rfl, by simp⟩
  shared := by simp [Shares]

/-- A gate of the netlist may be the one found under its shape. -/
theorem Consistent.register {net : Netlist} (h : net.Consistent) {g : Gate} (held : Holds net.gate? g) :
    (net.register g).Consistent := by
  unfold Netlist.register
  split
  · next shareable =>
    refine ⟨h.wired, h.top, h.parts, h.homes, ⟨h.tallied.housed, h.tallied.emptied⟩, ?_⟩
    intro s id found
    simp only [TreeMap.getElem?_insertIfNew, LawfulEqCmp.compare_eq_iff_eq] at found
    split at found
    · next new =>
      cases found
      rw [← new.1]
      exact ⟨shareable, held⟩
    · exact h.shared s id found
  · exact h

/-- Once a gate is forgotten, nothing leads to it. -/
theorem getElem?_unregister {net : Netlist} (h : Shares net.gate? net.shared) {g : Gate}
    (held : Holds net.gate? g) {s : Shape} {id : GateId} (found : (net.unregister g).shared[s]? = some id) :
    net.shared[s]? = some id ∧ id ≠ g.id := by
  have shape : ∀ {s : Shape}, net.shared[s]? = some g.id → s = g.toShape := by
    intro s before
    have := (h s g.id before).2
    rw [held] at this
    exact (Option.some.inj this).symm
  unfold unregister at found
  split at found
  · simp only [TreeMap.getElem?_erase, LawfulEqCmp.compare_eq_iff_eq] at found
    split at found
    · cases found
    · next other =>
      refine ⟨found, ?_⟩
      rintro rfl
      exact other (shape found).symm
  · next notShared =>
    refine ⟨found, ?_⟩
    rintro rfl
    rw [shape found] at found
    simp [found] at notShared

/-- A gate in a part is in the netlist. -/
theorem Consistent.known_of_home {net : Netlist} (h : net.Consistent) {id : GateId} {n : Nat}
    (home : net.partOf? id = some n) : ∃ g, net.gate? id = some g := by
  have part := h.parts n _ (List.getElem?_eq_getElem (h.homes id n home))
  exact part.accounts.known id ((part.members id).mp (inPart_iff.mpr home))

/-- A part in which some gate is at home lists it. -/
theorem Consistent.occupied_of_home {net : Netlist} (h : net.Consistent) {id : GateId} {n : Nat}
    (home : net.partOf? id = some n) : net.parts[n]?.map Part.gates ≠ some [] := by
  intro empty
  obtain ⟨p, found, empty⟩ := Option.map_eq_some_iff.mp empty
  have mem := ((h.parts n p found).members id).mp (inPart_iff.mpr home)
  rw [empty] at mem
  cases mem

/-! ## Tallies -/

section Tallies

variable {net net' : Netlist}

/-- The tallies depend on the homes and on what the parts list. -/
theorem Tallied.congr (h : net.Tallied)
    (gates : ∀ n : Nat, net'.parts[n]?.map Part.gates = net.parts[n]?.map Part.gates)
    (home : net'.home = net.home) (emptyParts : net'.emptyParts = net.emptyParts)
    (housed : net'.housed = net.housed) : net'.Tallied where
  housed := by rw [housed, home, h.housed]
  emptied n := by rw [emptyParts, gates, h.emptied]

theorem any_isEmpty_iff {p? : Option Part} : p?.any Part.isEmpty = true ↔ p?.map Part.gates = some [] := by
  cases p? <;> simp [Part.isEmpty]

/-- A gate leaves the part that lists it. -/
theorem Tallied.leavePart (h : net.Tallied) {id : GateId} {g : Gate}
    (listed : ∀ n, net.partOf? id = some n → net.parts[n]?.map Part.gates ≠ some []) :
    (net.leavePart id g).Tallied := by
  unfold Netlist.leavePart
  split
  · next n home =>
    have known : net.home.contains id = true := by
      rw [TreeMap.contains_eq_isSome_getElem?, ← Netlist.partOf?, home, Option.isSome_some]
    have occupied : n ∉ net.emptyParts := fun mem => listed n home ((h.emptied n).mp mem)
    constructor
    · simp only [TreeMap.size_erase, known, if_true, h.housed]
    · intro m
      simp only
      by_cases here : n = m
      · subst here
        rw [← any_isEmpty_iff]
        split
        · next emptied => exact iff_of_true TreeSet.mem_insert_self emptied
        · next still => exact iff_of_false occupied still
      · have kept : (net.parts.modify n (·.erase g))[m]? = net.parts[m]? := by
          simp [here]
        rw [kept, ← h.emptied m]
        split
        · simp [here]
        · exact Iff.rfl
  · exact h

/-- A gate that is in no part enters one. -/
theorem Tallied.enterPart (h : net.Tallied) {id : GateId} {g : Gate} {n : Nat} (new : net.partOf? id = none) :
    (net.enterPart id g n).Tallied := by
  constructor
  · have unknown : net.home.contains id = false := by
      rw [TreeMap.contains_eq_isSome_getElem?, ← Netlist.partOf?, new, Option.isSome_none]
    simp [Netlist.enterPart, TreeMap.size_insert, unknown, h.housed]
  · intro m
    simp only [Netlist.enterPart, TreeSet.mem_erase, List.getElem?_modify, h.emptied]
    by_cases here : n = m
    · subst here
      cases net.parts[n]? <;> simp [Part.insert, Part.classify, Part.disturb]
    · simp [here]

/-- Empty parts are tallied exactly. -/
theorem Tallied.hasEmptyParts_iff (h : net.Tallied) :
    net.hasEmptyParts = true ↔ ∃ p ∈ net.parts, p.isEmpty = true := by
  rw [hasEmptyParts, Bool.not_eq_true', TreeSet.isEmpty_eq_false_iff_exists_mem]
  constructor
  · rintro ⟨n, mem⟩
    obtain ⟨p, found, empty⟩ := Option.map_eq_some_iff.mp ((h.emptied n).mp mem)
    exact ⟨p, List.mem_of_getElem? found, by rw [Part.isEmpty, empty, List.isEmpty_nil]⟩
  · rintro ⟨p, mem, empty⟩
    obtain ⟨n, found⟩ := List.mem_iff_getElem?.mp mem
    exact ⟨n, (h.emptied n).mpr (by rw [found, Option.map_some, List.isEmpty_iff.mp empty])⟩

end Tallies

/-! ## What the numbers say -/

section Numbers

variable {net : Netlist}

/-- Every home is counted in the part it leads to. -/
theorem Consistent.home_size (h : net.Consistent) : net.home.size = (net.parts.map Part.size).sum := by
  have members : ∀ {n p}, net.parts[n]? = some p → ∀ x, x ∈ p.gates ↔ net.partOf? x = some n := by
    intro n p found x
    rw [← inPart_iff, (h.parts n p found).members]
  have nodup : (net.parts.flatMap Part.gates).Nodup := by
    refine List.nodup_flatMap.mpr ⟨?_, ?_⟩
    · intro p mem
      obtain ⟨n, found⟩ := List.mem_iff_getElem?.mp mem
      exact (h.parts n p found).accounts.nodup
    · rw [List.pairwise_iff_getElem]
      intro i j hi hj lt x here there
      rw [members (List.getElem?_eq_getElem hi)] at here
      rw [members (List.getElem?_eq_getElem hj), here] at there
      have := Option.some.inj there
      omega
  have perm : net.home.keys.Perm (net.parts.flatMap Part.gates) := by
    refine (List.perm_ext_iff_of_nodup (nodup_keys net.home) nodup).mpr fun x => ?_
    rw [TreeMap.mem_keys, TreeMap.mem_iff_isSome_getElem?, Option.isSome_iff_exists, List.mem_flatMap]
    constructor
    · rintro ⟨n, home⟩
      have found := List.getElem?_eq_getElem (h.homes x n home)
      exact ⟨_, List.mem_of_getElem? found, (members found x).mpr home⟩
    · rintro ⟨p, mem, inside⟩
      obtain ⟨n, found⟩ := List.mem_iff_getElem?.mp mem
      exact ⟨n, (members found x).mp inside⟩
  rw [← TreeMap.length_keys, perm.length_eq, List.length_flatMap]
  rfl

/-- Orphans are counted exactly. -/
theorem Consistent.hasOrphans_iff (h : net.Consistent) :
    net.hasOrphans = true ↔ ∃ id, net.contains id = true ∧ net.partOf? id = none := by
  have known : net.home.keys ⊆ net.table.keys := by
    intro x mem
    rw [TreeMap.mem_keys, TreeMap.mem_iff_isSome_getElem?, Option.isSome_iff_exists] at mem ⊢
    obtain ⟨n, home⟩ := mem
    exact h.known_of_home home
  have sub := List.Nodup.subperm (nodup_keys net.home) known
  rw [hasOrphans, decide_eq_true_eq, h.tallied.housed, ← TreeMap.length_keys, ← TreeMap.length_keys]
  constructor
  · intro fewer
    obtain ⟨id, inside, orphan⟩ : ∃ id ∈ net.table.keys, id ∉ net.home.keys := by
      by_contra all
      push Not at all
      exact Nat.not_le.mpr fewer (List.Nodup.subperm (nodup_keys net.table) all).length_le
    rw [TreeMap.mem_keys, ← TreeMap.contains_iff_mem] at inside
    rw [TreeMap.mem_keys, TreeMap.mem_iff_isSome_getElem?, Option.not_isSome_iff_eq_none] at orphan
    exact ⟨id, inside, orphan⟩
  · rintro ⟨id, inside, orphan⟩
    by_contra full
    have mem : id ∈ net.table.keys := by rwa [TreeMap.mem_keys, ← TreeMap.contains_iff_mem]
    rw [← (sub.perm_of_length_le (Nat.not_lt.mp full)).mem_iff, TreeMap.mem_keys,
      TreeMap.mem_iff_isSome_getElem?] at mem
    exact absurd orphan (Option.isSome_iff_ne_none.mp mem)

/-- In a divided netlist without orphans every gate is at home in some part. -/
theorem Consistent.exists_home (h : net.Consistent) (full : net.hasOrphans = false) {id : GateId} {g : Gate}
    (found : net.gate? id = some g) : ∃ n, net.partOf? id = some n := by
  rw [Bool.eq_false_iff, ne_eq, h.hasOrphans_iff] at full
  by_contra none
  exact full ⟨id, contains_iff.mpr ⟨g, found⟩, Option.eq_none_iff_forall_ne_some.mpr (not_exists.mp none)⟩

end Numbers

/-! ## Refreshing -/

/-- The links a gate of a wired table is an end of are edges, so none of them is a port. -/
theorem not_isPort_of_mem_linksOf {net : Netlist} (wired : Wired net.gate? net.nextId) {id : GateId}
    {l : Link} (mem : l ∈ net.linksOf id) : l.isPort = false := by
  cases found : net.gate? id with
  | none =>
    have found : net.table[id]? = none := found
    simp [linksOf, found] at mem
  | some g =>
    rw [linksOf_eq found, List.mem_append] at mem
    rcases mem with mem | mem
    · exact Shape.not_isPort_of_mem_inputLinks mem
    · exact ((wired.fanout found l).mp mem).2.not_isPort

/-- A part that an edit does not reach has neither the gate nor an end of the links. -/
theorem outside_of_not_touched {net : Netlist} {id : GateId} {links : List Link} {n : Nat}
    (untouched : n ∉ net.touched id links) : net.inPart n id = false ∧
      ∀ l ∈ links, net.inPart n l.source = false ∧ net.inPart n l.target = false := by
  have outside {x : GateId} (near : x ∈ id :: links.flatMap fun l => [l.source, l.target]) :
      net.inPart n x = false := by
    refine Bool.eq_false_iff.mpr fun inside => untouched ?_
    exact List.mem_filterMap.mpr ⟨x, near, inPart_iff.mp inside⟩
  refine ⟨outside List.mem_cons_self, fun l mem => ⟨outside ?_, outside ?_⟩⟩
  · exact List.mem_cons_of_mem id (List.mem_flatMap.mpr ⟨l, mem, by simp⟩)
  · exact List.mem_cons_of_mem id (List.mem_flatMap.mpr ⟨l, mem, by simp⟩)

/-- No part gains or loses a gate when boundaries are refreshed. -/
theorem refresh_gates (net : Netlist) (id : GateId) (extra : List Link) (left : Option Nat) (n : Nat) :
    (net.refresh id extra left).parts[n]?.map Part.gates = net.parts[n]?.map Part.gates := by
  simp only [refresh, List.getElem?_mapIdx, Option.map_map]
  congr 1
  funext p
  simp only [Function.comp_apply]
  split
  · exact (settle_sameGates ..).gates
  · rfl

/-- THE EDITS OF ONE GATE. After an edit around gate `id` that left the boundaries as they were,
refreshing restores consistency, if it is told of all links the gate had or has and of the part it
was in. -/
theorem Consistent.refreshed {net net' : Netlist} (h : net.Consistent) {id : GateId}
    {extra : List Link} {left : Option Nat} (wired : Wired net'.gate? net'.nextId)
    (around : Around net.gate? net'.gate? id (extra ++ net'.linksOf id))
    (extraEdges : ∀ l ∈ extra, l.isPort = false)
    (homes : ∀ x ≠ id, net'.partOf? x = net.partOf? x)
    (was : ∀ n, net.partOf? id = some n → left = some n ∨ net'.partOf? id = some n)
    (isPart : ∀ n, net'.partOf? id = some n → n < net'.parts.length)
    (length : net'.parts.length = net.parts.length)
    (top : Stale net'.gate? net'.contains net.top net'.top)
    (parts : ∀ (n : Nat) (q : Part), net'.parts[n]? = some q →
      ∃ p, net.parts[n]? = some p ∧ Stale net'.gate? (net'.inPart n) p q)
    (tallied : net'.Tallied) (shared : Shares net'.gate? net'.shared) :
    (net'.refresh id extra left).Consistent := by
  have edges : ∀ l ∈ extra ++ net'.linksOf id, l.isPort = false := by
    intro l mem
    rcases List.mem_append.mp mem with mem | mem
    · exact extraEdges l mem
    · exact not_isPort_of_mem_linksOf wired mem
  constructor
  case wired => exact wired
  case top =>
    refine top.settled around edges ?_ h.top.bounds
    exact fun x other => contains_congr (around.shapes x other)
  case parts =>
    intro n q found
    simp only [refresh, List.getElem?_mapIdx, Option.map_eq_some_iff] at found
    obtain ⟨q, found, rfl⟩ := found
    obtain ⟨p, before, stale⟩ := parts n q found
    have part := h.parts n p before
    have members : ∀ x ≠ id, net'.inPart n x = net.inPart n x := by
      intro x other
      rw [inPart, inPart, homes x other]
    split
    · exact stale.settled around edges members part.bounds
    -- Neither the gate nor an end of its links is or was in the part.
    · next untouched =>
      rw [List.contains_eq_mem, decide_eq_true_eq, List.mem_append, not_or, Option.mem_toList] at untouched
      obtain ⟨gone, ends⟩ := outside_of_not_touched untouched.2
      have away : net.inPart n id = false := by
        refine Bool.eq_false_iff.mpr fun inside => ?_
        rcases was n (inPart_iff.mp inside) with was | still
        · exact untouched.1 was
        · rw [inPart_iff.mpr still] at gone
          cases gone
      have same : ∀ x, net'.inPart n x = net.inPart n x := by
        intro x
        by_cases other : x = id
        · rw [other, gone, away]
        · exact members x other
      refine ⟨stale.members, stale.accounts, around.untouched edges same away ?_ (stale.bounds part.bounds)⟩
      intro l mem
      rw [← same, ← same]
      exact ends l mem
  case homes =>
    intro x n home
    simp only [refresh, List.length_mapIdx]
    by_cases other : x = id
    · subst other
      exact isPart n home
    · rw [length]
      exact h.homes x n (by rw [← homes x other]; exact home)
  case tallied => exact tallied.congr (refresh_gates net' id extra left) rfl rfl rfl
  case shared => exact shared

end Netlist

end LogicNet
