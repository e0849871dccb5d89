import Mathlib.Algebra.GroupWithZero.Nat
import LogicNet.Netlist.Division
import LogicNet.Proofs.Netlist.Wiring

/-!
# Boundaries

What a gate table says about a part, and how the part comes to know it.

A link ENTERS the members of a part as the port of a source among them or as an edge to one of them
from elsewhere; it LEAVES them as the port of an output among them or as an edge from one of them to
elsewhere. A part is bounded when its two sets of links are exactly these, and it accounts for its
gates when its list, its classes and its count are exact and its order is what it claims to be.

Settling is local: it puts one link right and touches no other. So after an edit a part is right
again as soon as the links were settled for which the table or the members have changed
(`mem_settle`), and a part is right from nothing once every link of every member was settled
(`rebuild_bounds`).
-/

namespace LogicNet

open Std

/-! ## What a table says about a part -/

/-- The link is the port of a member of this kind, or an edge that crosses. -/
def OnBoundary (gate? : GateId → Option Gate) (member : GateId → Bool) (kind : Shape → Bool)
    (crosses : Link → Bool) (l : Link) : Prop :=
  (∃ g, gate? l.source = some g ∧ member l.source = true ∧ kind g.toShape = true ∧
      l = .port l.source) ∨
    (IsEdge gate? l ∧ crosses l = true)

/-- A link on a boundary ends at a gate. -/
theorem OnBoundary.exists_target {gate? : GateId → Option Gate} {member : GateId → Bool} {kind : Shape → Bool}
    {crosses : Link → Bool} {l : Link} (h : OnBoundary gate? member kind crosses l) : ∃ g, gate? l.target = some g := by
  rcases h with ⟨g, found, _, _, port⟩ | ⟨⟨g, found, _⟩, _⟩
  · rw [port]
    exact ⟨g, found⟩
  · exact ⟨g, found⟩

/-- The link is the port of a source among the members, or an edge to a member from elsewhere. -/
def Enters (gate? : GateId → Option Gate) (member : GateId → Bool) : Link → Prop :=
  OnBoundary gate? member Shape.isSource fun l => member l.target && !member l.source

/-- The link is the port of an output among the members, or an edge from a member to elsewhere. -/
def Leaves (gate? : GateId → Option Gate) (member : GateId → Bool) : Link → Prop :=
  OnBoundary gate? member Shape.isOutput fun l => member l.source && !member l.target

/-- The boundary of a part is that of its members. -/
structure Bounds (gate? : GateId → Option Gate) (member : GateId → Bool) (p : Part) : Prop where
  sources : ∀ l, l ∈ p.sources ↔ Enters gate? member l
  targets : ∀ l, l ∈ p.targets ↔ Leaves gate? member l

/-- The two ways across a boundary. -/
inductive Way where
  | inward
  | outward

namespace Way

/-- The shapes whose ports lead this way. -/
def kind : Way → Shape → Bool
  | inward => Shape.isSource
  | outward => Shape.isOutput

/-- An edge leads this way, given which of its ends are inside. -/
def leads : Way → Bool → Bool → Bool
  | inward, sourceIn, targetIn => targetIn && !sourceIn
  | outward, sourceIn, targetIn => sourceIn && !targetIn

theorem inside_of_leads {way : Way} {sourceIn targetIn : Bool} (h : way.leads sourceIn targetIn = true) :
    sourceIn = true ∨ targetIn = true := by
  cases way <;> simp_all [leads]

end Way

/-- The links of a part that lead one way. -/
def Part.links (p : Part) : Way → LinkSet
  | .inward => p.sources
  | .outward => p.targets

/-- The link crosses the boundary of the members this way: it enters or it leaves. -/
def Crosses (gate? : GateId → Option Gate) (member : GateId → Bool) (way : Way) : Link → Prop :=
  OnBoundary gate? member way.kind fun l => way.leads (member l.source) (member l.target)

theorem bounds_iff {gate? : GateId → Option Gate} {member : GateId → Bool} {p : Part} :
    Bounds gate? member p ↔ ∀ way l, l ∈ p.links way ↔ Crosses gate? member way l := by
  refine ⟨fun h way => ?_, fun h => ⟨h .inward, h .outward⟩⟩
  cases way with
  | inward => exact h.sources
  | outward => exact h.targets

/-- Gate `t` is not triggered and reads gate `d`. -/
def Feeds (gate? : GateId → Option Gate) (d t : GateId) : Prop :=
  ∃ g, gate? t = some g ∧ g.isTrigger = false ∧ ∃ s ∈ g.inputs, s.driver = d

/-- The number of inputs of a gate. -/
def arityAt (gate? : GateId → Option Gate) (id : GateId) : Nat := (gate? id).elim 0 (·.arity)

/-- The index of a part holds each gate with its place, and nothing else. -/
def Part.Indexed (p : Part) : Prop :=
  ∀ (id : GateId) (i : Nat), p.index[id]? = some i ↔ p.gates[i]? = some id

/-- The list, the index, the classes and the count of a part are those of its gates, and where the part
says that its order is topological, no gate stands before one that feeds it. -/
structure Accounts (gate? : GateId → Option Gate) (p : Part) : Prop where
  nodup : p.gates.Nodup
  indexed : p.Indexed
  known : ∀ id ∈ p.gates, ∃ g, gate? id = some g
  constants : ∀ id, id ∈ p.constants ↔ id ∈ p.gates ∧ ∃ g, gate? id = some g ∧ g.isConstant = true
  triggers : ∀ id, id ∈ p.triggers ↔ id ∈ p.gates ∧ ∃ g, gate? id = some g ∧ g.isTrigger = true
  connects : p.connects = (p.gates.map (arityAt gate?)).sum
  ordered : p.sorted = true → p.gates.Pairwise fun a b => ¬Feeds gate? b a

/-- A port is on the boundary exactly if its gate is a member of the kind. -/
theorem onBoundary_port {gate? : GateId → Option Gate} {member : GateId → Bool} {kind : Shape → Bool}
    {crosses : Link → Bool} {id : GateId} :
    OnBoundary gate? member kind crosses (.port id) ↔
      ∃ g, gate? id = some g ∧ member id = true ∧ kind g.toShape = true := by
  constructor
  · rintro (⟨g, found, inside, isKind, _⟩ | ⟨edge, _⟩)
    · exact ⟨g, found, inside, isKind⟩
    · have := edge.not_isPort
      simp [Link.port, Link.isPort] at this
  · rintro ⟨g, found, inside, isKind⟩
    exact .inl ⟨g, found, inside, isKind, rfl⟩

/-- Any other link is on the boundary exactly if it is an edge that crosses. -/
theorem onBoundary_of_not_isPort {gate? : GateId → Option Gate} {member : GateId → Bool}
    {kind : Shape → Bool} {crosses : Link → Bool} {l : Link} (h : l.isPort = false) :
    OnBoundary gate? member kind crosses l ↔ IsEdge gate? l ∧ crosses l = true := by
  refine ⟨fun on => on.resolve_left ?_, .inr⟩
  rintro ⟨_, _, _, _, port⟩
  rw [port] at h
  simp [Link.port, Link.isPort] at h

/-! ## Settling one link -/

/-- Say of one link whether it is in a set. -/
def LinkSet.put (s : LinkSet) (l : Link) (present : Bool) : LinkSet :=
  if present then (s.erase l).insert l else s.erase l

theorem LinkSet.mem_put {s : LinkSet} {l k : Link} {present : Bool} :
    k ∈ s.put l present ↔ if k = l then present = true else k ∈ s := by
  by_cases same : k = l
  · subst same
    cases present <;> simp [LinkSet.put]
  · cases present <;> simp [LinkSet.put, same, Ne.symm same]

namespace Part

/-! A part settles its two sets of links in the same way and independently. -/

@[simp] theorem links_settleEdge (p : Part) (l : Link) (live s t : Bool) (way : Way) :
    (p.settleEdge l live s t).links way = LinkSet.put (p.links way) l (live && way.leads s t) := by
  cases way <;> simp only [Way.leads, ← Bool.and_assoc] <;> rfl

@[simp] theorem links_settlePort (p : Part) (id : GateId) (member : Option Gate) (way : Way) :
    (p.settlePort id member).links way =
      LinkSet.put (p.links way) (.port id) (member.any fun g => way.kind g.toShape) := by
  cases way <;> cases member <;> rfl

@[simp] theorem links_classify (p : Part) (g : Gate) (way : Way) : (p.classify g).links way = p.links way := by
  cases way <;> rfl

/-- Two parts that differ at most in their boundaries. -/
structure SameGates (p q : Part) : Prop where
  gates : q.gates = p.gates
  index : q.index = p.index
  constants : q.constants = p.constants
  triggers : q.triggers = p.triggers
  connects : q.connects = p.connects
  sorted : q.sorted = p.sorted

theorem SameGates.refl (p : Part) : SameGates p p := ⟨rfl, rfl, rfl, rfl, rfl, rfl⟩

theorem SameGates.trans {p q r : Part} (h : SameGates p q) (k : SameGates q r) : SameGates p r :=
  ⟨k.gates.trans h.gates, k.index.trans h.index, k.constants.trans h.constants, k.triggers.trans h.triggers,
    k.connects.trans h.connects, k.sorted.trans h.sorted⟩

theorem settleEdge_sameGates (p : Part) (l : Link) (live s t : Bool) :
    SameGates p (p.settleEdge l live s t) := ⟨rfl, rfl, rfl, rfl, rfl, rfl⟩

theorem settlePort_sameGates (p : Part) (id : GateId) (member : Option Gate) :
    SameGates p (p.settlePort id member) := by
  cases member <;> exact ⟨rfl, rfl, rfl, rfl, rfl, rfl⟩

/-- Settle several edges, each by its own state. -/
def settleEdges (p : Part) (links : List Link) (live s t : Link → Bool) : Part :=
  links.foldl (fun p l => p.settleEdge l (live l) (s l) (t l)) p

theorem settleEdges_sameGates (p : Part) (links : List Link) (live s t : Link → Bool) :
    SameGates p (p.settleEdges links live s t) := by
  induction links generalizing p with
  | nil => exact .refl p
  | cons l links ih => exact (settleEdge_sameGates p l _ _ _).trans (ih _)

theorem mem_settleEdges {p : Part} {links : List Link} {live s t : Link → Bool} {way : Way} {k : Link} :
    k ∈ (p.settleEdges links live s t).links way ↔
      if k ∈ links then (live k && way.leads (s k) (t k)) = true else k ∈ p.links way := by
  induction links generalizing p with
  | nil => simp [settleEdges]
  | cons l links ih =>
    rw [settleEdges, List.foldl_cons, ← settleEdges, ih, links_settleEdge, LinkSet.mem_put]
    by_cases later : k ∈ links
    · simp [later]
    · by_cases same : k = l
      · subst same
        simp
      · simp [later, same]

end Part

/-! ## Settling after an edit -/

namespace Netlist

/-- Settling changes the boundary alone. -/
theorem settle_sameGates (net : Netlist) (id : GateId) (links : List Link) (member : GateId → Bool)
    (p : Part) : Part.SameGates p (net.settle id links member p) :=
  (Part.settlePort_sameGates p id _).trans (Part.settleEdges_sameGates _ links _ _ _)

/-- The port and the links that are settled are right, and all others are as they were. -/
theorem mem_settle {net : Netlist} {id : GateId} {links : List Link} {member : GateId → Bool}
    {p : Part} (edges : ∀ l ∈ links, l.isPort = false) {way : Way} {k : Link} :
    k ∈ (net.settle id links member p).links way ↔
      if k ∈ links ∨ k = .port id then Crosses net.gate? member way k else k ∈ p.links way := by
  rw [settle, ← Part.settleEdges, Part.mem_settleEdges]
  by_cases settled : k ∈ links
  · simp only [settled, true_or, if_true, Crosses, onBoundary_of_not_isPort (edges k settled),
      ← hasEdge_iff, Bool.and_eq_true]
  · simp only [settled, false_or, if_false, Part.links_settlePort, LinkSet.mem_put]
    by_cases port : k = .port id
    · subst port
      simp only [if_true, Crosses, onBoundary_port]
      cases member id <;> simp [gate?, Option.any_eq_true]
    · simp [port]

end Netlist

/-- An edit of gate `id` that changes the shape of no other gate. Every edge the gate is or was an
end of is among `links`. -/
structure Around (before after : GateId → Option Gate) (id : GateId) (links : List Link) : Prop where
  shapes : ∀ x ≠ id, SameShape after before x
  old : ∀ l, IsEdge before l → l.source = id ∨ l.target = id → l ∈ links
  new : ∀ l, IsEdge after l → l.source = id ∨ l.target = id → l ∈ links

namespace Around

variable {before after : GateId → Option Gate} {id : GateId} {links : List Link}
  {member member' : GateId → Bool}

/-- Away from the gate nothing enters or leaves that did not before. -/
theorem onBoundary (h : Around before after id links) {kind : Shape → Bool}
    {crosses crosses' : Link → Bool} (members : ∀ x ≠ id, member' x = member x)
    (crossing : ∀ l, l.source ≠ id → l.target ≠ id → crosses' l = crosses l) {l : Link}
    (away : l ∉ links) (port : l ≠ .port id) :
    OnBoundary after member' kind crosses' l ↔ OnBoundary before member kind crosses l := by
  refine or_congr ?_ ?_
  · by_cases isPort : l = .port l.source
    · have other : l.source ≠ id := by
        intro same
        rw [same] at isPort
        exact port isPort
      rw [members l.source other]
      exact (h.shapes l.source other).exists_iff fun s =>
        member l.source = true ∧ kind s = true ∧ l = .port l.source
    · simp [isPort]
  · by_cases ends : l.source = id ∨ l.target = id
    · have notOld : ¬IsEdge before l := fun edge => away (h.old l edge ends)
      have notNew : ¬IsEdge after l := fun edge => away (h.new l edge ends)
      simp [notOld, notNew]
    · rw [not_or] at ends
      rw [IsEdge.congr (h.shapes l.target ends.2), crossing l ends.1 ends.2]

/-- Settling the links of the gate brings the boundary of a part up to date. -/
theorem settle {net : Netlist} (h : Around before net.gate? id links)
    (edges : ∀ l ∈ links, l.isPort = false) (members : ∀ x ≠ id, member' x = member x) {p : Part}
    (bounds : Bounds before member p) : Bounds net.gate? member' (net.settle id links member' p) := by
  rw [bounds_iff] at bounds ⊢
  intro way l
  rw [Netlist.mem_settle edges]
  split
  · exact Iff.rfl
  · next away =>
    rw [not_or] at away
    rw [bounds way l]
    refine (h.onBoundary members ?_ away.1 away.2).symm
    intro l hs ht
    rw [members _ hs, members _ ht]

/-- A part that no end of these links is in, neither before nor after, keeps its boundary. -/
theorem untouched (h : Around before after id links) (edges : ∀ l ∈ links, l.isPort = false)
    (members : ∀ x, member' x = member x) (outside : member id = false)
    (ends : ∀ l ∈ links, member l.source = false ∧ member l.target = false) {p : Part}
    (bounds : Bounds before member p) : Bounds after member' p := by
  obtain rfl : member' = member := funext members
  rw [bounds_iff] at bounds ⊢
  intro way l
  rw [bounds way l, Crosses]
  by_cases near : l ∈ links
  · rw [Crosses, onBoundary_of_not_isPort (edges l near), onBoundary_of_not_isPort (edges l near)]
    have inner : way.leads (member' l.source) (member' l.target) = false := by
      rw [(ends l near).1, (ends l near).2]
      cases way <;> rfl
    simp [inner]
  · by_cases port : l = .port id
    · subst port
      simp [Crosses, onBoundary_port, outside]
    · exact (h.onBoundary (fun _ _ => rfl) (fun _ _ _ => rfl) near port).symm

end Around

/-! ## Accounts -/

/-- A list of at most one element is in any order. -/
theorem pairwise_of_length_le_one {α : Type} {r : α → α → Prop} :
    ∀ {xs : List α}, xs.length ≤ 1 → xs.Pairwise r
  | [], _ => .nil
  | [x], _ => List.pairwise_singleton r x

theorem Feeds.congr {gate?' gate? : GateId → Option Gate} {d t : GateId}
    (h : SameShape gate?' gate? t) : Feeds gate?' d t ↔ Feeds gate? d t :=
  h.exists_iff fun s => s.isTrigger = false ∧ ∃ x ∈ s.inputs, x.driver = d

theorem SameShape.arityAt_eq {gate?' gate? : GateId → Option Gate} {id : GateId}
    (h : SameShape gate?' gate? id) : arityAt gate?' id = arityAt gate? id := by
  have read : ∀ table : GateId → Option Gate,
      arityAt table id = ((table id).map Gate.toShape).elim 0 Shape.arity := by
    intro table
    cases h : table id <;> simp [arityAt, h]
  rw [read, read, h]

/-- The table holds a gate of the shape and under the identifier of `g`. -/
def Holds (gate? : GateId → Option Gate) (g : Gate) : Prop :=
  (gate? g.id).map Gate.toShape = some g.toShape

theorem Holds.exists_iff {gate? : GateId → Option Gate} {g : Gate} (h : Holds gate? g)
    (P : Shape → Prop) : (∃ x, gate? g.id = some x ∧ P x.toShape) ↔ P g.toShape := by
  obtain ⟨x, found, same⟩ := Option.map_eq_some_iff.mp h
  simp [found, same]

theorem Holds.arityAt_eq {gate? : GateId → Option Gate} {g : Gate} (h : Holds gate? g) :
    arityAt gate? g.id = g.arity := by
  obtain ⟨x, found, same⟩ := Option.map_eq_some_iff.mp h
  simp [arityAt, found, same]

/-! ### Places -/

namespace Part

variable {p : Part} {id : GateId} {i : Nat}

/-- A part with an exact index knows by it which gates it lists. -/
theorem Indexed.contains_iff (h : p.Indexed) : p.contains id = true ↔ id ∈ p.gates := by
  rw [Part.contains, TreeMap.contains_eq_isSome_getElem?, Option.isSome_iff_exists, List.mem_iff_getElem?]
  exact exists_congr fun i => h id i

theorem Indexed.unique (h : p.Indexed) {j : Nat} (here : p.gates[i]? = some id) (there : p.gates[j]? = some id) :
    i = j := by
  rw [← h] at here there
  exact Option.some.inj (here.symm.trans there)

/-- A new member is found at the end. -/
theorem Indexed.append (h : p.Indexed) (new : id ∉ p.gates) :
    { p with gates := p.gates ++ [id], index := p.index.insert id p.size }.Indexed := by
  intro x j
  simp only [TreeMap.getElem?_insert, LawfulEqCmp.compare_eq_iff_eq, size, List.getElem?_append,
    List.getElem?_singleton]
  by_cases same : id = x
  · subst same
    by_cases inside : j < p.gates.length
    · rw [if_pos rfl, if_pos inside, Option.some.injEq]
      exact iff_of_false (Nat.ne_of_gt inside) fun there => new (List.mem_of_getElem? there)
    · simp only [if_true, inside, if_false, Option.some.injEq, Option.ite_none_right_eq_some, and_true]
      omega
  · rw [if_neg same, h x j]
    by_cases inside : j < p.gates.length
    · rw [if_pos inside]
    · simp [inside, same]

/-- Gates taken over in another order are found where they stand in it. -/
theorem indexed_arrange {order : List GateId} (nodup : order.Nodup) : (p.arrange order).Indexed := by
  have distinct : order.zipIdx.Pairwise fun a b => ¬compare a.1 b.1 = .eq := by
    rw [← List.zipIdx_map_fst 0 order, List.Nodup, List.pairwise_map] at nodup
    exact nodup.imp fun different same => different (LawfulEqCmp.eq_of_compare same)
  have placed : ∀ {x : GateId} {j : Nat}, order[j]? = some x → (p.arrange order).index[x]? = some j := fun here =>
    TreeMap.getElem?_ofList_of_mem ReflCmp.compare_self distinct (List.mem_zipIdx_iff_getElem?.mpr here)
  intro x j
  refine ⟨fun there => ?_, placed⟩
  have listed : x ∈ order := by
    have mem : x ∈ (p.arrange order).index :=
      TreeMap.mem_iff_isSome_getElem?.mpr (Option.isSome_iff_exists.mpr ⟨j, there⟩)
    rwa [arrange, TreeMap.mem_ofList, List.zipIdx_map_fst, List.contains_iff_mem] at mem
  obtain ⟨i, here⟩ := List.mem_iff_getElem?.mp listed
  obtain rfl : i = j := Option.some.inj ((placed here).symm.trans there)
  exact here

theorem erase_eq {g : Gate} (here : p.index[g.id]? = some i) :
    p.erase g = ((p.vacate g.id i).unclassify g).disturb := by
  simp only [erase, here]

/-- The member that leaves is missing from the list, which is in another order. -/
theorem vacate_perm (nodup : p.gates.Nodup) (here : p.gates[i]? = some id) :
    (p.vacate id i).gates.Perm (p.gates.erase id) := by
  obtain ⟨inside, rfl⟩ := List.getElem?_eq_some_iff.mp here
  rw [nodup.erase_getElem i inside]
  exact swapEraseAt_perm inside

theorem erase_perm {g : Gate} (h : p.Indexed) (nodup : p.gates.Nodup) (mem : g.id ∈ p.gates) :
    (p.erase g).gates.Perm (p.gates.erase g.id) := by
  obtain ⟨i, here⟩ := List.mem_iff_getElem?.mp mem
  rw [erase_eq ((h _ _).mpr here)]
  exact vacate_perm nodup here

@[simp] theorem erase_sources (p : Part) (g : Gate) : (p.erase g).sources = p.sources := by
  unfold erase
  split <;> rfl

@[simp] theorem erase_targets (p : Part) (g : Gate) : (p.erase g).targets = p.targets := by
  unfold erase
  split <;> rfl

/-- The last member is found at the place that was left. -/
theorem Indexed.vacate (h : p.Indexed) (here : p.gates[i]? = some id) : (p.vacate id i).Indexed := by
  obtain ⟨inside, _⟩ := List.getElem?_eq_some_iff.mp here
  obtain ⟨last, atEnd⟩ : ∃ last, p.gates[p.gates.length - 1]? = some last :=
    ⟨_, List.getElem?_eq_getElem (by omega)⟩
  have unique : ∀ {a b : Nat} {y : GateId}, p.gates[a]? = some y → p.gates[b]? = some y → a = b := h.unique
  intro x j
  have before := h x j
  simp only [Part.vacate, getElem?_swapEraseAt inside, if_true, List.getLast?_eq_getElem?, atEnd]
  by_cases moves : i + 1 < p.gates.length
  -- The last member stood at the end alone and now stands at the place alone.
  · simp only [moves, if_true, TreeMap.getElem?_insert, TreeMap.getElem?_erase, LawfulEqCmp.compare_eq_iff_eq]
    grind
  -- The member that leaves is the last one, and nobody moves.
  · simp only [moves, if_false, TreeMap.getElem?_erase, LawfulEqCmp.compare_eq_iff_eq]
    grind

end Part

namespace Accounts

variable {gate? gate?' : GateId → Option Gate} {p q : Part}

theorem sameGates (h : Accounts gate? p) (same : Part.SameGates p q) : Accounts gate? q where
  nodup := by rw [same.gates]; exact h.nodup
  indexed := by rw [Part.Indexed, same.gates, same.index]; exact h.indexed
  known := by rw [same.gates]; exact h.known
  constants := by rw [same.gates, same.constants]; exact h.constants
  triggers := by rw [same.gates, same.triggers]; exact h.triggers
  connects := by rw [same.gates, same.connects]; exact h.connects
  ordered := by rw [same.gates, same.sorted]; exact h.ordered

/-- An account depends on the shapes of the gates of the part alone. -/
theorem congr (h : Accounts gate? p) (shapes : ∀ id ∈ p.gates, SameShape gate?' gate? id) :
    Accounts gate?' p := by
  constructor
  case nodup => exact h.nodup
  case indexed => exact h.indexed
  case known =>
    intro id mem
    obtain ⟨g, found⟩ := h.known id mem
    obtain ⟨g', found', _⟩ := ((shapes id mem).exists_iff fun _ => True).mpr ⟨g, found, trivial⟩
    exact ⟨g', found'⟩
  case constants =>
    intro id
    rw [h.constants id]
    exact and_congr_right fun mem => ((shapes id mem).exists_iff fun s => s.isConstant = true).symm
  case triggers =>
    intro id
    rw [h.triggers id]
    exact and_congr_right fun mem => ((shapes id mem).exists_iff fun s => s.isTrigger = true).symm
  case connects =>
    rw [h.connects]
    exact congrArg List.sum (List.map_congr_left fun id mem => (shapes id mem).arityAt_eq.symm)
  case ordered =>
    intro sorted
    refine (h.ordered sorted).imp_of_mem fun {a b} ha _ apart feeds => ?_
    exact apart ((Feeds.congr (shapes a ha)).mp feeds)

/-- A disturbed order is one only where there is nothing to order. -/
theorem disturb (nodup : p.gates.Nodup) (indexed : p.Indexed) (known : ∀ id ∈ p.gates, ∃ g, gate? id = some g)
    (constants : ∀ id, id ∈ p.constants ↔ id ∈ p.gates ∧ ∃ g, gate? id = some g ∧ g.isConstant = true)
    (triggers : ∀ id, id ∈ p.triggers ↔ id ∈ p.gates ∧ ∃ g, gate? id = some g ∧ g.isTrigger = true)
    (connects : p.connects = (p.gates.map (arityAt gate?)).sum) : Accounts gate? p.disturb where
  nodup := nodup
  indexed := indexed
  known := known
  constants := constants
  triggers := triggers
  connects := connects
  ordered sorted := pairwise_of_length_le_one (of_decide_eq_true sorted)

theorem disturbed (h : Accounts gate? p) : Accounts gate? p.disturb :=
  disturb h.nodup h.indexed h.known h.constants h.triggers h.connects

/-- A new member is accounted for. -/
theorem insert (h : Accounts gate? p) {g : Gate} (held : Holds gate? g) (new : g.id ∉ p.gates) :
    Accounts gate? (p.insert g) := by
  apply disturb
  case nodup => exact h.nodup.append (List.nodup_singleton _) (by simpa using new)
  case indexed => exact h.indexed.append new
  case known =>
    intro id mem
    simp only [Part.classify, List.mem_append, List.mem_singleton] at mem
    rcases mem with mem | rfl
    · exact h.known id mem
    · obtain ⟨x, found, _⟩ := Option.map_eq_some_iff.mp held
      exact ⟨x, found⟩
  all_goals simp only [Part.classify]
  case constants =>
    intro id
    by_cases same : id = g.id
    · subst same
      rw [held.exists_iff fun s => s.isConstant = true]
      cases kind : g.isConstant <;> simp [h.constants, new]
    · cases kind : g.isConstant <;> simp [h.constants, same, Ne.symm same]
  case triggers =>
    intro id
    by_cases same : id = g.id
    · subst same
      rw [held.exists_iff fun s => s.isTrigger = true]
      cases kind : g.isTrigger <;> simp [h.triggers, new]
    · cases kind : g.isTrigger <;> simp [h.triggers, same, Ne.symm same]
  case connects => simp [h.connects, held.arityAt_eq]

/-- What the gates of a part add up to, one of them apart. -/
theorem connects_erase (h : Accounts gate? p) {g : Gate} (held : Holds gate? g)
    (mem : g.id ∈ p.gates) :
    p.connects - g.arity = ((p.gates.erase g.id).map (arityAt gate?)).sum := by
  have : p.connects = g.arity + ((p.gates.erase g.id).map (arityAt gate?)).sum := by
    rw [h.connects, ((List.perm_cons_erase mem).map _).sum_nat, List.map_cons, List.sum_cons,
      held.arityAt_eq]
  omega

/-- A member that leaves is accounted for. -/
theorem erase (h : Accounts gate? p) {g : Gate} (held : Holds gate? g) (mem : g.id ∈ p.gates) :
    Accounts gate? (p.erase g) := by
  obtain ⟨i, here⟩ := List.mem_iff_getElem?.mp mem
  rw [p.erase_eq ((h.indexed _ _).mpr here)]
  have perm := Part.vacate_perm h.nodup here
  have members : ∀ id, id ∈ (p.vacate g.id i).gates ↔ id ≠ g.id ∧ id ∈ p.gates := by
    intro id
    rw [perm.mem_iff, h.nodup.mem_erase_iff]
  apply disturb
  case nodup => exact perm.nodup_iff.mpr (h.nodup.erase _)
  case indexed => exact h.indexed.vacate here
  case known => exact fun id mem => h.known id ((members id).mp mem).2
  all_goals simp only [Part.unclassify]
  case constants =>
    intro id
    rw [members]
    by_cases same : id = g.id
    · simp [same]
    · simp [Part.vacate, h.constants, same, Ne.symm same]
  case triggers =>
    intro id
    rw [members]
    by_cases same : id = g.id
    · simp [same]
    · simp [Part.vacate, h.triggers, same, Ne.symm same]
  case connects => exact (h.connects_erase held mem).trans (perm.map _).sum_nat.symm

/-- A member that changes its shape is accounted for. -/
theorem reclassify (h : Accounts gate? p) {old new : Gate} (held : Holds gate? old)
    (mem : old.id ∈ p.gates) (held' : Holds gate?' new) (keyed : new.id = old.id)
    (shapes : ∀ x ≠ old.id, SameShape gate?' gate? x) :
    Accounts gate?' ((p.unclassify old).classify new).disturb := by
  apply disturb
  case nodup => exact h.nodup
  case indexed => exact h.indexed
  case known =>
    intro id mem
    by_cases same : id = old.id
    · obtain ⟨x, found, _⟩ := Option.map_eq_some_iff.mp held'
      exact ⟨x, by rw [same, ← keyed, found]⟩
    · obtain ⟨g, found⟩ := h.known id mem
      obtain ⟨g', found', _⟩ := ((shapes id same).exists_iff fun _ => True).mpr ⟨g, found, trivial⟩
      exact ⟨g', found'⟩
  all_goals simp only [Part.classify, Part.unclassify]
  case constants =>
    intro id
    by_cases same : id = old.id
    · rw [same, ← keyed, held'.exists_iff fun s => s.isConstant = true]
      cases isKind : new.isConstant <;> simp [mem, keyed]
    · have := (shapes id same).exists_iff fun s => s.isConstant = true
      cases isKind : new.isConstant <;> simp [h.constants, Ne.symm same, keyed, this]
  case triggers =>
    intro id
    by_cases same : id = old.id
    · rw [same, ← keyed, held'.exists_iff fun s => s.isTrigger = true]
      cases isKind : new.isTrigger <;> simp [mem, keyed]
    · have := (shapes id same).exists_iff fun s => s.isTrigger = true
      cases isKind : new.isTrigger <;> simp [h.triggers, Ne.symm same, keyed, this]
  case connects =>
    have others : (p.gates.erase old.id).map (arityAt gate?') = (p.gates.erase old.id).map (arityAt gate?) :=
      List.map_congr_left fun id mem => (shapes id (h.nodup.mem_erase_iff.mp mem).1).arityAt_eq
    rw [h.connects_erase held mem, ((List.perm_cons_erase mem).map _).sum_nat, List.map_cons,
      List.sum_cons, others, Nat.add_comm, ← keyed, held'.arityAt_eq]

end Accounts

/-! ## Computing a part from nothing -/

/-- The link is the port of the gate, or the gate is an end of it. -/
def Gate.Touches (g : Gate) (l : Link) : Prop := l = .port g.id ∨ l ∈ g.inputLinks ∨ l ∈ g.fanout

namespace Part

variable {gate? : GateId → Option Gate} {next : Nat} {member : GateId → Bool}

/-- Settling a member as a chain of the steps above. -/
theorem settleMember_eq (p : Part) (g : Gate) (member : GateId → Bool) :
    p.settleMember g member =
      (((p.classify g).settlePort g.id (some g)).settleEdges g.inputLinks (fun _ => true)
        (fun l => member l.source) fun _ => true).settleEdges g.fanout (fun _ => true)
        (fun _ => true) fun l => member l.target := rfl

/-- A member whose links are all settled is right both ways. -/
theorem settleMember_touched (wired : Wired gate? next) {p : Part} {g : Gate} (found : gate? g.id = some g)
    (inside : member g.id = true) {way : Way} {k : Link} (touches : g.Touches k) :
    k ∈ (p.settleMember g member).links way ↔ Crosses gate? member way k := by
  rw [settleMember_eq, mem_settleEdges]
  by_cases out : k ∈ g.fanout
  · obtain ⟨source, edge⟩ := (wired.fanout found k).mp out
    simp only [out, if_true, Crosses, onBoundary_of_not_isPort edge.not_isPort, edge, source, inside,
      Bool.true_and, true_and]
  · rw [if_neg out, mem_settleEdges]
    by_cases into : k ∈ g.inputLinks
    · have target := Shape.target_of_mem_inputLinks into
      have edge : IsEdge gate? k := (isEdge_iff_mem found target).mpr into
      simp only [into, if_true, Crosses, onBoundary_of_not_isPort edge.not_isPort, edge, target, inside,
        Bool.true_and, true_and]
    · obtain rfl : k = .port g.id := touches.resolve_right (not_or.mpr ⟨into, out⟩)
      simp [into, LinkSet.mem_put, Crosses, onBoundary_port, found, inside]

/-- Links that the member is no end of stay as they are. -/
theorem settleMember_untouched {p : Part} {g : Gate} {way : Way} {k : Link} (away : ¬g.Touches k) :
    k ∈ (p.settleMember g member).links way ↔ k ∈ p.links way := by
  simp only [Gate.Touches, not_or] at away
  rw [settleMember_eq, mem_settleEdges, if_neg away.2.2, mem_settleEdges, if_neg away.2.1]
  simp [LinkSet.mem_put, away.1]

/-- Settling members one after the other puts right every link one of them touches. -/
theorem settleMembers_bounds (wired : Wired gate? next) {gs : List Gate}
    (found : ∀ g ∈ gs, gate? g.id = some g) (inside : ∀ g ∈ gs, member g.id = true) {way : Way} {k : Link}
    (p : Part) (right : (k ∈ p.links way ↔ Crosses gate? member way k) ∨ ∃ g ∈ gs, g.Touches k) :
    k ∈ (gs.foldl (fun p g => p.settleMember g member) p).links way ↔ Crosses gate? member way k := by
  induction gs generalizing p with
  | nil => exact right.resolve_right (by simp)
  | cons g gs ih =>
    simp only [List.forall_mem_cons] at found inside
    refine ih found.2 inside.2 _ ?_
    by_cases touches : g.Touches k
    · exact .inl (settleMember_touched wired found.1 inside.1 touches)
    · rw [settleMember_untouched touches]
      exact right.imp_right (by simp [touches])

/-- Settling members adds up their classes. -/
theorem settleMembers_classes (gs : List Gate) (p : Part) :
    let q := gs.foldl (fun p g => p.settleMember g member) p
    q.gates = p.gates ∧ q.index = p.index ∧ q.sorted = p.sorted ∧ q.connects = p.connects + (gs.map (·.arity)).sum ∧
      (∀ id, id ∈ q.constants ↔ id ∈ p.constants ∨ ∃ g ∈ gs, g.id = id ∧ g.isConstant = true) ∧
      ∀ id, id ∈ q.triggers ↔ id ∈ p.triggers ∨ ∃ g ∈ gs, g.id = id ∧ g.isTrigger = true := by
  induction gs generalizing p with
  | nil => simp
  | cons g gs ih =>
    have same : SameGates (p.classify g) (p.settleMember g member) :=
      (settlePort_sameGates _ _ _).trans
        ((settleEdges_sameGates _ _ _ _ _).trans (settleEdges_sameGates _ _ _ _ _))
    obtain ⟨gates, index, sorted, connects, constants, triggers⟩ := ih (p.settleMember g member)
    refine ⟨?_, ?_, ?_, ?_, ?_, ?_⟩
    · rw [List.foldl_cons, gates, same.gates]
      rfl
    · rw [List.foldl_cons, index, same.index]
      rfl
    · rw [List.foldl_cons, sorted, same.sorted]
      rfl
    · rw [List.foldl_cons, connects, same.connects]
      simp [classify, Nat.add_assoc]
    · intro id
      rw [List.foldl_cons, constants, same.constants]
      cases kind : g.isConstant <;> simp [classify, kind, or_assoc, or_left_comm]
    · intro id
      rw [List.foldl_cons, triggers, same.triggers]
      cases kind : g.isTrigger <;> simp [classify, kind, or_assoc, or_left_comm]

/-- The inputs of all gates, counted gate by gate or identifier by identifier. -/
theorem sum_arity_filterMap {ids : List GateId} (known : ∀ id ∈ ids, ∃ g, gate? id = some g) :
    ((ids.filterMap gate?).map (·.arity)).sum = (ids.map (arityAt gate?)).sum := by
  induction ids with
  | nil => rfl
  | cons id ids ih =>
    obtain ⟨g, found⟩ := known id List.mem_cons_self
    rw [List.filterMap_cons, found, List.map_cons, List.map_cons, List.sum_cons, List.sum_cons,
      ih fun id mem => known id (List.mem_cons_of_mem _ mem)]
    simp [arityAt, found]

theorem rebuild_gates (p : Part) (gate? : GateId → Option Gate) (member : GateId → Bool) :
    (p.rebuild gate? member).gates = p.gates := (settleMembers_classes _ _).1

/-- The gates of a list of identifiers, found under their own. -/
theorem mem_filterMap_gate? (wired : Wired gate? next) {ids : List GateId} {g : Gate} :
    g ∈ ids.filterMap gate? ↔ g.id ∈ ids ∧ gate? g.id = some g := by
  rw [List.mem_filterMap]
  constructor
  · rintro ⟨id, mem, found⟩
    obtain rfl := wired.keyed found
    exact ⟨mem, found⟩
  · rintro ⟨mem, found⟩
    exact ⟨g.id, mem, found⟩

/-- A part that knows its gates has them counted and classified once it is computed from nothing. -/
theorem rebuild_accounts (wired : Wired gate? next) {p : Part} (nodup : p.gates.Nodup)
    (indexed : p.Indexed) (known : ∀ id ∈ p.gates, ∃ g, gate? id = some g)
    (ordered : p.sorted = true → p.gates.Pairwise fun a b => ¬Feeds gate? b a) :
    Accounts gate? (p.rebuild gate? member) := by
  obtain ⟨gates, index, sorted, connects, constants, triggers⟩ := settleMembers_classes
    (p.gates.filterMap gate?) { gates := p.gates, index := p.index, sorted := p.sorted }
  rw [← rebuild] at gates index sorted connects constants triggers
  have kind : ∀ (f : Shape → Bool) (id : GateId),
      (∃ g ∈ p.gates.filterMap gate?, g.id = id ∧ f g.toShape = true) ↔
        id ∈ p.gates ∧ ∃ g, gate? id = some g ∧ f g.toShape = true := by
    intro f id
    constructor
    · rintro ⟨g, mem, rfl, isKind⟩
      obtain ⟨inside, found⟩ := (mem_filterMap_gate? wired).mp mem
      exact ⟨inside, g, found, isKind⟩
    · rintro ⟨mem, g, found, isKind⟩
      obtain rfl := wired.keyed found
      exact ⟨g, (mem_filterMap_gate? wired).mpr ⟨mem, found⟩, rfl, isKind⟩
  constructor
  case nodup => rwa [gates]
  case indexed => rwa [Indexed, gates, index]
  case known => rwa [gates]
  case constants =>
    intro id
    rw [constants, gates, ← kind Shape.isConstant id]
    simp
  case triggers =>
    intro id
    rw [triggers, gates, ← kind Shape.isTrigger id]
    simp
  case connects => rw [connects, gates, Nat.zero_add, sum_arity_filterMap known]
  case ordered =>
    rw [sorted, gates]
    exact ordered

/-- A link on the boundary is touched by the member at its end. -/
theorem exists_touches_of_onBoundary (wired : Wired gate? next) {ids : List GateId}
    (known : ∀ id ∈ ids, ∃ g, gate? id = some g) (members : ∀ id, member id = true ↔ id ∈ ids)
    {kind : Shape → Bool} {crosses : Link → Bool} {l : Link}
    (ends : crosses l = true → member l.source = true ∨ member l.target = true)
    (on : OnBoundary gate? member kind crosses l) : ∃ g ∈ ids.filterMap gate?, g.Touches l := by
  have listed {id : GateId} {g : Gate} (inside : member id = true) (found : gate? id = some g) :
      g ∈ ids.filterMap gate? := List.mem_filterMap.mpr ⟨id, (members id).mp inside, found⟩
  rcases on with ⟨g, found, inside, _, port⟩ | ⟨edge, crossing⟩
  · refine ⟨g, listed inside found, .inl ?_⟩
    rw [wired.keyed found]
    exact port
  · rcases ends crossing with inside | inside
    · obtain ⟨g, found⟩ := known _ ((members _).mp inside)
      exact ⟨g, listed inside found, .inr (.inr ((wired.fanout found l).mpr ⟨rfl, edge⟩))⟩
    · obtain ⟨g, found, mem⟩ := edge
      refine ⟨g, listed inside found, .inr (.inl ?_)⟩
      rw [Gate.inputLinks, wired.keyed found]
      exact mem

/-- A part that knows its gates has its boundary once it is computed from nothing. -/
theorem rebuild_bounds (wired : Wired gate? next) {p : Part} (known : ∀ id ∈ p.gates, ∃ g, gate? id = some g)
    (members : ∀ id, member id = true ↔ id ∈ p.gates) : Bounds gate? member (p.rebuild gate? member) := by
  refine bounds_iff.mpr fun way l => ?_
  refine settleMembers_bounds wired (fun g mem => ((mem_filterMap_gate? wired).mp mem).2)
    (fun g mem => (members g.id).mpr ((mem_filterMap_gate? wired).mp mem).1) _ ?_
  by_cases touched : ∃ g ∈ p.gates.filterMap gate?, g.Touches l
  · exact .inr touched
  · refine .inl (iff_of_false (by cases way <;> simp [links]) fun crosses => touched ?_)
    exact exists_touches_of_onBoundary wired known members Way.inside_of_leads crosses

end Part

end LogicNet
