import LogicNet.Proofs.Netlist.Reachable

/-!
# Renaming gates

A netlist is the IMAGE of another one when it has the same gates under other identifiers. Everything that is
said of a netlist in terms of its gates carries over: its edges are the images of the edges (`isEdge_iff`), and
the links that enter or leave a set of gates are the images of those that enter or leave the set before
(`enters_iff`, `leaves_iff`). Identifiers must not be confused, and this includes drivers that are not gates.
-/

namespace LogicNet

open Std

/-! ## Identifiers, links and shapes -/

/-- The image of a gate. What has no image stands for itself. -/
def GateMap.image (map : GateMap) (id : GateId) : GateId := map.getD id id

theorem GateMap.image_eq {map : GateMap} {id id' : GateId} (found : map[id]? = some id') : map.image id = id' := by
  rw [GateMap.image, TreeMap.getD_eq_getD_getElem?, found, Option.getD_some]

theorem GateMap.image_of_not_mem {map : GateMap} {id : GateId} (absent : id ∉ map) : map.image id = id :=
  TreeMap.getD_eq_fallback absent

/-- The correspondence pairs the gates of two netlists one-to-one. -/
structure GateMap.Pairs (map : GateMap) (left right : Netlist) : Prop where
  keys : ∀ id, id ∈ map ↔ ∃ g, left.gate? id = some g
  values : ∀ id', (∃ id : GateId, map[id]? = some id') ↔ ∃ g, right.gate? id' = some g
  injective : ∀ {a b id' : GateId}, map[a]? = some id' → map[b]? = some id' → a = b

namespace GateMap.Pairs

variable {map : GateMap} {left right : Netlist} (h : map.Pairs left right)
include h

theorem getElem? {id : GateId} {g : Gate} (found : left.gate? id = some g) : map[id]? = some (map.image id) := by
  obtain ⟨id', mapped⟩ := Option.isSome_iff_exists.mp
    (TreeMap.mem_iff_isSome_getElem?.mp ((h.keys id).mpr ⟨g, found⟩))
  rw [GateMap.image_eq mapped, mapped]

theorem image_known {id : GateId} {g : Gate} (found : left.gate? id = some g) :
    ∃ g', right.gate? (map.image id) = some g' := (h.values _).mp ⟨id, h.getElem? found⟩

theorem image_inj {a b : GateId} {g g' : Gate} (foundA : left.gate? a = some g) (foundB : left.gate? b = some g')
    (same : map.image a = map.image b) : a = b := by
  have atB := h.getElem? foundB
  rw [← same] at atB
  exact h.injective (h.getElem? foundA) atB

end GateMap.Pairs

/-- The link between the images of its ends. -/
def Link.rename (f : GateId → GateId) (l : Link) : Link := ⟨f l.source, f l.target, l.pin⟩

/-- The same function of the images of its drivers, under the same events. -/
def Shape.rename (f : GateId → GateId) (s : Shape) : Shape :=
  ⟨s.fn, s.inputs.map fun x => x.withDriver (f x.driver)⟩

namespace Shape

variable {f : GateId → GateId} {s : Shape}

@[simp] theorem isSource_rename : (s.rename f).isSource = s.isSource := by
  simp [isSource, rename]

@[simp] theorem isOutput_rename : (s.rename f).isOutput = s.isOutput := rfl

@[simp] theorem isConstant_rename : (s.rename f).isConstant = s.isConstant := rfl

@[simp] theorem isTrigger_rename : (s.rename f).isTrigger = s.isTrigger := by
  simp [isTrigger, rename, Function.comp_def, Signal.isPlain, Signal.withDriver]

theorem mem_inputLinks_rename {r : Link} {id : GateId} :
    r ∈ (s.rename f).inputLinks (f id) ↔ ∃ l ∈ s.inputLinks id, l.rename f = r := by
  simp only [mem_inputLinks, rename, List.getElem?_map, Option.map_eq_some_iff]
  constructor
  · intro link
    obtain ⟨i, _, ⟨x, found, rfl⟩, rfl⟩ := link
    exact ⟨.edge x.driver id i, ⟨i, x, found, rfl⟩, rfl⟩
  · intro link
    obtain ⟨_, ⟨i, x, found, rfl⟩, rfl⟩ := link
    exact ⟨i, _, ⟨x, found, rfl⟩, rfl⟩

end Shape

/-! ## Images of netlists -/

namespace Netlist

/-- The identifier is that of a gate or of a driver that some gate reads. -/
def Mentions (net : Netlist) (id : GateId) : Prop :=
  (∃ g, net.gate? id = some g) ∨ ∃ t g s, net.gate? t = some g ∧ s ∈ g.inputs ∧ s.driver = id

/-- The second netlist has the gates of the first under the identifiers that the function gives them. -/
structure IsImage (f : GateId → GateId) (net image : Netlist) : Prop where
  shapes : ∀ {id : GateId} {g : Gate}, net.gate? id = some g →
    ∃ g', image.gate? (f id) = some g' ∧ g'.toShape = g.toShape.rename f
  onto : ∀ {id' : GateId} {g' : Gate}, image.gate? id' = some g' → ∃ id g, net.gate? id = some g ∧ f id = id'
  injective : ∀ {a b : GateId}, net.Mentions a → net.Mentions b → f a = f b → a = b

theorem mentions_of_isEdge {net : Netlist} {l : Link} (edge : IsEdge net.gate? l) :
    net.Mentions l.source ∧ net.Mentions l.target := by
  obtain ⟨g, found, link⟩ := edge
  obtain ⟨i, s, read, eq⟩ := Shape.mem_inputLinks.mp link
  exact ⟨.inr ⟨l.target, g, s, found, List.mem_of_getElem? read, by rw [eq]; rfl⟩, .inl ⟨g, found⟩⟩

/-- The ends of a link on a boundary are mentioned. -/
theorem mentions_of_onBoundary {net : Netlist} {member : GateId → Bool} {kind : Shape → Bool} {crosses : Link → Bool}
    {l : Link} (on : OnBoundary net.gate? member kind crosses l) : net.Mentions l.source ∧ net.Mentions l.target := by
  refine ⟨?_, .inl on.exists_target⟩
  rcases on with ⟨g, found, _⟩ | ⟨edge, _⟩
  · exact .inl ⟨g, found⟩
  · exact (mentions_of_isEdge edge).1

namespace IsImage

variable {f : GateId → GateId} {net image : Netlist} (h : IsImage f net image)
include h

/-- Links between what is mentioned are not confused. -/
theorem rename_inj {l l' : Link} (ends : net.Mentions l.source ∧ net.Mentions l.target)
    (ends' : net.Mentions l'.source ∧ net.Mentions l'.target) (same : l.rename f = l'.rename f) : l = l' := by
  obtain ⟨source, target, pin⟩ := l
  obtain ⟨source', target', pin'⟩ := l'
  rw [Link.rename, Link.rename, Link.mk.injEq] at same
  rw [Link.mk.injEq]
  exact ⟨h.injective ends.1 ends'.1 same.1, h.injective ends.2 ends'.2 same.2.1, same.2.2⟩

/-- The gate under an image has the renamed shape. -/
theorem shape_eq {id : GateId} {g g' : Gate} (found : net.gate? id = some g) (found' : image.gate? (f id) = some g') :
    g'.toShape = g.toShape.rename f := by
  obtain ⟨g'', here, shape⟩ := h.shapes found
  obtain rfl : g' = g'' := Option.some.inj (found'.symm.trans here)
  exact shape

theorem isEdge_iff {r : Link} : IsEdge image.gate? r ↔ ∃ l, IsEdge net.gate? l ∧ l.rename f = r := by
  constructor
  · intro edge
    obtain ⟨g', found, link⟩ := edge
    obtain ⟨t, g, here, target⟩ := h.onto found
    rw [← target] at found link
    rw [h.shape_eq here found] at link
    obtain ⟨l, inside, rfl⟩ := Shape.mem_inputLinks_rename.mp link
    refine ⟨l, ⟨g, ?_, ?_⟩, rfl⟩
    · rw [Shape.target_of_mem_inputLinks inside]
      exact here
    · rw [Shape.target_of_mem_inputLinks inside]
      exact inside
  · intro edge
    obtain ⟨l, ⟨g, here, inside⟩, rfl⟩ := edge
    obtain ⟨g', found, shape⟩ := h.shapes here
    refine ⟨g', found, ?_⟩
    rw [shape]
    exact Shape.mem_inputLinks_rename.mpr ⟨l, inside, rfl⟩

theorem feeds_iff {d t : GateId} : Feeds image.gate? d t ↔ ∃ a b, Feeds net.gate? a b ∧ f a = d ∧ f b = t := by
  constructor
  · intro feeds
    obtain ⟨g', found, plain, s, read, rfl⟩ := feeds
    obtain ⟨b, g, here, rfl⟩ := h.onto found
    rw [h.shape_eq here found] at plain read
    obtain ⟨x, inside, rfl⟩ := List.mem_map.mp read
    exact ⟨x.driver, b, ⟨g, here, by simpa using plain, x, inside, rfl⟩, rfl, rfl⟩
  · intro feeds
    obtain ⟨_, b, ⟨g, here, plain, s, read, rfl⟩, rfl, rfl⟩ := feeds
    obtain ⟨g', found, shape⟩ := h.shapes here
    refine ⟨g', found, ?_⟩
    rw [shape]
    exact ⟨by simpa using plain, _, List.mem_map_of_mem read, rfl⟩

/-! ## Boundaries -/

variable {member member' : GateId → Bool}

theorem onBoundary_iff (members : ∀ {id}, net.Mentions id → member' (f id) = member id) {kind : Shape → Bool}
    (kinds : ∀ s, kind (s.rename f) = kind s) {crosses crosses' : Link → Bool}
    (crossing : ∀ l, IsEdge net.gate? l → crosses' (l.rename f) = crosses l) {r : Link} :
    OnBoundary image.gate? member' kind crosses' r ↔
      ∃ l, OnBoundary net.gate? member kind crosses l ∧ l.rename f = r := by
  constructor
  · intro on
    rcases on with ⟨g', found, inside, isKind, port⟩ | ⟨edge, crosses⟩
    · obtain ⟨id, g, here, same⟩ := h.onto found
      rw [← same] at found inside port
      rw [h.shape_eq here found, kinds] at isKind
      rw [members (.inl ⟨g, here⟩)] at inside
      exact ⟨.port id, .inl ⟨g, here, inside, isKind, rfl⟩, port.symm⟩
    · obtain ⟨l, isEdge, rfl⟩ := h.isEdge_iff.mp edge
      rw [crossing l isEdge] at crosses
      exact ⟨l, .inr ⟨isEdge, crosses⟩, rfl⟩
  · intro on
    obtain ⟨l, ⟨g, here, inside, isKind, port⟩ | ⟨edge, crosses⟩, rfl⟩ := on
    · obtain ⟨g', found, shape⟩ := h.shapes here
      refine .inl ⟨g', found, ?_, ?_, ?_⟩
      · show member' (f l.source) = true
        rw [members (.inl ⟨g, here⟩)]
        exact inside
      · rw [shape, kinds]
        exact isKind
      · rw [port]
        rfl
    · refine .inr ⟨h.isEdge_iff.mpr ⟨l, edge, rfl⟩, ?_⟩
      rw [crossing l edge]
      exact crosses

/-- The links that enter an image are the images of those that enter. -/
theorem enters_iff (members : ∀ {id}, net.Mentions id → member' (f id) = member id) {r : Link} :
    Enters image.gate? member' r ↔ ∃ l, Enters net.gate? member l ∧ l.rename f = r := by
  refine h.onBoundary_iff members (fun _ => Shape.isSource_rename) fun l edge => ?_
  obtain ⟨source, target⟩ := mentions_of_isEdge edge
  show (member' (f l.target) && !member' (f l.source)) = (member l.target && !member l.source)
  rw [members source, members target]

/-- The links that leave an image are the images of those that leave. -/
theorem leaves_iff (members : ∀ {id}, net.Mentions id → member' (f id) = member id) {r : Link} :
    Leaves image.gate? member' r ↔ ∃ l, Leaves net.gate? member l ∧ l.rename f = r := by
  refine h.onBoundary_iff members (fun _ => Shape.isOutput_rename) fun l edge => ?_
  obtain ⟨source, target⟩ := mentions_of_isEdge edge
  show (member' (f l.source) && !member' (f l.target)) = (member l.source && !member l.target)
  rw [members source, members target]

end IsImage

end Netlist

end LogicNet
