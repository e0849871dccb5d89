import LogicNet.Simulation.Basic
import LogicNet.Proofs.Netlist.Reachable

/-!
# Valuations of a view

What a view means, said without running it. A VALUATION gives every gate a value such that each gate
of the view has the value of its function. Sources and memory are FREE: nothing in the view
determines them. So are drivers outside the view. What is neither free nor outside is LOGIC.

**The law** (`Valuation.unique`): in a view without combinational loops the values of the free gates
and of the drivers outside determine all others. Simulation finds this one valuation, and solving
searches among all.
-/

namespace LogicNet

open Std

/-! ## Functions of bits -/

namespace GateFn

/-- The value of a function of single bits, where its gate holds `held`. -/
def evalBit (fn : GateFn) (held : Bool) (xs : List Bool) : Bool :=
  let x (i : Nat) : Bool := xs.getD i false
  match fn with
  | .zero => false
  | .one => true
  | .buffer | .output => x 0
  | .not => !x 0
  | .and => xs.all id
  | .or => xs.any id
  | .xor => xs.foldl Bool.xor false
  | .nand => !xs.all id
  | .nor => !xs.any id
  | .xnor => !xs.foldl Bool.xor false
  | .majority => xs.length < 2 * xs.count true
  | .latch => if x 1 then x 0 else held
  | .flipFlop => x 0
  | .flipFlopRS => !x 2 && (x 3 || x 0)
  | .input | .custom _ => false

/-- Neither memory nor an uninterpreted cell. -/
def isLogic : GateFn → Bool
  | .latch | .flipFlop | .flipFlopRS | .custom _ => false
  | _ => true

theorem isTriggered_of_isLogic {fn : GateFn} (logic : fn.isLogic = true) : fn.isTriggered = false := by
  cases fn <;> first | rfl | cases logic

theorem isUninterpreted_of_isLogic {fn : GateFn} (logic : fn.isLogic = true) : fn.isUninterpreted = false := by
  cases fn <;> first | rfl | cases logic

theorem isUninterpreted_of_isTriggered {fn : GateFn} (memory : fn.isTriggered = true) : fn.isUninterpreted = false := by
  cases fn <;> first | rfl | cases memory

theorem isLogic_of_isTriggered {fn : GateFn} (interpreted : fn.isUninterpreted = false)
    (stateless : fn.isTriggered = false) : fn.isLogic = true := by
  cases fn
  case latch | flipFlop | flipFlopRS => cases stateless
  case custom => cases interpreted
  all_goals rfl

theorem evalBit_held {fn : GateFn} (stateless : fn.isTriggered = false) (a b : Bool) (xs : List Bool) :
    fn.evalBit a xs = fn.evalBit b xs := by
  cases fn <;> first | rfl | cases stateless

end GateFn

/-! ## Gates and views -/

/-- A source or memory: its inputs do not determine its value now. -/
def Shape.isFree (s : Shape) : Bool := s.isSource || s.fn.isTriggered

theorem Shape.isTrigger_of_isSource {s : Shape} (source : s.isSource = true) : s.isTrigger = false := by
  have empty : s.inputs = [] := List.isEmpty_iff.mp (Bool.and_eq_true_iff.mp source).1
  rw [isTrigger, empty]
  rfl

/-- The gate is free, or its value is that of its function. -/
def Gate.Obeys (g : Gate) (val : GateId → Bool) : Prop :=
  g.isFree = true ∨ val g.id = g.fn.evalBit false (g.inputs.map fun s => val s.driver)

namespace View

/-- The table is wired and the part covers its gates. -/
structure Coherent (v : View) : Prop where
  wired : Wired v.net.gate? v.net.nextId
  covers : Covers v.net.gate? v.part.contains v.part

/-- Every gate of the view obeys. -/
def Valuation (v : View) (val : GateId → Bool) : Prop :=
  ∀ id ∈ v.part.gates, ∀ g, v.net.gate? id = some g → g.Obeys val

/-- What is not free is logic on plain signals. -/
def Logical (v : View) : Prop :=
  ∀ id ∈ v.part.gates, ∀ g, v.net.gate? id = some g →
    g.isFree = true ∨ g.fn.isLogic = true ∧ g.isTrigger = false

/-- No gate of the view is an uninterpreted cell. -/
def CustomFree (v : View) : Prop :=
  ∀ id ∈ v.part.gates, ∀ g, v.net.gate? id = some g → g.fn.isUninterpreted = false

/-- No gate of the view feeds itself, directly or through others. -/
def Acyclic (v : View) : Prop :=
  ∀ t, ¬Relation.TransGen (fun a b => a ∈ v.part.gates ∧ b ∈ v.part.gates ∧ Feeds v.net.gate? a b) t t

/-- The view does not determine the value: a free gate, or a driver outside the view. -/
def Given (v : View) (id : GateId) : Prop :=
  (id ∈ v.part.gates ∧ ∃ g, v.net.gate? id = some g ∧ g.isFree = true) ∨
    (id ∉ v.part.gates ∧ ∃ t ∈ v.part.gates, ∃ g, v.net.gate? t = some g ∧ ∃ s ∈ g.inputs, s.driver = id)

end View

/-- Under the values given to some gates, the view gives this value to gate `id`: there is a valuation,
and every valuation has it. -/
structure View.Evaluates (v : View) (given : List (GateId × Bool)) (id : GateId) (b : Bool) : Prop where
  total : ∃ val, v.Valuation val ∧ ∀ x ∈ given, val x.1 = x.2
  determined : ∀ val, v.Valuation val → (∀ x ∈ given, val x.1 = x.2) → val id = b

theorem View.Evaluates.functional {v : View} {given : List (GateId × Bool)} {id : GateId} {a b : Bool}
    (ha : v.Evaluates given id a) (hb : v.Evaluates given id b) : a = b := by
  obtain ⟨val, valuation, agree⟩ := ha.total
  rw [← ha.determined val valuation agree, hb.determined val valuation agree]

/-! ## Views of consistent netlists -/

theorem Covers.contains {gate? : GateId → Option Gate} {member : GateId → Bool} {p : Part}
    (h : Covers gate? member p) : Covers gate? p.contains p := by
  have same : p.contains = member := by
    funext id
    rw [Bool.eq_iff_iff, h.members id, h.accounts.indexed.contains_iff]
  rw [same]
  exact h

theorem Netlist.Consistent.coherent_view {net : Netlist} (h : net.Consistent) : net.view.Coherent :=
  ⟨h.wired, h.top.contains⟩

theorem Netlist.Consistent.mem_view_gates {net : Netlist} (h : net.Consistent) {id : GateId} :
    id ∈ net.view.part.gates ↔ ∃ g, net.gate? id = some g := by
  rw [← Netlist.contains_iff]
  exact (h.top.members id).symm

theorem Netlist.Consistent.coherent_partView {net : Netlist} (h : net.Consistent) {n : Nat} {v : View}
    (found : net.partView n = .ok v) : v.Coherent := by
  obtain ⟨p, part, found⟩ := Result.bind_eq_ok.mp found
  cases found
  exact ⟨h.wired, (h.parts n p (Result.getOrBreach_eq_ok.mp part)).contains⟩

/-- The whole of a netlist that was made by operations that returned, or one of its parts. -/
def View.OfReachable (v : View) : Prop :=
  v.net.Reachable ∧ (v = v.net.view ∨ ∃ n, v.net.partView n = .ok v)

theorem View.OfReachable.coherent {v : View} (h : v.OfReachable) : v.Coherent := by
  obtain ⟨reachable, whole | ⟨n, part⟩⟩ := h
  · rw [whole]
    exact reachable.consistent.coherent_view
  · exact reachable.consistent.coherent_partView part

namespace View

variable {v : View}

theorem Coherent.known (h : v.Coherent) {id : GateId} (mem : id ∈ v.part.gates) :
    ∃ g, v.net.gate? id = some g ∧ g.id = id := by
  obtain ⟨g, found⟩ := h.covers.accounts.known id mem
  exact ⟨g, found, h.wired.keyed found⟩

/-- The order that is used lists the gates of the view, and no gate before one that feeds it. -/
theorem Coherent.orderedGates_spec (h : v.Coherent) {order : List GateId}
    (found : v.orderedGates = .ok order) :
    order.Perm v.part.gates ∧ order.Pairwise fun a b => ¬Feeds v.net.gate? b a := by
  unfold orderedGates at found
  split at found
  · next sorted =>
    cases found
    refine ⟨.refl _, ?_⟩
    rcases (Bool.or_eq_true _ _).mp sorted with sorted | few
    · exact h.covers.accounts.ordered sorted
    · exact pairwise_of_length_le_one (of_decide_eq_true few)
  · have found := Result.getOrBreach_eq_ok.mp found
    have accounts := h.covers.accounts
    exact ⟨Netlist.combOrder_perm h.wired accounts.nodup accounts.known h.covers.members found,
      Netlist.combOrder_pairwise h.wired accounts.nodup accounts.known h.covers.members found⟩

/-- Without a loop there is an order. -/
theorem Coherent.exists_orderedGates (h : v.Coherent) (acyclic : v.Acyclic) :
    ∃ order, v.orderedGates = .ok order := by
  unfold orderedGates
  split
  · exact ⟨_, rfl⟩
  · obtain ⟨order, found⟩ := Netlist.exists_combOrder h.wired h.covers.accounts.nodup h.covers.accounts.known
      h.covers.members acyclic
    exact ⟨order, Result.getOrBreach_eq_ok.mpr found⟩

theorem Acyclic.not_feeds_self (h : v.Acyclic) {id : GateId} (mem : id ∈ v.part.gates) :
    ¬Feeds v.net.gate? id id := fun feeds => h id (.single ⟨mem, mem, feeds⟩)

/-- A driver from which a link enters the view. -/
def IsSourceDriver (v : View) (id : GateId) : Prop := ∃ l ∈ v.part.sources, l.source = id

/-- A driver from which a link enters is a source of the view, or is outside and read. -/
theorem Coherent.isSourceDriver_iff (h : v.Coherent) {id : GateId} :
    v.IsSourceDriver id ↔ (id ∈ v.part.gates ∧ ∃ g, v.net.gate? id = some g ∧ g.isSource = true) ∨
      (id ∉ v.part.gates ∧ ∃ t ∈ v.part.gates, ∃ g, v.net.gate? t = some g ∧ ∃ s ∈ g.inputs, s.driver = id) := by
  have member : ∀ x, v.part.contains x = true ↔ x ∈ v.part.gates := h.covers.members
  constructor
  · rintro ⟨l, mem, rfl⟩
    rcases (h.covers.bounds.sources l).mp mem with ⟨g, found, inside, source, _⟩ | ⟨⟨g, found, link⟩, crosses⟩
    · exact .inl ⟨(member _).mp inside, g, found, source⟩
    · rw [Bool.and_eq_true, Bool.not_eq_true', ← Bool.not_eq_true, member, member] at crosses
      obtain ⟨i, s, hi, eq⟩ := Shape.mem_inputLinks.mp link
      exact .inr ⟨crosses.2, l.target, crosses.1, g, found, s, List.mem_of_getElem? hi, by rw [eq]; rfl⟩
  · rintro (⟨mem, g, found, source⟩ | ⟨outside, t, mem, g, found, s, read, rfl⟩)
    · refine ⟨.port id, (h.covers.bounds.sources _).mpr (onBoundary_port.mpr ?_), rfl⟩
      exact ⟨g, found, (member id).mpr mem, source⟩
    · obtain ⟨i, hi⟩ := List.mem_iff_getElem?.mp read
      refine ⟨.edge s.driver t i, (h.covers.bounds.sources _).mpr (.inr ⟨⟨g, found, ?_⟩, ?_⟩), rfl⟩
      · exact Shape.mem_inputLinks.mpr ⟨i, s, hi, rfl⟩
      · rw [Bool.and_eq_true, Bool.not_eq_true', ← Bool.not_eq_true, member, member]
        exact ⟨mem, outside⟩

/-- A link that leaves the view comes from one of its gates. -/
theorem Coherent.source_of_target (h : v.Coherent) {l : Link} (mem : l ∈ v.part.targets) :
    l.source ∈ v.part.gates := by
  rcases (h.covers.bounds.targets l).mp mem with ⟨_, _, inside, _⟩ | ⟨_, crosses⟩
  · exact (h.covers.members _).mp inside
  · exact (h.covers.members _).mp (Bool.and_eq_true_iff.mp crosses).1

/-- In a view without memory exactly the drivers of its source links are not determined. -/
theorem Coherent.given_iff (h : v.Coherent)
    (noMemory : ∀ id ∈ v.part.gates, ∀ g, v.net.gate? id = some g → g.fn.isTriggered = false) {id : GateId} :
    v.Given id ↔ v.IsSourceDriver id := by
  rw [h.isSourceDriver_iff, Given]
  refine or_congr_left (and_congr_right fun mem => exists_congr fun g => and_congr_right fun found => ?_)
  rw [Shape.isFree, noMemory id mem g found, Bool.or_false]

/-- A view of boolean functions on plain signals. -/
structure Stateless (v : View) : Prop where
  ofReachable : v.OfReachable
  logic : ∀ id ∈ v.part.gates, ∀ g, v.net.gate? id = some g → g.fn.isLogic = true ∧ g.isTrigger = false

/-- A view of boolean functions on plain signals, without loops. -/
structure Circuit (v : View) : Prop extends Stateless v where
  acyclic : v.Acyclic

/-- Gates that can be numbered so that logic reads only smaller numbers have no loops. -/
theorem acyclic_of_measure (measure : GateId → Nat) (smaller : ∀ a ∈ v.part.gates, ∀ b ∈ v.part.gates,
    Feeds v.net.gate? a b → measure a < measure b) : v.Acyclic := by
  have increasing : ∀ {a b}, Relation.TransGen
      (fun a b => a ∈ v.part.gates ∧ b ∈ v.part.gates ∧ Feeds v.net.gate? a b) a b → measure a < measure b := by
    intro a b path
    induction path with
    | single edge => exact smaller _ edge.1 _ edge.2.1 edge.2.2
    | tail _ edge ih => exact Nat.lt_trans ih (smaller _ edge.1 _ edge.2.1 edge.2.2)
  exact fun t loop => Nat.lt_irrefl _ (increasing loop)

/-- Logic that reads only gates of smaller numbers has no loops. -/
theorem acyclic_of_forward (forward : ∀ id ∈ v.part.gates, ∀ g, v.net.gate? id = some g → g.isTrigger = false →
    ∀ s ∈ g.inputs, s.driver.index < id.index) : v.Acyclic := by
  refine acyclic_of_measure GateId.index fun a _ b mem feeds => ?_
  obtain ⟨g, found, plain, s, read, rfl⟩ := feeds
  exact forward b mem g found plain s read

/-- Gates in an order in which none stands before one that feeds it have no loops, if none feeds itself. -/
theorem acyclic_of_ordered {order : List GateId} (all : ∀ id ∈ v.part.gates, id ∈ order)
    (ordered : order.Pairwise fun a b => ¬Feeds v.net.gate? b a)
    (irrefl : ∀ id ∈ v.part.gates, ¬Feeds v.net.gate? id id) : v.Acyclic := by
  refine acyclic_of_measure (fun id => order.idxOf id) fun a ha b hb feeds => ?_
  have ltA := List.idxOf_lt_length_of_mem (all a ha)
  have ltB := List.idxOf_lt_length_of_mem (all b hb)
  rcases Nat.lt_trichotomy (order.idxOf a) (order.idxOf b) with before | same | after
  · exact before
  · rw [(List.idxOf_inj (all a ha)).mp same] at feeds
    exact absurd feeds (irrefl b hb)
  · have := List.pairwise_iff_getElem.mp ordered _ _ ltB ltA after
    rw [List.getElem_idxOf, List.getElem_idxOf] at this
    exact absurd feeds this

/-- All gates of the view pass a test. -/
def allGates (v : View) (p : GateId → Gate → Bool) : Bool :=
  v.part.gates.all fun id => (v.net.gate? id).all (p id)

theorem of_allGates {p : GateId → Gate → Bool} (all : v.allGates p = true) {id : GateId} (mem : id ∈ v.part.gates)
    {g : Gate} (found : v.net.gate? id = some g) : p id g = true := by
  have := List.all_eq_true.mp all id mem
  rw [found] at this
  exact this

theorem customFree_of_all (all : v.allGates (fun _ g => !g.fn.isUninterpreted) = true) : v.CustomFree := by
  intro id mem g found
  simpa using of_allGates all mem found

theorem acyclic_of_all (all : v.allGates (fun id g =>
    g.isTrigger || g.inputs.all fun s => s.driver.index < id.index) = true) : v.Acyclic := by
  refine acyclic_of_forward fun id mem g found plain => ?_
  simpa [plain] using of_allGates all mem found

/-- A loop within a part is one of the whole netlist. -/
theorem acyclic_part {net : Netlist} (h : net.Consistent) (acyclic : net.view.Acyclic) {n : Nat} {p : Part}
    (found : net.parts[n]? = some p) : (View.mk net p false).Acyclic := by
  have inside : ∀ id ∈ p.gates, id ∈ net.view.part.gates := fun id mem =>
    h.mem_view_gates.mpr ((h.parts n p found).accounts.known id mem)
  intro t loop
  exact acyclic t (Relation.TransGen.mono (fun a b step => ⟨inside a step.1, inside b step.2.1, step.2.2⟩) t t loop)

/-- Every gate is a function on plain signals and reads only gates of smaller numbers. -/
def isForward (v : View) : Bool :=
  v.allGates fun id g => g.fn.isLogic && !g.isTrigger && g.inputs.all fun s => s.driver.index < id.index

theorem circuit_of_isForward (ofReachable : v.OfReachable) (forward : v.isForward = true) : v.Circuit := by
  have each : ∀ id ∈ v.part.gates, ∀ g, v.net.gate? id = some g →
      (g.fn.isLogic = true ∧ g.isTrigger = false) ∧ ∀ s ∈ g.inputs, s.driver.index < id.index := by
    intro id mem g found
    simpa using of_allGates forward mem found
  exact ⟨⟨ofReachable, fun id mem g found => (each id mem g found).1⟩,
    acyclic_of_forward fun id mem g found _ => (each id mem g found).2⟩

theorem circuit_made {shapes : List Shape} (forward : (Netlist.made shapes).view.isForward = true) :
    (Netlist.made shapes).view.Circuit :=
  circuit_of_isForward ⟨Netlist.reachable_made shapes, .inl rfl⟩ forward

theorem Stateless.customFree (h : v.Stateless) : v.CustomFree :=
  fun id mem g found => GateFn.isUninterpreted_of_isLogic (h.logic id mem g found).1

theorem Circuit.logical (h : v.Circuit) : v.Logical := fun id mem g found => .inr (h.logic id mem g found)

theorem Circuit.given_iff (h : v.Circuit) {id : GateId} : v.Given id ↔ v.IsSourceDriver id := by
  refine h.ofReachable.coherent.given_iff fun id mem g found => ?_
  exact GateFn.isTriggered_of_isLogic (h.logic id mem g found).1

end View

/-! ## Values are determined -/

/-- What holds of a node once it holds of all nodes it follows, holds of all nodes of an order. -/
theorem ordered_induction {α : Type} {r : α → α → Prop} {order : List α} {P : α → Prop}
    (ordered : order.Pairwise fun a b => ¬r b a) (irrefl : ∀ a ∈ order, ¬r a a)
    (step : ∀ a ∈ order, (∀ b ∈ order, r b a → P b) → P a) : ∀ a ∈ order, P a := by
  have at_index : ∀ n (lt : n < order.length), P order[n] := by
    intro n
    induction n using Nat.strongRecOn with
    | ind n ih =>
      intro lt
      refine step _ (List.getElem_mem lt) fun b mem follows => ?_
      obtain ⟨m, hm, rfl⟩ := List.mem_iff_getElem.mp mem
      rcases Nat.lt_trichotomy m n with before | rfl | after
      · exact ih m before hm
      · exact absurd follows (irrefl _ mem)
      · exact absurd follows (List.pairwise_iff_getElem.mp ordered n m lt hm after)
  intro a mem
  obtain ⟨n, lt, rfl⟩ := List.mem_iff_getElem.mp mem
  exact at_index n lt

/-- Two valuations that agree on what is given agree on the whole view. -/
theorem View.Valuation.unique {v : View} (coherent : v.Coherent) (logical : v.Logical) (acyclic : v.Acyclic)
    {val val' : GateId → Bool} (h : v.Valuation val) (h' : v.Valuation val')
    (agree : ∀ id, v.Given id → val id = val' id) : ∀ id ∈ v.part.gates, val id = val' id := by
  obtain ⟨order, found⟩ := coherent.exists_orderedGates acyclic
  obtain ⟨perm, ordered⟩ := coherent.orderedGates_spec found
  suffices all : ∀ id ∈ order, val id = val' id from fun id mem => all id (perm.mem_iff.mpr mem)
  refine ordered_induction ordered (fun id mem => acyclic.not_feeds_self (perm.mem_iff.mp mem)) ?_
  intro id mem ih
  have mem := perm.mem_iff.mp mem
  obtain ⟨g, here, rfl⟩ := coherent.known mem
  rcases h _ mem g here with free | value
  · exact agree _ (.inl ⟨mem, g, here, free⟩)
  rcases h' _ mem g here with free | value'
  · exact agree _ (.inl ⟨mem, g, here, free⟩)
  rcases logical _ mem g here with free | ⟨_, plain⟩
  · exact agree _ (.inl ⟨mem, g, here, free⟩)
  rw [value, value']
  congr 1
  refine List.map_congr_left fun s read => ?_
  by_cases inside : s.driver ∈ v.part.gates
  · exact ih _ (perm.mem_iff.mpr inside) ⟨g, here, plain, s, read, rfl⟩
  · exact agree _ (.inr ⟨inside, g.id, mem, g, here, s, read, rfl⟩)

end LogicNet
