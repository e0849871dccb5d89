import Mathlib.Data.List.Nodup
import LogicNet.Netlist.Edit
import LogicNet.Proofs.Result

/-!
# Wiring

What a gate table says about connections, and what its fan-out lists have to say about them.

A link is an EDGE of a table when its target is there and reads its source at the pin of the link.
A table is WIRED when every gate stands under its own identifier and is valid, every fan-out list
holds each edge from its gate once and nothing else, and all numbers in use are below the next free
one.

An edit takes the edges into one gate out of the lists, changes the gate, and puts its new edges in.
Between the two a table is `WiredExcept` that gate: `Wired.disconnect` leads there, changing or
removing the gate stays there, and `WiredExcept.connect` leads back. No table has to be opened for
anything else.
-/

namespace LogicNet

open Std

/-! ## Links of a gate -/

theorem Shape.mem_inputLinks {s : Shape} {id : GateId} {l : Link} :
    l ∈ s.inputLinks id ↔ ∃ (i : Nat) (x : Signal), s.inputs[i]? = some x ∧ l = .edge x.driver id i := by
  simp only [Shape.inputLinks, List.mem_mapIdx, List.getElem?_eq_some_iff]
  constructor
  · rintro ⟨i, hi, rfl⟩
    exact ⟨i, _, ⟨hi, rfl⟩, rfl⟩
  · rintro ⟨i, x, ⟨hi, rfl⟩, rfl⟩
    exact ⟨i, hi, rfl⟩

theorem Shape.target_of_mem_inputLinks {s : Shape} {id : GateId} {l : Link} (h : l ∈ s.inputLinks id) :
    l.target = id := by
  obtain ⟨i, x, _, rfl⟩ := Shape.mem_inputLinks.mp h
  rfl

theorem Shape.not_isPort_of_mem_inputLinks {s : Shape} {id : GateId} {l : Link}
    (h : l ∈ s.inputLinks id) : l.isPort = false := by
  obtain ⟨i, x, _, rfl⟩ := Shape.mem_inputLinks.mp h
  rfl

/-- The links of the inputs of a gate differ in their pins. -/
theorem Shape.inputLinks_nodup (s : Shape) (id : GateId) : (s.inputLinks id).Nodup := by
  refine List.nodup_iff_injective_getElem.mpr fun i j h => ?_
  simp only [Shape.inputLinks, List.getElem_mapIdx, Link.edge, Link.mk.injEq, Pin.input.injEq] at h
  exact Fin.ext h.2.2

theorem Shape.map_source_inputLinks (s : Shape) (id : GateId) :
    (s.inputLinks id).map Link.source = s.inputs.map Signal.driver := by
  refine List.ext_getElem? fun i => ?_
  cases found : s.inputs[i]? <;> simp [Shape.inputLinks, found, Link.edge]

/-! ## Edges -/

/-- The target of the link is in the table and reads the source of the link at its pin. -/
def IsEdge (gate? : GateId → Option Gate) (l : Link) : Prop :=
  ∃ g, gate? l.target = some g ∧ l ∈ g.toShape.inputLinks l.target

theorem IsEdge.not_isPort {gate? : GateId → Option Gate} {l : Link} (h : IsEdge gate? l) :
    l.isPort = false := by
  obtain ⟨g, _, mem⟩ := h
  exact Shape.not_isPort_of_mem_inputLinks mem

/-- A gate that reads a signal has an edge from its driver. -/
theorem exists_edge_of_read {gate? : GateId → Option Gate} {id : GateId} {g : Gate} (found : gate? id = some g)
    {s : Signal} (read : s ∈ g.inputs) : ∃ i, IsEdge gate? (.edge s.driver id i) := by
  obtain ⟨i, hi⟩ := List.mem_iff_getElem?.mp read
  exact ⟨i, g, found, Shape.mem_inputLinks.mpr ⟨i, s, hi, rfl⟩⟩

theorem Netlist.hasEdge_iff {net : Netlist} {l : Link} :
    net.hasEdge l = true ↔ IsEdge net.gate? l := by
  obtain ⟨source, target, pin⟩ := l
  simp only [Netlist.hasEdge, IsEdge, Netlist.gate?, Shape.mem_inputLinks, Link.edge, Link.mk.injEq,
    true_and]
  cases pin with
  | port => simp
  | input i =>
    cases net.table[target]? with
    | none => simp
    | some g =>
      simp only [Option.any_eq_true, beq_iff_eq, Option.some.injEq, exists_eq_left', Pin.input.injEq]
      constructor
      · rintro ⟨x, hx, rfl⟩
        exact ⟨i, x, hx, rfl, rfl⟩
      · rintro ⟨_, x, hx, rfl, rfl⟩
        exact ⟨x, hx, rfl⟩

/-- Two tables hold gates of the same shape under an identifier, or none. -/
def SameShape (gate?' gate? : GateId → Option Gate) (id : GateId) : Prop :=
  (gate?' id).map Gate.toShape = (gate? id).map Gate.toShape

theorem SameShape.trans {gate?'' gate?' gate? : GateId → Option Gate} {id : GateId}
    (h : SameShape gate?'' gate?' id) (k : SameShape gate?' gate? id) : SameShape gate?'' gate? id :=
  Eq.trans h k

/-- What is said of the shape of a gate holds in both tables or in none. -/
theorem SameShape.exists_iff {gate?' gate? : GateId → Option Gate} {id : GateId}
    (h : SameShape gate?' gate? id) (P : Shape → Prop) :
    (∃ g, gate?' id = some g ∧ P g.toShape) ↔ ∃ g, gate? id = some g ∧ P g.toShape := by
  have read : ∀ table : GateId → Option Gate, (∃ g, table id = some g ∧ P g.toShape) ↔
      ∃ s, (table id).map Gate.toShape = some s ∧ P s := by simp
  rw [read, read, h]

/-- Edges depend on the shapes of the gates and not on their fan-out. -/
theorem IsEdge.congr {gate?' gate? : GateId → Option Gate} {l : Link}
    (h : SameShape gate?' gate? l.target) : IsEdge gate?' l ↔ IsEdge gate? l :=
  h.exists_iff fun s => l ∈ s.inputLinks l.target

/-! ## Dropping links from a list -/

/-- Drop some links from a fan-out, one after the other. -/
def dropLinks (links fanout : List Link) : List Link :=
  links.foldl (fun fanout l => swapErase l fanout) fanout

theorem dropLinks_nodup {links fanout : List Link} (h : fanout.Nodup) :
    (dropLinks links fanout).Nodup := by
  induction links generalizing fanout with
  | nil => exact h
  | cons l links ih => exact ih ((swapErase_perm l fanout).nodup_iff.mpr (h.erase l))

theorem mem_dropLinks {links fanout : List Link} (h : fanout.Nodup) {l : Link} :
    l ∈ dropLinks links fanout ↔ l ∈ fanout ∧ l ∉ links := by
  induction links generalizing fanout with
  | nil => simp [dropLinks]
  | cons k links ih =>
    have erased : (swapErase k fanout).Nodup := (swapErase_perm k fanout).nodup_iff.mpr (h.erase k)
    have := ih erased
    simp only [dropLinks, List.foldl_cons] at this ⊢
    rw [this, (swapErase_perm k fanout).mem_iff, h.mem_erase_iff, List.mem_cons]
    tauto

/-! ## Connecting and disconnecting -/

/-- A table with other fan-out lists. -/
def relisted (gate? : GateId → Option Gate) (f : GateId → List Link → List Link) (id : GateId) :
    Option Gate :=
  (gate? id).map fun g => { g with fanout := f id g.fanout }

/-- A table after links were recorded in the fan-out of their drivers. -/
def connected (gate? : GateId → Option Gate) (links : List Link) : GateId → Option Gate :=
  relisted gate? fun id fanout => fanout ++ links.filter (·.source = id)

/-- A table after links were dropped from the fan-out of their drivers. -/
def disconnected (gate? : GateId → Option Gate) (links : List Link) : GateId → Option Gate :=
  relisted gate? fun id fanout => dropLinks (links.filter (·.source = id)) fanout

theorem isEdge_relisted {gate? : GateId → Option Gate} {f : GateId → List Link → List Link} {l : Link} :
    IsEdge (relisted gate? f) l ↔ IsEdge gate? l :=
  IsEdge.congr (by simp [SameShape, relisted, Function.comp_def])

namespace Netlist

/-- Two netlists that differ at most in their tables. -/
structure Retabled (net net' : Netlist) : Prop where
  next : net'.nextId = net.nextId
  top : net'.top = net.top
  parts : net'.parts = net.parts
  home : net'.home = net.home
  emptyParts : net'.emptyParts = net.emptyParts
  housed : net'.housed = net.housed
  shared : net'.shared = net.shared

theorem Retabled.refl (net : Netlist) : Retabled net net := ⟨rfl, rfl, rfl, rfl, rfl, rfl, rfl⟩

theorem Retabled.trans {net mid net' : Netlist} (h : Retabled net mid) (k : Retabled mid net') :
    Retabled net net' :=
  ⟨k.next.trans h.next, k.top.trans h.top, k.parts.trans h.parts, k.home.trans h.home,
    k.emptyParts.trans h.emptyParts, k.housed.trans h.housed, k.shared.trans h.shared⟩

theorem retabled_with (net : Netlist) (table : TreeMap GateId Gate) :
    Retabled net { net with table } := ⟨rfl, rfl, rfl, rfl, rfl, rfl, rfl⟩

theorem gate?_insert {net net' : Netlist} {id : GateId} {g : Gate}
    (h : net'.table = net.table.insert id g) : net'.gate? = Function.update net.gate? id (some g) := by
  funext x
  simp only [gate?, h, TreeMap.getElem?_insert, LawfulEqCmp.compare_eq_iff_eq, Function.update_apply]
  exact if_congr eq_comm rfl rfl

theorem gate?_erase {net net' : Netlist} {id : GateId} (h : net'.table = net.table.erase id) :
    net'.gate? = Function.update net.gate? id none := by
  funext x
  simp only [gate?, h, TreeMap.getElem?_erase, LawfulEqCmp.compare_eq_iff_eq, Function.update_apply]
  exact if_congr eq_comm rfl rfl

/-- Recording links changes the table and nothing else, and no driver was an output. -/
theorem connect_spec {net net' : Netlist} {links : List Link} (h : net.connect links = .ok net') :
    net'.gate? = connected net.gate? links ∧ Retabled net net' ∧
      ∀ l ∈ links, ∀ d, net.gate? l.source = some d → d.isOutput = false := by
  induction links generalizing net with
  | nil =>
    cases h
    exact ⟨by funext id; simp [connected, relisted], .refl _, by simp⟩
  | cons l links ih =>
    rw [connect, List.foldlM_cons] at h
    obtain ⟨mid, head, tail⟩ := Result.bind_eq_ok.mp h
    cases found : net.table[l.source]? with
    | none =>
      simp only [found, Except.ok.injEq] at head
      subst head
      obtain ⟨gates, rest, outputs⟩ := ih tail
      refine ⟨?_, rest, ?_⟩
      · rw [gates]
        funext id
        by_cases same : l.source = id
        · subst same
          simp [connected, relisted, gate?, found]
        · simp [connected, relisted, same]
      · intro k mem d driver
        rcases List.mem_cons.mp mem with rfl | mem
        · simp [gate?, found] at driver
        · exact outputs k mem d driver
    | some g =>
      simp only [found] at head
      split at head
      · cases head
      · next plain =>
        simp only [Except.ok.injEq] at head
        subst head
        obtain ⟨gates, rest, outputs⟩ := ih tail
        refine ⟨?_, (retabled_with net _).trans rest, ?_⟩
        · rw [gates, gate?_insert rfl]
          funext id
          by_cases same : l.source = id
          · subst same
            simp [connected, relisted, gate?, found]
          · simp [connected, relisted, same, Function.update_of_ne (Ne.symm same)]
        · intro k mem d driver
          rw [gate?_insert rfl] at outputs
          rcases List.mem_cons.mp mem with rfl | mem
          · simp only [gate?, found, Option.some.injEq] at driver
            subst driver
            simpa using plain
          · by_cases same : k.source = l.source
            · have := outputs k mem _ (by rw [same, Function.update_self])
              rw [same, gate?, found] at driver
              cases driver
              exact this
            · exact outputs k mem d (by rwa [Function.update_of_ne same])

/-- Dropping links changes the table and nothing else. -/
theorem disconnect_spec (net : Netlist) (links : List Link) :
    (net.disconnect links).gate? = disconnected net.gate? links ∧
      Retabled net (net.disconnect links) := by
  induction links generalizing net with
  | nil => exact ⟨by funext id; simp [disconnected, relisted, dropLinks, disconnect], .refl net⟩
  | cons l links ih =>
    rw [disconnect, List.foldl_cons, ← disconnect]
    cases found : net.table[l.source]? with
    | none =>
      simp only
      refine ⟨?_, (ih net).2⟩
      rw [(ih net).1]
      funext id
      by_cases same : l.source = id
      · subst same
        simp [disconnected, relisted, gate?, found]
      · simp [disconnected, relisted, same]
    | some g =>
      simp only
      refine ⟨?_, (retabled_with net _).trans (ih _).2⟩
      rw [(ih _).1, gate?_insert rfl]
      funext id
      by_cases same : l.source = id
      · subst same
        simp [disconnected, relisted, gate?, found, dropLinks]
      · simp [disconnected, relisted, same, Function.update_of_ne (Ne.symm same)]

end Netlist

/-! ## Wired tables -/

/-- Every gate stands under its own identifier, and all numbers in use are below `next`. -/
structure Numbered (gate? : GateId → Option Gate) (next : Nat) : Prop where
  keyed : ∀ {id g}, gate? id = some g → g.id = id
  given : ∀ {id g}, gate? id = some g → id.index < next
  drivers : ∀ {id g}, gate? id = some g → ∀ s ∈ g.inputs, s.driver.index < next

theorem Numbered.relisted {gate? : GateId → Option Gate} {next : Nat} (h : Numbered gate? next)
    (f : GateId → List Link → List Link) : Numbered (relisted gate? f) next := by
  constructor
  case keyed =>
    intro id g found
    obtain ⟨g, before, rfl⟩ := Option.map_eq_some_iff.mp found
    have := h.keyed before
    exact this
  case given =>
    intro id g found
    obtain ⟨g, before, rfl⟩ := Option.map_eq_some_iff.mp found
    exact h.given before
  case drivers =>
    intro id g found
    obtain ⟨g, before, rfl⟩ := Option.map_eq_some_iff.mp found
    have := h.drivers before
    exact this

/-- Every gate is valid, and its fan-out holds each edge from it once. -/
structure Wired (gate? : GateId → Option Gate) (next : Nat) : Prop extends Numbered gate? next where
  valid : ∀ {id g}, gate? id = some g → g.isValid = true
  nodup : ∀ {id g}, gate? id = some g → g.fanout.Nodup
  fanout : ∀ {id g}, gate? id = some g → ∀ l, l ∈ g.fanout ↔ l.source = id ∧ IsEdge gate? l

/-- Nothing reads an output gate. -/
theorem Wired.not_isOutput_of_read {gate? : GateId → Option Gate} {next : Nat} (h : Wired gate? next) {id : GateId}
    {g : Gate} (found : gate? id = some g) {s : Signal} (read : s ∈ g.inputs) {d : Gate}
    (driver : gate? s.driver = some d) : d.isOutput = false := by
  obtain ⟨i, edge⟩ := exists_edge_of_read found read
  have used := (h.fanout driver _).mpr ⟨rfl, edge⟩
  have valid := (Bool.and_eq_true_iff.mp (h.valid driver)).2
  cases output : d.isOutput with
  | false => rfl
  | true =>
    rw [output, Bool.not_true, Bool.false_or, List.isEmpty_iff] at valid
    rw [valid] at used
    cases used

/-- Wired, but no fan-out holds an edge into gate `hole`. -/
structure WiredExcept (gate? : GateId → Option Gate) (next : Nat) (hole : GateId) : Prop extends
    Numbered gate? next where
  valid : ∀ {id g}, gate? id = some g → g.isValid = true
  nodup : ∀ {id g}, gate? id = some g → g.fanout.Nodup
  fanout : ∀ {id g}, gate? id = some g →
    ∀ l, l ∈ g.fanout ↔ l.source = id ∧ IsEdge gate? l ∧ l.target ≠ hole

theorem isEdge_update {gate? : GateId → Option Gate} {id : GateId} {g : Option Gate} {l : Link}
    (other : l.target ≠ id) : IsEdge (Function.update gate? id g) l ↔ IsEdge gate? l :=
  IsEdge.congr (by rw [SameShape, Function.update_of_ne other])

/-- The edges into a gate are the links of its inputs. -/
theorem isEdge_iff_mem {gate? : GateId → Option Gate} {id : GateId} {g : Gate}
    (found : gate? id = some g) {l : Link} (target : l.target = id) :
    IsEdge gate? l ↔ l ∈ g.toShape.inputLinks id := by
  subst target
  simp [IsEdge, found]

/-- No edge leads to a gate that is not in the table. -/
theorem IsEdge.target_ne {gate? : GateId → Option Gate} {id : GateId} (absent : gate? id = none)
    {l : Link} (edge : IsEdge gate? l) : l.target ≠ id := by
  rintro rfl
  obtain ⟨g, here, _⟩ := edge
  rw [absent] at here
  cases here

namespace Wired

variable {gate? : GateId → Option Gate} {next : Nat}

/-- A driver of an edge has a number in use. -/
theorem source_lt (h : Wired gate? next) {l : Link} (edge : IsEdge gate? l) : l.source.index < next := by
  obtain ⟨g, found, mem⟩ := edge
  obtain ⟨i, x, hx, eq⟩ := Shape.mem_inputLinks.mp mem
  rw [eq]
  exact h.drivers found x (List.mem_of_getElem? hx)

/-- A number that is not in use opens a hole that no edge leads into. -/
theorem hole (h : Wired gate? next) {id : GateId} (absent : gate? id = none) :
    WiredExcept gate? next id where
  toNumbered := h.toNumbered
  valid := h.valid
  nodup := h.nodup
  fanout found l := by
    rw [h.fanout found l]
    exact and_congr_right fun _ => ⟨fun edge => ⟨edge, edge.target_ne absent⟩, And.left⟩

/-- Dropping the links of its inputs opens a hole at a gate. -/
theorem disconnect (h : Wired gate? next) {id : GateId} {old : Gate} (here : gate? id = some old) :
    WiredExcept (disconnected gate? old.inputLinks) next id := by
  have links : old.inputLinks = old.toShape.inputLinks id := by rw [Gate.inputLinks, h.keyed here]
  rw [links]
  constructor
  case toNumbered => exact h.toNumbered.relisted _
  case valid =>
    intro d g found
    obtain ⟨g, before, rfl⟩ := Option.map_eq_some_iff.mp found
    have valid := h.valid before
    simp only [Gate.isValid, Bool.and_eq_true, Bool.or_eq_true, List.isEmpty_iff] at valid ⊢
    refine ⟨valid.1, valid.2.imp_right fun empty => List.eq_nil_iff_forall_not_mem.mpr fun l mem => ?_⟩
    have := ((mem_dropLinks (h.nodup before)).mp mem).1
    rw [empty] at this
    cases this
  case nodup =>
    intro d g found
    obtain ⟨g, before, rfl⟩ := Option.map_eq_some_iff.mp found
    exact dropLinks_nodup (h.nodup before)
  case fanout =>
    intro d g found l
    obtain ⟨g, before, rfl⟩ := Option.map_eq_some_iff.mp found
    rw [mem_dropLinks (h.nodup before), h.fanout before l, disconnected, isEdge_relisted,
      List.mem_filter, decide_eq_true_eq, and_assoc]
    refine and_congr_right fun source => and_congr_right fun edge => not_congr ?_
    constructor
    · exact fun mem => Shape.target_of_mem_inputLinks mem.1
    · exact fun target => ⟨(isEdge_iff_mem here target).mp edge, source⟩

end Wired

namespace WiredExcept

variable {gate? : GateId → Option Gate} {next : Nat} {id : GateId}

/-- Without the gate at the hole there is no edge into the hole. -/
theorem erase (h : WiredExcept gate? next id) : Wired (Function.update gate? id none) next := by
  have before : ∀ {d g}, Function.update gate? id none d = some g → gate? d = some g := by
    intro d g found
    by_cases same : d = id
    · simp [same] at found
    · rwa [Function.update_of_ne same] at found
  constructor
  case toNumbered =>
    exact ⟨fun found => h.keyed (before found), fun found => h.given (before found),
      fun found => h.drivers (before found)⟩
  case valid => exact fun found => h.valid (before found)
  case nodup => exact fun found => h.nodup (before found)
  case fanout =>
    intro d g found l
    rw [h.fanout (before found) l]
    refine and_congr_right fun _ => ?_
    constructor
    · rintro ⟨edge, other⟩
      exact (isEdge_update other).mpr edge
    · intro edge
      have other : l.target ≠ id := edge.target_ne (Function.update_self id none gate?)
      exact ⟨(isEdge_update other).mp edge, other⟩

/-- Another gate at the hole. Its fan-out holds the edges to all other gates. -/
theorem set (h : WiredExcept gate? next id) {g : Gate} (keyed : g.id = id) (valid : g.isValid = true)
    (nodup : g.fanout.Nodup)
    (fanout : ∀ l, l ∈ g.fanout ↔ l.source = id ∧ IsEdge gate? l ∧ l.target ≠ id) {next' : Nat}
    (more : next ≤ next') (given : id.index < next')
    (drivers : ∀ s ∈ g.inputs, s.driver.index < next') :
    WiredExcept (Function.update gate? id (some g)) next' id := by
  have same : ∀ l : Link, IsEdge (Function.update gate? id (some g)) l ∧ l.target ≠ id ↔
      IsEdge gate? l ∧ l.target ≠ id :=
    fun l => and_congr_left fun other => isEdge_update other
  have cases : ∀ {d g'}, Function.update gate? id (some g) d = some g' →
      (d = id ∧ g' = g) ∨ gate? d = some g' := by
    intro d g' found
    by_cases here : d = id
    · subst here
      rw [Function.update_self, Option.some.injEq] at found
      exact .inl ⟨rfl, found.symm⟩
    · exact .inr (by rwa [Function.update_of_ne here] at found)
  refine ⟨⟨?keyed, ?given, ?drivers⟩, ?valid, ?nodup, ?fanout⟩
  case keyed =>
    intro d g' found
    rcases cases found with ⟨rfl, rfl⟩ | found
    · exact keyed
    · exact h.keyed found
  case given =>
    intro d g' found
    rcases cases found with ⟨rfl, rfl⟩ | found
    · exact given
    · exact Nat.lt_of_lt_of_le (h.given found) more
  case drivers =>
    intro d g' found s mem
    rcases cases found with ⟨rfl, rfl⟩ | found
    · exact drivers s mem
    · exact Nat.lt_of_lt_of_le (h.drivers found s mem) more
  case valid =>
    intro d g' found
    rcases cases found with ⟨rfl, rfl⟩ | found
    · exact valid
    · exact h.valid found
  case nodup =>
    intro d g' found
    rcases cases found with ⟨rfl, rfl⟩ | found
    · exact nodup
    · exact h.nodup found
  case fanout =>
    intro d g' found l
    rw [same]
    rcases cases found with ⟨rfl, rfl⟩ | found
    · exact fanout l
    · exact h.fanout found l

/-- Recording the links of its inputs closes the hole at a gate. -/
theorem connect (h : WiredExcept gate? next id) {g : Gate} (here : gate? id = some g)
    (outputs : ∀ l ∈ g.inputLinks, ∀ d, gate? l.source = some d → d.isOutput = false) :
    Wired (connected gate? g.inputLinks) next := by
  have links : g.inputLinks = g.toShape.inputLinks id := by rw [Gate.inputLinks, h.keyed here]
  rw [links] at outputs ⊢
  constructor
  case toNumbered => exact h.toNumbered.relisted _
  case valid =>
    intro d g' found
    obtain ⟨g', before, rfl⟩ := Option.map_eq_some_iff.mp found
    have valid := h.valid before
    simp only [Gate.isValid, Bool.and_eq_true, Bool.or_eq_true, Bool.not_eq_true',
      List.isEmpty_iff] at valid ⊢
    refine ⟨valid.1, valid.2.elim .inl fun empty => ?_⟩
    by_cases driving : (g.toShape.inputLinks id).filter (·.source = d) = []
    · exact .inr (by simp [empty, driving])
    · obtain ⟨l, mem⟩ := List.exists_mem_of_ne_nil _ driving
      rw [List.mem_filter, decide_eq_true_eq] at mem
      exact .inl (outputs l mem.1 g' (by rw [mem.2, before]))
  case nodup =>
    intro d g' found
    obtain ⟨g', before, rfl⟩ := Option.map_eq_some_iff.mp found
    refine (h.nodup before).append ((Shape.inputLinks_nodup _ _).filter _) fun l old new => ?_
    exact ((h.fanout before l).mp old).2.2 (Shape.target_of_mem_inputLinks (List.mem_of_mem_filter new))
  case fanout =>
    intro d g' found l
    obtain ⟨g', before, rfl⟩ := Option.map_eq_some_iff.mp found
    rw [List.mem_append, h.fanout before l, connected, isEdge_relisted, List.mem_filter,
      decide_eq_true_eq]
    by_cases target : l.target = id
    · rw [isEdge_iff_mem here target]
      simp only [target, ne_eq, not_true_eq_false, and_false, false_or]
      exact and_comm
    · have : l ∉ g.toShape.inputLinks id := fun mem => target (Shape.target_of_mem_inputLinks mem)
      simp [target, this]

end WiredExcept

end LogicNet
