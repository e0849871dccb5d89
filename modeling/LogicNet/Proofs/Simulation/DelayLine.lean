import LogicNet.Netlist.Sample
import LogicNet.Proofs.Netlist.Listing
import LogicNet.Proofs.Simulation.History

/-!
# Delay lines

A flip-flop FOLLOWS the gate that it reads: it has, at each step but the first, the word that this gate had a step
before. A chain of flip-flops is a delay line, by induction on the steps and on the places of the chain
(`View.History.delays`). It does not matter what is on the clock: an edge between two steps is always active.

The chain of the sample netlist is as long as asked for because sharing does not shorten it. Each flip-flop reads
another gate, so no two of them have the same shape. From this the netlist is known as a list of shapes
(`toggleChain_lists`), and its runs from its history.

**The law** (`toggleChain_run`): at each step the chain returns its input, and from the step on at which the first word
has come through, the exclusive or of its input with the word `length` steps before.
-/

namespace LogicNet

open Std

namespace View

variable {v : View} {pins : List GateId} {steps : List (List Word)} {env : Nat → GateId → Word}

/-! ## Chains of flip-flops -/

/-- Gate `q` is a flip-flop on gate `x`, and no pin sets it. -/
structure Follows (v : View) (pins : List GateId) (x q : GateId) : Prop where
  inside : q ∈ v.part.gates
  unpinned : q ∉ pins
  shape : ∃ clock, v.net.shape? q = some ⟨.flipFlop, [.plain x, ⟨.rising, clock⟩]⟩

/-- At the first step a flip-flop is off. -/
theorem Follows.first {x q : GateId} (h : v.Follows pins x q) (history : v.History pins (fun _ => 0) steps env)
    (lt : 0 < steps.length) : env 0 q = 0 := by
  obtain ⟨clock, shape⟩ := h.shape
  obtain ⟨g, found, isFlipFlop⟩ := Netlist.shape?_eq_some.mp shape
  exact (history.first _ (List.getElem?_eq_getElem lt)).held q h.inside h.unpinned g found (by rw [isFlipFlop]; rfl)

/-- At a later step it has what its data input had at the step before. -/
theorem Follows.later {x q : GateId} (h : v.Follows pins x q) (history : v.History pins (fun _ => 0) steps env)
    {k : Nat} (lt : k + 1 < steps.length) : env (k + 1) q = env k x := by
  obtain ⟨clock, shape⟩ := h.shape
  obtain ⟨g, found, isFlipFlop⟩ := Netlist.shape?_eq_some.mp shape
  have trigger : g.isTrigger = true := by rw [isFlipFlop]; rfl
  obtain ⟨next, advances, stepped⟩ := history.later k _ (List.getElem?_eq_getElem lt)
  calc
    env (k + 1) q = next q := stepped.held q h.inside h.unpinned g found trigger
    _ = g.word (env k) := advances q h.inside h.unpinned g found trigger
    _ = env k x := by rw [Gate.word, isFlipFlop]; rfl

/-- A CHAIN DELAYS. At place `d` stands what stood at the first place `d` steps before. -/
theorem History.delays (history : v.History pins (fun _ => 0) steps env) {place : Nat → GateId} {n : Nat}
    (chain : ∀ d < n, v.Follows pins (place d) (place (d + 1))) {k : Nat} (lt : k < steps.length) {d : Nat}
    (le : d ≤ n) : env k (place d) = if d ≤ k then env (k - d) (place 0) else 0 := by
  induction k generalizing d with
  | zero =>
    cases d with
    | zero => rfl
    | succ d => exact (chain d le).first history lt
  | succ k ih =>
    cases d with
    | zero => rfl
    | succ d =>
      rw [(chain d le).later history lt, ih (Nat.lt_of_succ_lt lt) (Nat.le_of_succ_le le)]
      simp only [Nat.succ_le_succ_iff, Nat.succ_sub_succ]

end View

namespace Netlist

/-! ## The sample chain -/

/-- The gates along the chain: the input, and then the flip-flops. The clock has number 1. -/
def chainPlace : Nat → GateId
  | 0 => ⟨0⟩
  | d + 1 => ⟨d + 2⟩

/-- The flip-flop that reads place `d`. -/
def chainStage (d : Nat) : Shape := ⟨.flipFlop, [.plain (chainPlace d), ⟨.rising, ⟨1⟩⟩]⟩

/-- The input, the clock and the flip-flops. -/
def chainShapes (length : Nat) : List Shape := ⟨.input, []⟩ :: ⟨.input, []⟩ :: (List.range length).map chainStage

/-- The whole sample. -/
def toggleShapes (length : Nat) : List Shape :=
  chainShapes length ++ [.nary .xor [chainPlace length, ⟨0⟩]] ++ [.nary .output [⟨length + 2⟩]]

theorem chainPlace_injective : Function.Injective chainPlace := by
  intro a b same
  have index := congrArg GateId.index same
  cases a <;> cases b <;> simp [chainPlace] at index ⊢
  exact index

@[simp] theorem length_chainShapes (length : Nat) : (chainShapes length).length = length + 2 := by simp [chainShapes]

theorem chainShapes_succ (length : Nat) : chainShapes (length + 1) = chainShapes length ++ [chainStage length] := by
  simp [chainShapes, List.range_succ]

theorem getElem?_chainShapes {length i : Nat} {s : Shape} (found : (chainShapes length)[i]? = some s) :
    i < 2 ∧ s = ⟨.input, []⟩ ∨ ∃ d < length, chainPlace (d + 1) = ⟨i⟩ ∧ s = chainStage d := by
  rcases i with _ | _ | d
  · exact .inl ⟨Nat.zero_lt_two, (Option.some.inj found).symm⟩
  · exact .inl ⟨Nat.one_lt_two, (Option.some.inj found).symm⟩
  · rw [chainShapes, List.getElem?_cons_succ, List.getElem?_cons_succ, List.getElem?_map,
      Option.map_eq_some_iff] at found
    obtain ⟨d', here, rfl⟩ := found
    obtain ⟨lt, rfl⟩ := List.getElem?_eq_some_iff.mp here
    rw [List.length_range] at lt
    rw [List.getElem_range]
    exact .inr ⟨d, lt, rfl, rfl⟩

theorem getElem?_chainStage {length d : Nat} (lt : d < length) :
    (chainShapes length)[(chainPlace (d + 1)).index]? = some (chainStage d) := by
  simp [chainShapes, chainPlace, lt]

/-- No place of the chain is an output, and the clock is none. -/
theorem exists_chainPlace {length d : Nat} (le : d ≤ length) :
    ∃ s, (chainShapes length)[(chainPlace d).index]? = some s ∧ s.isOutput = false := by
  cases d with
  | zero => exact ⟨⟨.input, []⟩, rfl, rfl⟩
  | succ d => exact ⟨chainStage d, getElem?_chainStage le, rfl⟩

theorem exists_chainClock (length : Nat) : ∃ s, (chainShapes length)[1]? = some s ∧ s.isOutput = false :=
  ⟨⟨.input, []⟩, rfl, rfl⟩

/-- Each flip-flop reads another gate, so the next one is new. -/
theorem chainStage_not_mem (length : Nat) : chainStage length ∉ chainShapes length := by
  intro mem
  obtain ⟨i, found⟩ := List.mem_iff_getElem?.mp mem
  rcases getElem?_chainShapes found with ⟨_, isInput⟩ | ⟨d, lt, _, same⟩
  · cases isInput
  · have places : chainPlace length = chainPlace d := by
      simpa [chainStage, Signal.plain] using same
    exact Nat.ne_of_gt lt (chainPlace_injective places)

/-- THE WHOLE CHAIN. Flip-flops are added one behind the other, unless the numbers run out. -/
theorem addChain_lists {net : Netlist} {d : Nat} (h : Lists (chainShapes d) net) (n : Nat) :
    (∃ net', net.addChain ⟨1⟩ n (chainPlace d) = .ok (chainPlace (d + n), net') ∧ Lists (chainShapes (d + n)) net') ∨
      net.addChain ⟨1⟩ n (chainPlace d) = .error (.breach .overflow) ∧ GateId.largest < d + n + 2 := by
  induction n generalizing d net with
  | zero => exact .inl ⟨net, rfl, h⟩
  | succ n ih =>
    have drivers : ∀ x ∈ (chainStage d).inputs,
        ∃ s, (chainShapes d)[x.driver.index]? = some s ∧ s.isOutput = false := by
      intro x read
      rcases List.mem_pair.mp read with rfl | rfl
      · exact exists_chainPlace (Nat.le_refl d)
      · exact exists_chainClock d
    have new : chainStage d ∉ chainShapes d ∧ ∀ c, (chainStage d).complement = some c → c ∉ chainShapes d :=
      ⟨chainStage_not_mem d, fun c complement => by cases complement⟩
    rcases h.addGate_new rfl drivers (fun _ => new) with ⟨net', added, lists⟩ | ⟨failed, full⟩
    · rw [length_chainShapes] at added
      rw [← chainShapes_succ] at lists
      have unfolds : net.addChain ⟨1⟩ (n + 1) (chainPlace d) = net'.addChain ⟨1⟩ n (chainPlace (d + 1)) := by
        rw [addChain, addFlipFlop]
        exact congrArg (· >>= _) added
      rw [unfolds, show d + (n + 1) = d + 1 + n by omega]
      exact ih lists
    · rw [length_chainShapes] at full
      refine .inr ⟨?_, by omega⟩
      rw [addChain, addFlipFlop]
      exact congrArg (· >>= _) failed

theorem fn_of_mem_chainShapes {length : Nat} {s : Shape} (mem : s ∈ chainShapes length) :
    s.fn = .input ∨ s.fn = .flipFlop := by
  obtain ⟨i, found⟩ := List.mem_iff_getElem?.mp mem
  rcases getElem?_chainShapes found with ⟨_, rfl⟩ | ⟨d, _, _, rfl⟩
  · exact .inl rfl
  · exact .inr rfl

/-- Each input is a gate of its own. -/
theorem exists_chainInputs : ∃ one two, empty.addInput = .ok (⟨0⟩, one) ∧ one.addInput = .ok (⟨1⟩, two) ∧
    Lists (chainShapes 0) two := by
  obtain ⟨one, addedInput, lists⟩ := (@Lists.addGate_new _ _ ⟨.input, []⟩ lists_nil rfl nofun nofun).resolve_right
    fun failed => absurd failed.2 (by decide)
  obtain ⟨two, addedClock, lists⟩ := (@Lists.addGate_new _ _ ⟨.input, []⟩ lists rfl nofun nofun).resolve_right
    fun failed => absurd failed.2 (by decide)
  exact ⟨one, two, addedInput, addedClock, lists⟩

/-- The exclusive or at the end is new, and so is its complement. -/
theorem addToggle_lists {length : Nat} {net : Netlist} (h : Lists (chainShapes length) net) :
    (∃ net', net.addNary .xor [chainPlace length, ⟨0⟩] = .ok (⟨length + 2⟩, net') ∧
        Lists (chainShapes length ++ [.nary .xor [chainPlace length, ⟨0⟩]]) net') ∨
      net.addNary .xor [chainPlace length, ⟨0⟩] = .error (.breach .overflow) ∧ GateId.largest ≤ length + 2 := by
  have drivers : ∀ x ∈ (Shape.nary .xor [chainPlace length, ⟨0⟩]).inputs,
      ∃ s, (chainShapes length)[x.driver.index]? = some s ∧ s.isOutput = false := by
    intro x read
    rcases List.mem_pair.mp read with rfl | rfl
    · exact exists_chainPlace (Nat.le_refl length)
    · exact exists_chainPlace (Nat.zero_le length)
  have unlike : ∀ s : Shape, s.fn = .xor ∨ s.fn = .xnor → s ∉ chainShapes length := by
    intro s parity mem
    rcases fn_of_mem_chainShapes mem with isInput | isFlipFlop
    · simp [isInput] at parity
    · simp [isFlipFlop] at parity
  rw [← length_chainShapes]
  refine h.addGate_new rfl drivers fun _ => ⟨unlike _ (.inl rfl), fun c complement => ?_⟩
  cases complement
  exact unlike _ (.inr rfl)

/-- The sample is this list of shapes, sorted. -/
theorem toggleChain_lists {length : Nat} (positive : 0 < length) :
    (∃ net, toggleChain length = net.sort ∧ Lists (toggleShapes length) net) ∨
      toggleChain length = .error (.breach .overflow) ∧ GateId.largest < length + 4 := by
  have isPositive : Result.require (0 < length) .noOperands = .ok () :=
    Result.require_eq_ok.mpr (decide_eq_true positive)
  obtain ⟨one, two, addedInput, addedClock, lists⟩ := exists_chainInputs
  unfold toggleChain
  simp only [isPositive, addedInput, addedClock, Result.ok_bind]
  change (∃ net, (two.addChain ⟨1⟩ length (chainPlace 0) >>= _) = _ ∧ _) ∨
    (two.addChain ⟨1⟩ length (chainPlace 0) >>= _) = _ ∧ _
  rcases addChain_lists lists length with ⟨net, chained, lists⟩ | ⟨failed, full⟩
  case inr => exact .inr ⟨by rw [failed, Result.error_bind], by omega⟩
  rw [Nat.zero_add] at chained lists
  simp only [chained, Result.ok_bind]
  rcases addToggle_lists lists with ⟨net, added, lists⟩ | ⟨failed, full⟩
  case inr => exact .inr ⟨by rw [failed, Result.error_bind], by omega⟩
  simp only [added, Result.ok_bind]
  have driver : ∀ x ∈ (Shape.nary .output [⟨length + 2⟩]).inputs, ∃ s,
      (chainShapes length ++ [.nary .xor [chainPlace length, ⟨0⟩]])[x.driver.index]? = some s ∧ s.isOutput = false := by
    intro x read
    obtain rfl : x = .plain ⟨length + 2⟩ := List.mem_singleton.mp read
    exact ⟨.nary .xor [chainPlace length, ⟨0⟩], by simp [Signal.plain], rfl⟩
  rcases lists.addGate_new rfl driver (fun shareable => by cases shareable) with ⟨net, added, lists⟩ | ⟨failed, full⟩
  case inr =>
    rw [List.length_append, length_chainShapes] at full
    exact .inr ⟨by rw [addOutput, addNary, failed, Result.error_bind], Nat.lt_succ_of_le full⟩
  simp only [addOutput, addNary, added, Result.ok_bind]
  exact .inl ⟨net, rfl, lists⟩

/-! ## Its runs -/

theorem getElem?_toggleShapes {length i : Nat} {s : Shape} : (toggleShapes length)[i]? = some s ↔
    (chainShapes length)[i]? = some s ∨ i = length + 2 ∧ s = .nary .xor [chainPlace length, ⟨0⟩] ∨
      i = length + 3 ∧ s = .nary .output [⟨length + 2⟩] := by
  have size := length_chainShapes length
  rw [toggleShapes, List.append_assoc]
  rcases Nat.lt_or_ge i (length + 2) with lt | ge
  · rw [List.getElem?_append_left (by omega)]
    constructor
    · exact .inl
    · rintro (found | ⟨rfl, _⟩ | ⟨rfl, _⟩)
      · exact found
      · omega
      · omega
  · obtain ⟨j, rfl⟩ := Nat.exists_eq_add_of_le ge
    rw [List.getElem?_append_right (by omega), size, Nat.add_sub_cancel_left,
      List.getElem?_eq_none (by omega : (chainShapes length).length ≤ length + 2 + j)]
    rcases j with _ | _ | j
    · simp [eq_comm]
    · simp [eq_comm]
    · refine iff_of_false (by simp) ?_
      rintro (found | ⟨same, _⟩ | ⟨same, _⟩)
      · cases found
      · omega
      · omega

/-- The sample as it is known from outside: its gates and its boundary. -/
structure IsToggleChain (length : Nat) (net : Netlist) : Prop where
  contained : SelfContained [⟨0⟩, ⟨1⟩] net
  shape : ∀ id : GateId, net.shape? id = (toggleShapes length)[id.index]?

theorem Lists.selfContained_toggle {length : Nat} {net : Netlist} (h : Lists (toggleShapes length) net) :
    SelfContained [⟨0⟩, ⟨1⟩] net := by
  refine h.selfContained fun id => ?_
  constructor
  · intro mem
    refine ⟨⟨.input, []⟩, ?_, rfl⟩
    rcases List.mem_pair.mp mem with rfl | rfl
    · rfl
    · rfl
  · rintro ⟨s, found, source⟩
    rcases getElem?_toggleShapes.mp found with chain | ⟨_, rfl⟩ | ⟨_, rfl⟩
    · rcases getElem?_chainShapes chain with ⟨lt, _⟩ | ⟨d, _, _, rfl⟩
      · obtain ⟨i⟩ := id
        replace lt : i < 2 := lt
        have isPin : i = 0 ∨ i = 1 := by omega
        rcases isPin with rfl | rfl
        · exact List.mem_cons_self
        · exact List.mem_cons_of_mem _ List.mem_cons_self
      · cases source
    · cases source
    · cases source

namespace IsToggleChain

variable {length : Nat} {net : Netlist} (h : IsToggleChain length net)
include h

theorem shape_eq {id : GateId} {s : Shape} : net.shape? id = some s ↔
    (chainShapes length)[id.index]? = some s ∨ id = ⟨length + 2⟩ ∧ s = .nary .xor [chainPlace length, ⟨0⟩] ∨
      id = ⟨length + 3⟩ ∧ s = .nary .output [⟨length + 2⟩] := by
  obtain ⟨i⟩ := id
  rw [h.shape, getElem?_toggleShapes, GateId.mk.injEq, GateId.mk.injEq]

theorem mem_targets {l : Link} : l ∈ net.targets ↔ l = .port ⟨length + 3⟩ := by
  rw [h.contained.mem_targets]
  constructor
  · rintro ⟨id, s, found, output, rfl⟩
    rcases h.shape_eq.mp found with chain | ⟨_, rfl⟩ | ⟨rfl, _⟩
    · rcases getElem?_chainShapes chain with ⟨_, rfl⟩ | ⟨_, _, _, rfl⟩ <;> cases output
    · cases output
    · rfl
  · rintro rfl
    exact ⟨_, _, h.shape_eq.mpr (.inr (.inr ⟨rfl, rfl⟩)), rfl, rfl⟩

theorem mem_sources {l : Link} : l ∈ net.sources ↔ l = .port ⟨0⟩ ∨ l = .port ⟨1⟩ := by
  rw [h.contained.mem_sources]
  simp

theorem mem_triggers {id : GateId} : id ∈ net.top.triggers ↔ ∃ d < length, chainPlace (d + 1) = id := by
  have consistent := h.contained.reachable.consistent
  rw [consistent.top.accounts.triggers]
  constructor
  · rintro ⟨_, g, found, trigger⟩
    rcases h.shape_eq.mp (shape?_of_gate? found) with chain | ⟨_, shape⟩ | ⟨_, shape⟩
    · rcases getElem?_chainShapes chain with ⟨_, shape⟩ | ⟨d, lt, place, _⟩
      · rw [shape] at trigger
        cases trigger
      · exact ⟨d, lt, place⟩
    · rw [shape] at trigger
      cases trigger
    · rw [shape] at trigger
      cases trigger
  · rintro ⟨d, lt, rfl⟩
    have shape := h.shape_eq.mpr (.inl (getElem?_chainStage lt))
    obtain ⟨g, found, isStage⟩ := shape?_eq_some.mp shape
    exact ⟨consistent.mem_view_gates.mpr ⟨g, found⟩, g, found, by rw [isStage]; rfl⟩

/-- One trigger for each place behind the input. -/
theorem size_triggers : net.top.triggers.size = length := by
  have places : ((List.range length).map fun d => chainPlace (d + 1)).Nodup :=
    List.nodup_range.map fun a b same => Nat.succ.inj (chainPlace_injective same)
  have same : net.top.triggers.toList.Perm ((List.range length).map fun d => chainPlace (d + 1)) := by
    refine (List.perm_ext_iff_of_nodup (nodup_toList _) places).mpr fun id => ?_
    rw [TreeSet.mem_toList, h.mem_triggers, List.mem_map]
    simp only [List.mem_range]
  rw [← TreeSet.length_toList, same.length_eq, List.length_map, List.length_range]

theorem follows {d : Nat} (lt : d < length) :
    net.view.Follows [⟨0⟩, ⟨1⟩] (chainPlace d) (chainPlace (d + 1)) := by
  have shape := h.shape_eq.mpr (.inl (getElem?_chainStage lt))
  refine ⟨h.contained.reachable.consistent.mem_gates_iff_shape?.mpr ⟨_, shape⟩, ?_, ⟨1⟩, shape⟩
  simp [chainPlace]

/-- Within a step the output has the exclusive or of both ends of the chain. -/
theorem output_eq {words : List Word} {before after : GateId → Word}
    (stepped : Stepped net.view [⟨0⟩, ⟨1⟩] words before after) :
    after ⟨length + 3⟩ = after (chainPlace length) ^^^ after ⟨0⟩ := by
  have consistent := h.contained.reachable.consistent
  have computed : ∀ i fn xs, net.shape? ⟨i + 2⟩ = some (.nary fn xs) → xs ≠ [] →
      after ⟨i + 2⟩ = fn.evalWord (before ⟨i + 2⟩) (xs.map after) := by
    intro i fn xs shape driven
    obtain ⟨g, found, isNary⟩ := shape?_eq_some.mp shape
    have notSource : g.isSource = false := by
      rw [isNary]
      simp [Shape.isSource, Shape.nary, driven]
    rw [stepped.computed ⟨i + 2⟩ (consistent.mem_gates_iff_shape?.mpr ⟨_, shape⟩) (by simp) g found notSource
      (by rw [isNary, Shape.isTrigger_nary]), isNary, Shape.nary, List.map_map]
    rfl
  calc
    after ⟨length + 3⟩ = after ⟨length + 2⟩ := computed (length + 1) _ _ (h.shape_eq.mpr (.inr (.inr ⟨rfl, rfl⟩)))
      (List.cons_ne_nil _ _)
    _ = 0 ^^^ after (chainPlace length) ^^^ after ⟨0⟩ :=
      computed length _ _ (h.shape_eq.mpr (.inr (.inl ⟨rfl, rfl⟩))) (List.cons_ne_nil _ _)
    _ = after (chainPlace length) ^^^ after ⟨0⟩ := by rw [UInt64.zero_xor]

theorem interpreted : net.view.Interpreted := by
  intro id _ g found _
  rcases h.shape_eq.mp (shape?_of_gate? found) with chain | ⟨_, shape⟩ | ⟨_, shape⟩
  · rcases fn_of_mem_chainShapes (List.mem_of_getElem? chain) with fn | fn
    · rw [fn]; rfl
    · rw [fn]; rfl
  · rw [shape]; rfl
  · rw [shape]; rfl

/-- THE WHOLE RUN. The input comes through, and with it what the chain has delayed. -/
theorem exists_run : ∃ sim, net.view.compile [⟨0⟩, ⟨1⟩] [⟨length + 3⟩] = .ok sim ∧
    ∀ (n : Nat) (input clock : Nat → Word), sim.run ((List.range n).map fun t => [input t, clock t]) =
      .ok ((List.range n).map fun t => [if length ≤ t then input t ^^^ input (t - length) else input t]) := by
  have consistent := h.contained.reachable.consistent
  have inside : ∀ id ∈ [(⟨length + 3⟩ : GateId)], id ∈ net.view.part.gates ∨ id ∈ [(⟨0⟩ : GateId), ⟨1⟩] := by
    refine List.forall_mem_singleton.mpr (.inl (consistent.mem_gates_iff_shape?.mpr ?_))
    exact ⟨_, h.shape_eq.mpr (.inr (.inr ⟨rfl, rfl⟩))⟩
  have run {steps : List (List Word)} := @View.Coherent.run_history net.view [⟨0⟩, ⟨1⟩] [⟨length + 3⟩]
    consistent.coherent_view h.interpreted h.contained.acyclic (by decide) inside steps
  obtain ⟨sim, _, compiled, _⟩ := @run [] nofun
  refine ⟨sim, compiled, fun n input clock => ?_⟩
  obtain ⟨_, env, compiled', history, returned⟩ := @run ((List.range n).map fun t => [input t, clock t])
    (List.forall_mem_map.mpr fun _ _ => rfl)
  cases compiled.symm.trans compiled'
  have step : ∀ t < n, ((List.range n).map fun t => [input t, clock t])[t]? = some [input t, clock t] := by
    intro t lt
    rw [List.getElem?_map, List.getElem?_range lt]
    rfl
  have fed : ∀ t < n, env t ⟨0⟩ = input t := by
    intro t lt
    obtain ⟨_, stepped⟩ := history.exists_stepped (step t lt)
    exact stepped.fed 0 _ _ rfl rfl
  rw [returned, View.rowsOf, List.length_map, List.length_range]
  refine congrArg Except.ok (List.map_congr_left fun t mem => ?_)
  have lt := List.mem_range.mp mem
  obtain ⟨_, stepped⟩ := history.exists_stepped (step t lt)
  have delayed := history.delays (fun d => h.follows) (by simpa using lt) (Nat.le_refl length)
  show [env t ⟨length + 3⟩] = _
  rw [h.output_eq stepped, delayed, fed t lt, chainPlace, UInt64.xor_comm]
  split
  · rw [fed (t - length) (by omega)]
  · rw [UInt64.xor_zero]

end IsToggleChain

/-- A TOGGLE CHAIN DELAYS ITS INPUT BY ITS LENGTH. Its sources are the input and the clock, its target is the output,
and it has as many triggers as it is long. Only where the numbers run out is there no chain. -/
theorem toggleChain_run {length : Nat} (positive : 0 < length) :
    (∃ net, toggleChain length = .ok net ∧ net.top.triggers.size = length ∧
      (∀ l, l ∈ net.sources ↔ l = .port ⟨0⟩ ∨ l = .port ⟨1⟩) ∧ (∀ l, l ∈ net.targets ↔ l = .port ⟨length + 3⟩) ∧
      ∃ sim, net.view.compile [⟨0⟩, ⟨1⟩] [⟨length + 3⟩] = .ok sim ∧
        ∀ (n : Nat) (input clock : Nat → Word), sim.run ((List.range n).map fun t => [input t, clock t]) =
          .ok ((List.range n).map fun t => [if length ≤ t then input t ^^^ input (t - length) else input t])) ∨
      toggleChain length = .error (.breach .overflow) ∧ GateId.largest < length + 4 := by
  rcases toggleChain_lists positive with ⟨net, made, lists⟩ | failed
  case inr => exact .inr failed
  have contained := lists.selfContained_toggle
  obtain ⟨net', sorted, same, flat⟩ := exists_sort_of_flat lists.reachable.consistent lists.flat lists.acyclic
  have chain : IsToggleChain length net' := by
    refine ⟨contained.of_gates (.sort lists.reachable sorted) flat same, fun id => ?_⟩
    rw [shape?_congr same, lists.shape]
  exact .inl ⟨net', made.trans sorted, chain.size_triggers, fun _ => chain.mem_sources, fun _ => chain.mem_targets,
    chain.exists_run⟩

/-- Four steps through two flip-flops: the first two words come through alone. -/
theorem toggleChain_two : ∃ net sim, toggleChain 2 = .ok net ∧ net.view.compile [⟨0⟩, ⟨1⟩] [⟨5⟩] = .ok sim ∧
    sim.run [[12, 0], [10, 1], [7, 1], [5, 0]] = .ok [[12], [10], [11], [15]] := by
  rcases @toggleChain_run 2 (by decide) with ⟨net, made, _, _, _, sim, compiled, run⟩ | ⟨_, full⟩
  · exact ⟨net, sim, made, compiled, run 4 (fun t => [12, 10, 7, 5].getD t 0) fun t => [0, 1, 1, 0].getD t 0⟩
  · exact absurd full (by decide)

end Netlist

end LogicNet
