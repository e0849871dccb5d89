import LogicNet.Proofs.Netlist.Success

/-!
# Sorting is topological

Sorting a netlist that is not marked as sorted has two ends, and the netlist alone decides between them.

**The law** (`sort_topological`): sorting stops exactly at a combinational loop. Where there is none it returns, and
what it returns is the former netlist with its gates in another order (`SortsTo`): every gate that is not triggered
stands after its drivers, in the whole netlist and in each part, and nothing but orders and marks has changed. Each
part stands TOGETHER in the order of the whole, unless the parts feed each other in a circle.

A circle of parts is no loop of gates. It is why there is a second way to an order, and why that way can still stop:
the gates of a circle of parts may or may not form a loop, and only the order of all gates tells.

**What it does not establish.** Anything of a netlist that counts as sorted, which one of at most one gate always does.
-/

namespace LogicNet

open Std

/-! ## What an order is -/

/-- The list holds the former gates, and every gate that is not triggered stands after its drivers among them. -/
structure Reorders (gate? : GateId → Option Gate) (former order : List GateId) : Prop where
  perm : order.Perm former
  drivers : ∀ before t after, order = before ++ t :: after → ∀ d ∈ former, Feeds gate? d t → d ∈ before

/-- No gate stands before one that feeds it and none feeds itself, so what feeds a gate stands before it. -/
theorem reorders_of_pairwise {gate? : GateId → Option Gate} {former order : List GateId} (perm : order.Perm former)
    (ordered : order.Pairwise fun a b => ¬Feeds gate? b a) (irrefl : ∀ id ∈ former, ¬Feeds gate? id id) :
    Reorders gate? former order := by
  refine ⟨perm, ?_⟩
  intro before t after split d mem feeds
  have listed := perm.mem_iff.mpr mem
  rw [split] at listed ordered
  refine mem_of_pairwise ordered listed feeds ?_
  rintro rfl
  exact irrefl d mem feeds

/-- The part in another order, with the places in it and with the mark, and otherwise as it was. -/
structure Part.SortsTo (gate? : GateId → Option Gate) (p q : Part) : Prop extends Reorders gate? p.gates q.gates where
  indexed : q.Indexed
  marked : q.sorted = true
  kept : { q with gates := p.gates, index := p.index, sorted := p.sorted } = p

theorem Part.sortsTo_arrange {gate? : GateId → Option Gate} {p : Part} (nodup : p.gates.Nodup) {order : List GateId}
    (reorders : Reorders gate? p.gates order) : p.SortsTo gate? (p.arrange order) :=
  ⟨reorders, indexed_arrange (reorders.perm.nodup_iff.mpr nodup), rfl, rfl⟩

namespace Netlist

/-- The netlist in another order, part by part and as a whole, and otherwise as it was. -/
structure SortsTo (net net' : Netlist) : Prop where
  top : net.top.SortsTo net.gate? net'.top
  parts : List.Forall₂ (Part.SortsTo net.gate?) net.parts net'.parts
  /-- Unless the parts feed each other in a circle, the gates of each part stand together. -/
  together : (∀ n, ¬Relation.TransGen net.PartFeeds n n) → ∀ q ∈ net'.parts, q.gates <:+: net'.gates
  /-- Gates, homes and all else that is kept beside the orders stay. -/
  kept : { net' with top := net.top, parts := net.parts } = net

theorem Takes.sortsTo {net : Netlist} (h : net.Consistent) {order : List GateId} {orders : List (List GateId)}
    (takes : net.Takes order orders) : net.SortsTo (net.arrange order orders) := by
  constructor
  case top =>
    exact Part.sortsTo_arrange h.top.accounts.nodup (reorders_of_pairwise takes.perm takes.ordered takes.irrefl)
  case parts =>
    rw [List.forall₂_iff_get]
    refine ⟨by simp [arrange, takes.length], fun n lt lt' => ?_⟩
    have here := List.getElem?_eq_getElem lt
    obtain ⟨order, there, perm, ordered⟩ := takes.orderly n _ here
    obtain ⟨_, rfl⟩ := List.getElem?_eq_some_iff.mp there
    simp only [arrange, List.get_eq_getElem, List.getElem_zipWith]
    have part := (h.parts n _ here).accounts
    refine Part.sortsTo_arrange part.nodup (reorders_of_pairwise perm ordered fun id mem => takes.irrefl id ?_)
    exact h.mem_view_gates.mpr (part.known id mem)
  case together =>
    intro acyclic q mem
    obtain ⟨ns, found⟩ := exists_partOrder h acyclic
    obtain ⟨n, here⟩ := List.mem_iff_getElem?.mp mem
    obtain ⟨p, part, _, there, rfl⟩ := List.getElem?_zipWith_eq_some.mp here
    exact takes.together (by rw [found]; rfl) part (List.mem_of_getElem? there)
  case kept => rfl

/-! ## Stopping -/

theorem Takes.acyclic {net : Netlist} {order : List GateId} {orders : List (List GateId)}
    (takes : net.Takes order orders) : net.view.Acyclic :=
  View.acyclic_of_ordered (fun _ mem => takes.perm.mem_iff.mpr mem) takes.ordered takes.irrefl

theorem flatOrder_eq_error {net : Netlist} {e : Fault} (stopped : net.flatOrder = .error e) : e = .breach .loop :=
  (Result.getOrBreach_eq_error.mp stopped).2

theorem partOrders_eq_error {net : Netlist} {e : Fault} (stopped : net.partOrders = .error e) :
    ∃ n, e = .breach (.loopInPart n) := by
  obtain ⟨⟨p, n⟩, _, here⟩ := Result.exists_of_mapM_eq_error stopped
  exact ⟨n, (Result.getOrBreach_eq_error.mp here).2⟩

/-- Sorting a well-formed netlist stops only where an order of all gates or of a part is not found. -/
theorem sort_eq_error {net : Netlist} (wellFormed : net.isWellFormed = true) {e : Fault}
    (stopped : net.sort = .error e) : e = .breach .loop ∨ ∃ n, e = .breach (.loopInPart n) := by
  rcases Result.bind_eq_error.mp stopped with refused | ⟨_, _, stopped⟩
  · rw [wellFormed] at refused
    cases refused
  split at stopped
  · cases stopped
  split at stopped
  · rcases Result.bind_eq_error.mp stopped with flat | ⟨_, _, impossible⟩
    · exact .inl (flatOrder_eq_error flat)
    · cases impossible
  · rcases Result.bind_eq_error.mp stopped with parts | ⟨orders, _, stopped⟩
    · exact .inr (partOrders_eq_error parts)
    simp only at stopped
    split at stopped
    · cases stopped
    · rcases Result.bind_eq_error.mp stopped with flat | ⟨_, _, impossible⟩
      · exact .inl (flatOrder_eq_error flat)
      · cases impossible

/-- SORTING IS TOPOLOGICAL. A well-formed netlist that is not marked cannot be sorted exactly if it has a loop, and
then this is what is said of it. If it has none, it is sorted. -/
theorem sort_topological {net : Netlist} (h : net.Reachable) (wellFormed : net.isWellFormed = true)
    (unmarked : net.isSorted = false) :
    ((net.sort = .error (.breach .loop) ∨ ∃ n, net.sort = .error (.breach (.loopInPart n))) ↔ ¬net.view.Acyclic) ∧
      (net.view.Acyclic → ∃ net', net.sort = .ok net' ∧ net.SortsTo net') := by
  have consistent := h.consistent
  have taken : ∀ {net'}, net.sort = .ok net' → ∃ order orders, net.Takes order orders ∧ net' = net.arrange order orders := by
    intro net' sorted
    rcases sort_cases sorted with ⟨marked, _⟩ | ⟨_, order, orders, finds, same⟩
    · rw [unmarked] at marked
      cases marked
    · exact ⟨order, orders, finds.takes consistent, same⟩
  refine ⟨⟨?_, ?_⟩, ?_⟩
  · intro stopped acyclic
    obtain ⟨net', sorted⟩ := exists_sort consistent wellFormed acyclic
    rw [sorted] at stopped
    rcases stopped with stopped | ⟨_, stopped⟩ <;> cases stopped
  · intro loop
    cases result : net.sort with
    | ok net' =>
      obtain ⟨order, orders, takes, _⟩ := taken result
      exact absurd takes.acyclic loop
    | error e =>
      rcases sort_eq_error wellFormed result with rfl | ⟨n, rfl⟩
      · exact .inl rfl
      · exact .inr ⟨n, rfl⟩
  · intro acyclic
    obtain ⟨net', sorted⟩ := exists_sort consistent wellFormed acyclic
    obtain ⟨order, orders, takes, rfl⟩ := taken sorted
    exact ⟨_, sorted, takes.sortsTo consistent⟩

/-- A conjunction and one of its operands in the first part, its other operand, a negation, in the second. The gates of
the first part do not stand together, and the second part has to come first. -/
def dividedNet : Result Netlist := do
  let net := made [.nary .input [], .nary .input [], .nary .not [⟨1⟩], .nary .and [⟨0⟩, ⟨2⟩]]
  let net ← net.addPart.2.addPart.2.moveGate ⟨0⟩ (some 0)
  let net ← net.moveGate ⟨3⟩ (some 0)
  let net ← net.moveGate ⟨1⟩ (some 1)
  net.moveGate ⟨2⟩ (some 1)

theorem dividedNet_sorted : ∃ net net', dividedNet = .ok net ∧ net.isWellFormed = true ∧ net.isSorted = false ∧
    net.parts.length = 2 ∧ net.sort = .ok net' ∧ net.SortsTo net' ∧ net'.gates = [⟨1⟩, ⟨2⟩, ⟨0⟩, ⟨3⟩] := by
  obtain ⟨net, run, facts⟩ : ∃ net, dividedNet = .ok net ∧ (net.isWellFormed && !net.isSorted && net.parts.length == 2 &&
      (net.view.allGates fun id g => g.isTrigger || g.inputs.all fun s => s.driver.index < id.index) &&
      (net.sort.toOption.any fun net' => net'.gates == [⟨1⟩, ⟨2⟩, ⟨0⟩, ⟨3⟩])) = true :=
    Result.exists_ok_of_any (by decide +kernel)
  simp only [Bool.and_eq_true, Bool.not_eq_true', beq_iff_eq] at facts
  obtain ⟨⟨⟨⟨wellFormed, unmarked⟩, two⟩, forward⟩, gates⟩ := facts
  have reachable : net.Reachable := by
    obtain ⟨net₁, first, run⟩ := Result.bind_eq_ok.mp run
    obtain ⟨net₂, second, run⟩ := Result.bind_eq_ok.mp run
    obtain ⟨net₃, third, fourth⟩ := Result.bind_eq_ok.mp run
    have divided := (reachable_made [.nary .input [], .nary .input [], .nary .not [⟨1⟩], .nary .and [⟨0⟩, ⟨2⟩]]).addPart.addPart
    exact .moveGate _ _ (.moveGate _ _ (.moveGate _ _ (.moveGate _ _ divided first) second) third) fourth
  obtain ⟨net', sorted, sortsTo⟩ := (sort_topological reachable wellFormed unmarked).2 (View.acyclic_of_all forward)
  rw [sorted] at gates
  exact ⟨net, net', run, wellFormed, unmarked, two, sorted, sortsTo, eq_of_beq gates⟩

end Netlist

end LogicNet
