import LogicNet.Proofs.Netlist.Editing

/-!
# Dividing keeps a netlist consistent

No operation on parts touches the gate table; what changes is which gates a part lists and where a
gate is at home. Moving one gate is one more edit around a gate. Merging parts and grouping orphans
both GATHER gates that no part lists into one part, which is then computed from nothing.

Dropping the empty parts renumbers the others: the new number of a part is how many parts with gates
stand before it, and that number is different for different parts with gates.
-/

namespace LogicNet

open Std

namespace Netlist

/-! ## Moving one gate -/

theorem Tallied.addPart {net : Netlist} (h : net.Tallied) : net.addPart.2.Tallied where
  housed := h.housed
  emptied n := by
    simp only [Netlist.addPart, TreeSet.mem_insert, LawfulEqCmp.compare_eq_iff_eq, h.emptied,
      List.getElem?_append, List.getElem?_singleton]
    split
    · next inside => simp [Nat.ne_of_gt inside]
    · next past =>
      by_cases here : net.parts.length = n
      · simp [here]
      · have beyond : n - net.parts.length ≠ 0 := by omega
        simp [here, beyond, Nat.le_of_not_lt past]

theorem Consistent.addPart {net : Netlist} (h : net.Consistent) : net.addPart.2.Consistent where
  wired := h.wired
  top := h.top
  parts n p found := by
    simp only [Netlist.addPart, List.getElem?_append] at found
    split at found
    · exact h.parts n p found
    · next past =>
      obtain ⟨rfl, rfl⟩ : n = net.parts.length ∧ p = {} := by
        rw [List.getElem?_singleton] at found
        split at found
        · exact ⟨by omega, (Option.some.inj found).symm⟩
        · cases found
      refine .nothing fun id => Bool.eq_false_iff.mpr fun inside => ?_
      exact Nat.lt_irrefl _ (h.homes id _ (inPart_iff.mp inside))
  homes id n home := by
    have := h.homes id n home
    simp only [Netlist.addPart, List.length_append, List.length_singleton]
    omega
  tallied := h.tallied.addPart
  shared := h.shared

theorem moveGate_spec {net net' : Netlist} {id : GateId} {dest : Option Nat}
    (moved : net.moveGate id dest = .ok net') :
    ∃ g, net.gate? id = some g ∧ (∀ n, dest = some n → n < net.parts.length) ∧
      (net.partOf? id = dest ∧ net' = net ∨ net.partOf? id ≠ dest ∧
        net' = (net.rehome id g dest).refresh id [] (net.partOf? id)) := by
  obtain ⟨g, found, moved⟩ := Result.bind_eq_ok.mp moved
  refine ⟨g, gate_eq_ok.mp found, ?_⟩
  cases dest with
  | none =>
    refine ⟨by simp, ?_⟩
    simp only at moved
    split at moved
    · next stays =>
      cases moved
      exact .inl ⟨stays, rfl⟩
    · next elsewhere =>
      cases moved
      exact .inr ⟨elsewhere, rfl⟩
  | some n =>
    obtain ⟨_, inside, moved⟩ := Result.bind_eq_ok.mp moved
    refine ⟨by simpa using inside, ?_⟩
    simp only at moved
    split at moved
    · next stays =>
      cases moved
      exact .inl ⟨stays, rfl⟩
    · next elsewhere =>
      cases moved
      exact .inr ⟨elsewhere, rfl⟩

/-- Moving a gate disturbs the order of all gates. Apart from that it changes the parts, the homes and
the tallies alone. -/
theorem rehome_eq (net : Netlist) (id : GateId) (g : Gate) (dest : Option Nat) :
    net.rehome id g dest =
      { net with
        top := net.top.disturb
        parts := (net.rehome id g dest).parts
        home := (net.rehome id g dest).home
        emptyParts := (net.rehome id g dest).emptyParts
        housed := (net.rehome id g dest).housed } := by
  cases dest <;> simp only [rehome, enterPart] <;> rw [leavePart_eq]

@[simp] theorem gate?_rehome (net : Netlist) (id : GateId) (g : Gate) (dest : Option Nat) :
    (net.rehome id g dest).gate? = net.gate? := by
  rw [rehome_eq]
  rfl

@[simp] theorem nextId_rehome (net : Netlist) (id : GateId) (g : Gate) (dest : Option Nat) :
    (net.rehome id g dest).nextId = net.nextId := by
  rw [rehome_eq]

@[simp] theorem top_rehome (net : Netlist) (id : GateId) (g : Gate) (dest : Option Nat) :
    (net.rehome id g dest).top = net.top.disturb := by
  rw [rehome_eq]

@[simp] theorem shared_rehome (net : Netlist) (id : GateId) (g : Gate) (dest : Option Nat) :
    (net.rehome id g dest).shared = net.shared := by
  rw [rehome_eq]

theorem getElem?_rehome {net : Netlist} {id : GateId} {g : Gate} {dest : Option Nat}
    (elsewhere : net.partOf? id ≠ dest) (n : Nat) :
    (net.rehome id g dest).parts[n]? = net.parts[n]?.map fun p =>
      if net.inPart n id = true then p.erase g else if dest = some n then p.insert g else p := by
  cases dest with
  | none => simp [rehome, getElem?_leavePart]
  | some m =>
    simp only [rehome, enterPart, List.getElem?_modify, getElem?_leavePart, Option.some.injEq, Option.map_eq_map,
      Option.map_map]
    congr 1
    funext p
    by_cases here : m = n
    · subst here
      simp [inPart_iff, elsewhere]
    · simp [here]

@[simp] theorem length_rehome (net : Netlist) (id : GateId) (g : Gate) (dest : Option Nat) :
    (net.rehome id g dest).parts.length = net.parts.length := by
  cases dest <;> simp [rehome, enterPart]

theorem partOf?_rehome (net : Netlist) (id : GateId) (g : Gate) (dest : Option Nat) (x : GateId) :
    (net.rehome id g dest).partOf? x = if x = id then dest else net.partOf? x := by
  have left := partOf?_leavePart net id g x
  cases dest with
  | none => exact left
  | some n =>
    simp only [rehome, enterPart, partOf?, TreeMap.getElem?_insert, LawfulEqCmp.compare_eq_iff_eq]
    by_cases here : x = id
    · rw [if_pos here.symm, if_pos here]
    · rw [if_neg (Ne.symm here), if_neg here]
      rw [if_neg here] at left
      exact left

theorem Tallied.rehome {net : Netlist} (h : net.Tallied) {id : GateId} {g : Gate} {dest : Option Nat}
    (occupied : ∀ n, net.partOf? id = some n → net.parts[n]?.map Part.gates ≠ some []) :
    (net.rehome id g dest).Tallied := by
  have left : (net.leavePart id g).Tallied := h.leavePart occupied
  cases dest with
  | none => exact ⟨left.housed, left.emptied⟩
  | some n =>
    have moved := @left.enterPart _ id g n (by rw [partOf?_leavePart, if_pos rfl])
    exact ⟨moved.housed, moved.emptied⟩

/-- Moving a gate keeps a netlist consistent. -/
theorem Consistent.moveGate {net net' : Netlist} (h : net.Consistent) {id : GateId} {dest : Option Nat}
    (moved : net.moveGate id dest = .ok net') : net'.Consistent := by
  obtain ⟨g, found, isPart, ⟨_, rfl⟩ | ⟨elsewhere, rfl⟩⟩ := moveGate_spec moved
  · exact h
  obtain rfl := h.wired.keyed found
  have held : Holds net.gate? g := by simp [Holds, found]
  have linksOf : (net.rehome g.id g dest).linksOf g.id = net.linksOf g.id := by
    rw [rehome_eq]
    rfl
  refine h.refreshed ?wired ?around (by simp) ?homes (fun n before => .inl before) ?isPart (length_rehome ..) ?top
    ?parts (h.tallied.rehome fun n => h.occupied_of_home) ?shared
  case wired =>
    rw [gate?_rehome, nextId_rehome]
    exact h.wired
  case around =>
    rw [linksOf, gate?_rehome]
    exact ⟨fun _ _ => rfl, fun l edge ends => mem_linksOf h.wired found edge ends,
      fun l edge ends => mem_linksOf h.wired found edge ends⟩
  case homes =>
    intro x other
    rw [partOf?_rehome, if_neg other]
  case isPart =>
    intro n here
    rw [partOf?_rehome, if_pos rfl] at here
    rw [length_rehome]
    exact isPart n here
  case top =>
    rw [rehome_eq]
    exact ⟨h.top.members, h.top.accounts.disturbed, rfl, rfl⟩
  case parts =>
    intro n q here
    rw [getElem?_rehome elsewhere] at here
    obtain ⟨p, before, rfl⟩ := Option.map_eq_some_iff.mp here
    have part := h.parts n p before
    refine ⟨p, before, ?_⟩
    rw [gate?_rehome]
    split
    · next inside =>
      refine part.erased held inside (fun _ _ => rfl) fun x => ?_
      rw [inPart_iff, partOf?_rehome]
      by_cases here : x = g.id
      · simp [here, ← inPart_iff.mp inside, Ne.symm elsewhere]
      · simp [here, inPart_iff]
    · next outside =>
      split
      · next into =>
        refine part.inserted held (fun mem => outside ((part.members _).mpr mem)) (fun _ _ => rfl) fun x => ?_
        rw [inPart_iff, partOf?_rehome]
        by_cases here : x = g.id
        · simp [here, into]
        · simp [here, inPart_iff]
      · next away =>
        have members : (net.rehome g.id g dest).inPart n = net.inPart n := by
          funext x
          rw [Bool.eq_iff_iff, inPart_iff, partOf?_rehome]
          by_cases here : x = g.id
          · simp [here, away, outside]
          · simp [here, inPart_iff]
        rw [members]
        exact part.stale fun _ _ => rfl
  case shared =>
    rw [gate?_rehome, shared_rehome]
    exact h.shared

/-! ## Gathering gates -/

/-- Members that join one after the other come last. -/
theorem gates_foldl_insert (gs : List Gate) (p : Part) :
    (gs.foldl Part.insert p).gates = p.gates ++ gs.map Gate.id := by
  induction gs generalizing p with
  | nil => simp
  | cons g gs ih =>
    rw [List.foldl_cons, ih, List.map_cons, List.append_cons]
    rfl

/-- Members that join one after the other are accounted for. -/
theorem accounts_foldl_insert {gate? : GateId → Option Gate} {gs : List Gate} (held : ∀ g ∈ gs, Holds gate? g)
    {p : Part} (h : Accounts gate? p) (nodup : (p.gates ++ gs.map Gate.id).Nodup) :
    Accounts gate? (gs.foldl Part.insert p) := by
  induction gs generalizing p with
  | nil => exact h
  | cons g gs ih =>
    have listed : (p.insert g).gates = p.gates ++ [g.id] := rfl
    have new : g.id ∉ p.gates := by
      intro mem
      rw [List.nodup_append] at nodup
      exact nodup.2.2 g.id mem g.id (by simp) rfl
    have inserted := h.insert (held g List.mem_cons_self) new
    exact ih (fun x mem => held x (List.mem_cons_of_mem _ mem)) inserted (by simpa [listed] using nodup)

theorem filterMap_gate?_ids {net : Netlist} (h : Wired net.gate? net.nextId) {ids : List GateId}
    (known : ∀ id ∈ ids, ∃ g, net.gate? id = some g) : (ids.filterMap net.gate?).map Gate.id = ids := by
  induction ids with
  | nil => rfl
  | cons id ids ih =>
    obtain ⟨g, found⟩ := known id List.mem_cons_self
    rw [List.filterMap_cons, found, List.map_cons, h.keyed found,
      ih fun x mem => known x (List.mem_cons_of_mem _ mem)]

theorem getElem?_foldl_insert {home : TreeMap GateId Nat} {ids : List GateId} {n : Nat} {x : GateId} :
    (ids.foldl (fun home id => home.insert id n) home)[x]? = if x ∈ ids then some n else home[x]? := by
  induction ids generalizing home with
  | nil => simp
  | cons id ids ih =>
    simp only [List.foldl_cons, ih, TreeMap.getElem?_insert, LawfulEqCmp.compare_eq_iff_eq]
    by_cases later : x ∈ ids
    · simp [later]
    · by_cases here : id = x
      · simp [here]
      · simp [later, here, Ne.symm here]

/-- Each gate that had no home is one more. -/
theorem size_foldl_insert {home : TreeMap GateId Nat} {ids : List GateId} {n : Nat} (nodup : ids.Nodup) :
    (ids.foldl (fun home id => home.insert id n) home).size = home.size + ids.countP (!home.contains ·) := by
  induction ids generalizing home with
  | nil => rfl
  | cons id ids ih =>
    obtain ⟨new, nodup⟩ := List.nodup_cons.mp nodup
    have others : ids.countP (!(home.insert id n).contains ·) = ids.countP (!home.contains ·) := by
      refine List.countP_congr fun x mem => ?_
      have other : id ≠ x := fun same => new (same ▸ mem)
      simp [TreeMap.contains_insert, other]
    rw [List.foldl_cons, ih nodup, others, List.countP_cons, TreeMap.size_insert]
    cases known : home.contains id
    · simp
      omega
    · simp

section Gathering

variable {net : Netlist} {ids : List GateId} {n : Nat}

theorem partOf?_gather (x : GateId) : (net.gather ids n).partOf? x = if x ∈ ids then some n else net.partOf? x :=
  getElem?_foldl_insert

/-- The gathered gates come last in their part, and no other part changes its list. -/
theorem getElem?_gather_gates (wired : Wired net.gate? net.nextId) (known : ∀ id ∈ ids, ∃ g, net.gate? id = some g)
    (m : Nat) : (net.gather ids n).parts[m]?.map Part.gates =
      net.parts[m]?.map fun p => if n = m then p.gates ++ ids else p.gates := by
  simp only [gather, rebuildPart, List.getElem?_modify, Option.map_eq_map, Option.map_map]
  congr 1
  funext p
  by_cases here : n = m
  · simp [here, Part.rebuild_gates, gates_foldl_insert, filterMap_gate?_ids wired known]
  · simp [here]

/-- Gates that no part lists are put into one part, and every part covers the gates at home there. -/
theorem covers_gather (wired : Wired net.gate? net.nextId)
    (parts : ∀ (m : Nat) (p : Part), net.parts[m]? = some p →
      Covers net.gate? (fun x => net.inPart m x && !ids.contains x) p)
    (nodup : ids.Nodup) (known : ∀ id ∈ ids, ∃ g, net.gate? id = some g) {m : Nat} {q : Part}
    (found : (net.gather ids n).parts[m]? = some q) : Covers net.gate? ((net.gather ids n).inPart m) q := by
  simp only [gather, rebuildPart, List.getElem?_modify, Option.map_eq_map, Option.map_map,
    Option.map_eq_some_iff] at found
  obtain ⟨p, before, rfl⟩ := found
  have part := parts m p before
  by_cases here : n = m
  · subst here
    simp only [Function.comp_apply, if_true]
    have listed : (ids.filterMap net.gate?).map Gate.id = ids := filterMap_gate?_ids wired known
    have apart : (p.gates ++ ids).Nodup := by
      refine part.accounts.nodup.append nodup fun x old new => ?_
      have := (part.members x).mpr old
      simp [new] at this
    have held : ∀ g ∈ ids.filterMap net.gate?, Holds net.gate? g := by
      intro g mem
      obtain ⟨id, _, found⟩ := List.mem_filterMap.mp mem
      simp [Holds, wired.keyed found, found]
    have gates := gates_foldl_insert (ids.filterMap net.gate?) p
    have accounts := accounts_foldl_insert held part.accounts (by rwa [listed])
    rw [listed] at gates
    have members : ∀ x, (net.gather ids n).inPart n x = true ↔
        x ∈ ((ids.filterMap net.gate?).foldl Part.insert p).gates := by
      intro x
      rw [gates, inPart_iff, partOf?_gather, List.mem_append, ← part.members x]
      by_cases new : x ∈ ids <;> simp [new, inPart_iff]
    refine ⟨fun x => ?_, Part.rebuild_accounts wired accounts.nodup accounts.indexed accounts.known accounts.ordered,
      Part.rebuild_bounds wired accounts.known members⟩
    rw [Part.rebuild_gates]
    exact members x
  · simp only [Function.comp_apply, here, if_false]
    have members : (net.gather ids n).inPart m = fun x => net.inPart m x && !ids.contains x := by
      funext x
      rw [Bool.eq_iff_iff, inPart_iff, partOf?_gather]
      by_cases new : x ∈ ids <;> simp [new, here, inPart_iff]
    rw [members]
    exact part

/-- GATHERING keeps a netlist consistent, once the tallies are right. -/
theorem gather_consistent {emptyParts : TreeSet Nat} {housed : Nat} (wired : Wired net.gate? net.nextId)
    (top : Covers net.gate? net.contains net.top)
    (parts : ∀ (m : Nat) (p : Part), net.parts[m]? = some p →
      Covers net.gate? (fun x => net.inPart m x && !ids.contains x) p)
    (homes : ∀ (id : GateId) (m : Nat), net.partOf? id = some m → m < net.parts.length)
    (isPart : n < net.parts.length) (nodup : ids.Nodup) (known : ∀ id ∈ ids, ∃ g, net.gate? id = some g)
    (tallied : ({ net.gather ids n with emptyParts, housed } : Netlist).Tallied)
    (shared : Shares net.gate? net.shared) :
    ({ net.gather ids n with emptyParts, housed } : Netlist).Consistent := by
  constructor
  case wired => exact wired
  case shared => exact shared
  case tallied => exact tallied
  case top => exact ⟨top.members, top.accounts.disturbed, top.bounds.sources, top.bounds.targets⟩
  case parts => exact fun m q found => covers_gather wired parts nodup known found
  case homes =>
    intro x m home
    have home : (net.gather ids n).partOf? x = some m := home
    have length : (net.gather ids n).parts.length = net.parts.length := by simp [gather, rebuildPart]
    rw [partOf?_gather] at home
    simp only [length]
    split at home
    · cases home
      exact isPart
    · exact homes x m home

end Gathering

/-- Gates that are at home elsewhere do not change who is at home in a part. -/
theorem inPart_apart {net : Netlist} {ids : List GateId} {m : Nat}
    (away : ∀ x ∈ ids, net.partOf? x ≠ some m) :
    (fun x => net.inPart m x && !ids.contains x) = net.inPart m := by
  funext x
  rw [Bool.eq_iff_iff, Bool.and_eq_true, and_iff_left_iff_imp]
  intro member
  have new : x ∉ ids := fun mem => away x mem (inPart_iff.mp member)
  simp [new]

/-- The right part of a merge is empty afterwards, and the left one if both were. -/
theorem mem_emptyParts_merged {net : Netlist} (h : net.Tallied) {left right : Nat} (different : left ≠ right)
    (inside : right < net.parts.length) {parts : List Part} {ids : List GateId}
    (lists : ∀ m : Nat, parts[m]?.map Part.gates =
      (net.parts.set right {})[m]?.map fun p => if left = m then p.gates ++ ids else p.gates) (m : Nat) :
    m ∈ (if parts[left]?.any Part.isEmpty then net.emptyParts else net.emptyParts.erase left).insert right ↔
      parts[m]?.map Part.gates = some [] := by
  rw [TreeSet.mem_insert, LawfulEqCmp.compare_eq_iff_eq]
  by_cases gone : right = m
  · subst gone
    rw [lists]
    simp [different, inside]
  rw [or_iff_right gone]
  by_cases here : left = m
  · subst here
    split
    · next emptied =>
      rw [any_isEmpty_iff] at emptied
      refine iff_of_true ((h.emptied left).mpr ?_) emptied
      rw [lists, List.getElem?_set_ne gone] at emptied
      obtain ⟨p, found, empty⟩ := Option.map_eq_some_iff.mp emptied
      rw [if_pos rfl, List.append_eq_nil_iff] at empty
      rw [found, Option.map_some, empty.1]
    · next still => exact iff_of_false (by simp) fun emptied => still (any_isEmpty_iff.mpr emptied)
  · rw [lists, List.getElem?_set_ne gone]
    simp only [here, if_false, ← h.emptied m]
    split
    · exact Iff.rfl
    · simp [here]

/-- Merging two parts keeps a netlist consistent. -/
theorem Consistent.mergeParts {net net' : Netlist} (h : net.Consistent) {left right : Nat}
    (merged : net.mergeParts left right = .ok net') : net'.Consistent := by
  obtain ⟨_, different, merged⟩ := Result.bind_eq_ok.mp merged
  obtain ⟨_, inside, merged⟩ := Result.bind_eq_ok.mp merged
  obtain ⟨moved, found, merged⟩ := Result.bind_eq_ok.mp merged
  cases merged
  simp only [Result.require_eq_ok, decide_eq_true_eq, Bool.and_eq_true] at different inside
  have found : net.parts[right]? = some moved := Result.getOrBreach_eq_ok.mp found
  have part := h.parts right moved found
  refine gather_consistent h.wired h.top ?parts ?homes (by simpa using inside.1) part.accounts.nodup
    part.accounts.known ?tallied h.shared
  case parts =>
    intro m p here
    rw [List.getElem?_set] at here
    split at here
    · next same =>
      -- The emptied part lists nothing, and all that was at home there is about to move.
      subst same
      simp only [inside.2, if_true, Option.some.injEq] at here
      subst here
      refine .nothing fun x => ?_
      have := part.members x
      cases member : net.inPart right x <;> simp_all [inPart, Netlist.partOf?]
    · next other =>
      have away : ∀ x ∈ moved.gates, net.partOf? x ≠ some m := by
        intro x mem
        rw [inPart_iff.mp ((part.members x).mpr mem)]
        simpa using other
      have := h.parts m p here
      rw [← inPart_apart away] at this
      exact this
  case homes =>
    intro x m home
    simpa using h.homes x m home
  case tallied =>
    constructor
    · have housed : moved.gates.countP (!net.home.contains ·) = 0 := by
        refine List.countP_eq_zero.mpr fun x mem => ?_
        have home := inPart_iff.mp ((part.members x).mpr mem)
        rw [TreeMap.contains_eq_isSome_getElem?, ← Netlist.partOf?, home]
        simp
      have size := @size_foldl_insert net.home moved.gates left part.accounts.nodup
      rw [housed, ← h.tallied.housed] at size
      exact size.symm
    · exact mem_emptyParts_merged h.tallied different inside.2 fun m =>
        @getElem?_gather_gates { net with parts := net.parts.set right {} } moved.gates left h.wired
          part.accounts.known m

/-- A part that some gates join is not empty. -/
theorem mem_emptyParts_grouped {net : Netlist} (h : net.Tallied) {n : Nat} {parts : List Part} {ids : List GateId}
    (joins : ids ≠ [])
    (lists : ∀ m : Nat, parts[m]?.map Part.gates =
      net.parts[m]?.map fun p => if n = m then p.gates ++ ids else p.gates) (m : Nat) :
    m ∈ net.emptyParts.erase n ↔ parts[m]?.map Part.gates = some [] := by
  rw [TreeSet.mem_erase, lists, ne_eq, LawfulEqCmp.compare_eq_iff_eq]
  by_cases here : n = m
  · subst here
    refine iff_of_false (by simp) fun empty => ?_
    obtain ⟨p, _, empty⟩ := Option.map_eq_some_iff.mp empty
    rw [if_pos rfl, List.append_eq_nil_iff] at empty
    exact joins empty.2
  · simp only [here, if_false, not_false_eq_true, true_and, h.emptied m]

/-- Grouping the orphans keeps a netlist consistent. -/
theorem Consistent.groupOrphans {net net' : Netlist} (h : net.Consistent) {n : Nat}
    (grouped : net.groupOrphans = .ok (n, net')) : net'.Consistent := by
  obtain ⟨_, orphans, grouped⟩ := Result.bind_eq_ok.mp grouped
  cases grouped
  refine gather_consistent h.addPart.wired h.addPart.top ?parts h.addPart.homes (by simp)
    (h.top.accounts.nodup.filter _) ?known ?tallied h.shared
  case parts =>
    intro m p here
    have homeless : ∀ x ∈ net.gates.filter fun id => (net.partOf? id).isNone,
        net.addPart.2.partOf? x ≠ some m := by
      intro x mem home
      have none := (List.mem_filter.mp mem).2
      have home : net.partOf? x = some m := home
      simp [home] at none
    have := h.addPart.parts m p here
    rw [← inPart_apart homeless] at this
    exact this
  case known => exact fun x mem => h.top.accounts.known x (List.mem_of_mem_filter mem)
  case tallied =>
    have homeless : ∀ x ∈ net.gates.filter fun id => (net.partOf? id).isNone, net.home.contains x = false := by
      intro x mem
      rw [TreeMap.contains_eq_isSome_getElem?, ← Option.not_isNone, Bool.not_eq_false']
      exact (List.mem_filter.mp mem).2
    obtain ⟨orphan, listed⟩ : ∃ x, x ∈ net.gates.filter fun id => (net.partOf? id).isNone := by
      rw [Result.require_eq_ok, Bool.and_eq_true, h.hasOrphans_iff] at orphans
      obtain ⟨x, inside, none⟩ := orphans.2
      exact ⟨x, List.mem_filter.mpr ⟨(h.top.members x).mp inside, by rw [none, Option.isNone_none]⟩⟩
    constructor
    · have size := @size_foldl_insert net.home _ net.parts.length (h.top.accounts.nodup.filter
        fun id => (net.partOf? id).isNone)
      rw [List.countP_eq_length.mpr fun x mem => by rw [homeless x mem, Bool.not_false], ← h.tallied.housed] at size
      exact size.symm
    · exact mem_emptyParts_grouped h.tallied.addPart (List.ne_nil_of_mem listed) fun m =>
        getElem?_gather_gates h.addPart.wired (fun x mem => h.top.accounts.known x (List.mem_of_mem_filter mem)) m

/-! ## Dropping parts -/

theorem Consistent.flatten {net : Netlist} (h : net.Consistent) : net.flatten.Consistent :=
  ⟨h.wired, h.top, by simp [Netlist.flatten], by simp [Netlist.flatten, Netlist.partOf?],
    ⟨rfl, by simp [Netlist.flatten]⟩, h.shared⟩

theorem Consistent.clear (net : Netlist) : net.clear.Consistent := consistent_unused net.nextId

section Renumbering

variable {α : Type} {f : α → Bool}

/-- Where an element that is kept stands after the others were dropped. -/
theorem getElem?_filter_countP {xs : List α} {n : Nat} {x : α} (found : xs[n]? = some x)
    (kept : f x = true) : (xs.filter f)[(xs.take n).countP f]? = some x := by
  induction xs generalizing n with
  | nil => simp at found
  | cons y ys ih =>
    cases n with
    | zero =>
      simp only [List.getElem?_cons_zero, Option.some.injEq] at found
      subst found
      simp [kept]
    | succ n =>
      have := ih (n := n) (by simpa using found)
      by_cases keeps : f y = true <;> simp [keeps, this]

theorem exists_of_getElem?_filter {xs : List α} {m : Nat} {x : α} (found : (xs.filter f)[m]? = some x) :
    ∃ n : Nat, xs[n]? = some x ∧ (xs.take n).countP f = m := by
  induction xs generalizing m with
  | nil => simp at found
  | cons y ys ih =>
    by_cases keeps : f y = true
    · cases m with
      | zero => exact ⟨0, by simpa [keeps] using found, by simp⟩
      | succ m =>
        obtain ⟨n, here, count⟩ := ih (m := m) (by simpa [keeps] using found)
        exact ⟨n + 1, by simpa using here, by simp [keeps, count]⟩
    · obtain ⟨n, here, count⟩ := ih (m := m) (by simpa [keeps] using found)
      exact ⟨n + 1, by simpa using here, by simp [keeps, count]⟩

/-- Elements that are kept stay in different places. -/
theorem countP_take_lt {xs : List α} {n k : Nat} {x : α} (found : xs[n]? = some x) (kept : f x = true)
    (lt : n < k) : (xs.take n).countP f < (xs.take k).countP f := by
  have next : (xs.take (n + 1)).countP f = (xs.take n).countP f + 1 := by
    rw [List.take_add_one, found]
    simp [kept]
  have le : (xs.take (n + 1)).countP f ≤ (xs.take k).countP f :=
    (List.take_sublist_take_left (Nat.succ_le_of_lt lt)).countP_le
  omega

end Renumbering

/-- The new number of a part is how many parts with gates stand before it. -/
theorem partOf?_removeEmptyParts (net : Netlist) (x : GateId) : net.removeEmptyParts.partOf? x =
    (net.partOf? x).map fun n => (net.parts.take n).countP (!·.isEmpty) := by
  simp [Netlist.removeEmptyParts, Netlist.partOf?, TreeMap.getElem?_map]

/-- Dropping the parts without gates keeps a netlist consistent. -/
theorem Consistent.removeEmptyParts {net : Netlist} (h : net.Consistent) :
    net.removeEmptyParts.Consistent := by
  have occupied : ∀ {x n}, net.partOf? x = some n →
      ∃ p, net.parts[n]? = some p ∧ (!p.isEmpty) = true := by
    intro x n home
    have found := List.getElem?_eq_getElem (h.homes x n home)
    have mem := ((h.parts n _ found).members x).mp (inPart_iff.mpr home)
    exact ⟨_, found, by simpa [Part.isEmpty] using List.ne_nil_of_mem mem⟩
  constructor
  case wired => exact h.wired
  case top => exact h.top
  case shared => exact h.shared
  case parts =>
    intro m p found
    obtain ⟨n, before, count⟩ := exists_of_getElem?_filter found
    have kept : (!p.isEmpty) = true := (List.mem_filter.mp (List.mem_of_getElem? found)).2
    have members : net.removeEmptyParts.inPart m = net.inPart n := by
      funext x
      rw [Bool.eq_iff_iff, inPart_iff, inPart_iff, partOf?_removeEmptyParts, Option.map_eq_some_iff]
      constructor
      · rintro ⟨k, home, same⟩
        obtain ⟨q, here, keeps⟩ := occupied home
        rcases Nat.lt_trichotomy k n with lt | rfl | lt
        · have := @countP_take_lt _ (!·.isEmpty) _ _ _ _ here keeps lt
          omega
        · exact home
        · have := @countP_take_lt _ (!·.isEmpty) _ _ _ _ before kept lt
          omega
      · exact fun home => ⟨n, home, count⟩
    rw [members]
    exact h.parts n p before
  case homes =>
    intro x m home
    rw [partOf?_removeEmptyParts, Option.map_eq_some_iff] at home
    obtain ⟨n, before, rfl⟩ := home
    obtain ⟨p, found, kept⟩ := occupied before
    exact (List.getElem?_eq_some_iff.mp (getElem?_filter_countP found kept)).1
  case tallied =>
    constructor
    · simp [Netlist.removeEmptyParts, h.tallied.housed, TreeMap.size_map]
    · intro n
      refine iff_of_false (by simp [Netlist.removeEmptyParts]) fun empty => ?_
      obtain ⟨p, found, empty⟩ := Option.map_eq_some_iff.mp empty
      have kept : (!p.isEmpty) = true := (List.mem_filter.mp (List.mem_of_getElem? found)).2
      rw [Part.isEmpty, empty] at kept
      cases kept

end Netlist

end LogicNet
