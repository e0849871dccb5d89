import Mathlib.Algebra.BigOperators.Group.List.Basic
import LogicNet.Netlist.Sort
import LogicNet.Proofs.Netlist.Dividing
import LogicNet.Proofs.TopologicalOrder

/-!
# Sorting keeps a netlist consistent

A sorted netlist claims that no gate stands before one that feeds it. Sorting gets its orders from
the fan-out lists, by counting: since those lists are exact, a gate is counted off exactly as often
as it has inputs from the gates to be ordered (`combOrder_counted`), and then the order found is a
topological one (`combOrder_perm`, `combOrder_pairwise`).

Where the parts can be ordered too, the orders of the parts are put one after the other. A gate then
comes after those that feed it for one of two reasons: they are in its part, or their part comes
before (`pairwise_partwise`).
-/

namespace LogicNet

open Std

/-! ## Orders -/

/-- Nodes that come after all that they follow stand before none of it. -/
theorem pairwise_of_after {α : Type} {r : α → α → Prop} {order : List α} (nodup : order.Nodup)
    (after : ∀ pre a post, order = pre ++ a :: post → ∀ b ∈ order, r b a → b ∈ pre) :
    order.Pairwise fun a b => ¬r b a := by
  rw [List.pairwise_iff_getElem]
  intro i j hi hj lt follows
  have split : order = order.take i ++ order[i] :: order.drop (i + 1) := by
    rw [List.getElem_cons_drop, List.take_append_drop]
  obtain ⟨k, hk, same⟩ := List.mem_take_iff_getElem.mp (after _ _ _ split _ (List.getElem_mem hj) follows)
  have := (nodup.getElem_inj_iff).mp same
  omega

/-- Where nothing stands before what it follows, a node stands after all that it follows, itself apart. -/
theorem mem_of_pairwise {α : Type} {r : α → α → Prop} {before after : List α} {t d : α}
    (ordered : (before ++ t :: after).Pairwise fun a b => ¬r b a) (mem : d ∈ before ++ t :: after) (follows : r d t)
    (other : d ≠ t) : d ∈ before := by
  rcases List.mem_append.mp mem with earlier | later
  · exact earlier
  · rcases List.mem_cons.mp later with same | later
    · exact absurd same other
    · have apart := (List.pairwise_cons.mp (List.pairwise_append.mp ordered).2.1).1
      exact absurd follows (apart d later)

/-- A set lists each of its elements once. -/
theorem nodup_toList {α : Type} [Ord α] [TransOrd α] [LawfulEqOrd α] (s : TreeSet α) : s.toList.Nodup := by
  refine s.distinct_toList.imp ?_
  rintro a _ different rfl
  exact different ReflCmp.compare_self

theorem nodup_eraseDups {α : Type} [BEq α] [LawfulBEq α] (xs : List α) : xs.eraseDups.Nodup := by
  induction n : xs.length using Nat.strongRecOn generalizing xs with
  | ind n ih =>
    cases xs with
    | nil => simp
    | cons x xs =>
      rw [List.eraseDups_cons, List.nodup_cons]
      refine ⟨?_, ih _ ?_ _ rfl⟩
      · simp
      · have := List.length_filter_le (fun b => !b == x) xs
        rw [List.length_cons] at n
        omega

/-- A part that takes over a topological order of its gates. -/
theorem Covers.arranged {gate? : GateId → Option Gate} {member : GateId → Bool} {p : Part}
    (h : Covers gate? member p) {order : List GateId} (perm : order.Perm p.gates)
    (ordered : order.Pairwise fun a b => ¬Feeds gate? b a) : Covers gate? member (p.arrange order) where
  members id := (h.members id).trans perm.mem_iff.symm
  accounts :=
    { nodup := perm.nodup_iff.mpr h.accounts.nodup
      indexed := Part.indexed_arrange (perm.nodup_iff.mpr h.accounts.nodup)
      known := fun id mem => h.accounts.known id (perm.mem_iff.mp mem)
      constants := fun id => (h.accounts.constants id).trans (and_congr_left' perm.mem_iff.symm)
      triggers := fun id => (h.accounts.triggers id).trans (and_congr_left' perm.mem_iff.symm)
      connects := h.accounts.connects.trans (perm.map _).sum_nat.symm
      ordered := fun _ => ordered }
  bounds := ⟨h.bounds.sources, h.bounds.targets⟩

namespace Netlist

/-! ## Counting followers -/

/-- The followers of a gate are the gates that it feeds. -/
theorem mem_followers {net : Netlist} (wired : Wired net.gate? net.nextId) {d t : GateId} {g : Gate}
    (found : net.gate? d = some g) : t ∈ net.followers d ↔ Feeds net.gate? d t := by
  simp only [followers, found, List.mem_filter, List.mem_map, wired.fanout found, Feeds]
  constructor
  · rintro ⟨⟨l, ⟨source, reader, here, mem⟩, rfl⟩, plain⟩
    obtain ⟨i, x, hx, eq⟩ := Shape.mem_inputLinks.mp mem
    refine ⟨reader, here, by simpa [here] using plain, x, List.mem_of_getElem? hx, ?_⟩
    rw [← source, eq]
    rfl
  · rintro ⟨reader, here, plain, x, mem, rfl⟩
    obtain ⟨i, hx⟩ := List.mem_iff_getElem?.mp mem
    refine ⟨⟨.edge x.driver t i, ⟨rfl, reader, here, ?_⟩, rfl⟩, by simp [here, plain]⟩
    exact Shape.mem_inputLinks.mpr ⟨i, x, hx, rfl⟩

/-- A gate follows another as often as it reads it. -/
theorem count_followers {net : Netlist} (wired : Wired net.gate? net.nextId) {d t : GateId}
    {driver reader : Gate} (here : net.gate? d = some driver) (there : net.gate? t = some reader)
    (plain : reader.isTrigger = false) :
    (net.followers d).count t = (reader.toShape.inputLinks t).countP (·.source = d) := by
  have perm : (driver.fanout.filter (·.target = t)).Perm
      ((reader.toShape.inputLinks t).filter (·.source = d)) := by
    refine (List.perm_ext_iff_of_nodup ((wired.nodup here).filter _)
      ((Shape.inputLinks_nodup _ _).filter _)).mpr fun l => ?_
    simp only [List.mem_filter, wired.fanout here, decide_eq_true_eq]
    constructor
    · rintro ⟨⟨source, edge⟩, target⟩
      exact ⟨(isEdge_iff_mem there target).mp edge, source⟩
    · rintro ⟨mem, source⟩
      have target := Shape.target_of_mem_inputLinks mem
      exact ⟨⟨source, (isEdge_iff_mem there target).mpr mem⟩, target⟩
  simp only [followers, here]
  rw [List.count_filter (by simp [there, plain]), List.count_eq_countP, List.countP_map, List.countP_eq_length_filter,
    List.countP_eq_length_filter, ← perm.length_eq]
  rfl

/-- Every link comes from one of these drivers or from none of them. -/
theorem sum_countP_source {ids : List GateId} (nodup : ids.Nodup) (links : List Link) :
    (ids.map fun d => links.countP (·.source = d)).sum = links.countP (·.source ∈ ids) := by
  induction ids with
  | nil => simp
  | cons d ids ih =>
    rw [List.map_cons, List.sum_cons, ih nodup.of_cons]
    have new : d ∉ ids := (List.nodup_cons.mp nodup).1
    clear ih
    induction links with
    | nil => rfl
    | cons l links rest =>
      rw [List.countP_cons, List.countP_cons, List.countP_cons, ← rest]
      by_cases here : l.source = d
      · simp only [here, new, List.mem_cons]
        simp
        omega
      · simp only [here, List.mem_cons, false_or]
        simp
        omega

/-- Some gates to be ordered: each waits for as many inputs as it follows gates among them. -/
theorem combOrder_counted {net : Netlist} (wired : Wired net.gate? net.nextId) {ids : List GateId}
    (nodup : ids.Nodup) (known : ∀ id ∈ ids, ∃ g, net.gate? id = some g) {member : GateId → Bool}
    (members : ∀ id, member id = true ↔ id ∈ ids) :
    Counted ids (net.dependencies member) net.followers := by
  refine ⟨nodup, fun t mem => ?_⟩
  obtain ⟨g, found⟩ := known t mem
  rw [List.count_flatMap]
  simp only [dependencies, found]
  cases plain : g.isTrigger with
  | true =>
    refine (List.sum_eq_zero ?_).symm
    intro n mem
    obtain ⟨d, inside, rfl⟩ := List.mem_map.mp mem
    obtain ⟨driver, here⟩ := known d inside
    refine List.count_eq_zero.mpr fun follows => ?_
    obtain ⟨_, there, notTrigger, _⟩ := (mem_followers wired here).mp follows
    rw [found] at there
    cases there
    rw [plain] at notTrigger
    cases notTrigger
  | false =>
    have counts : ids.map (List.count t ∘ net.followers) =
        ids.map fun d => (g.toShape.inputLinks t).countP (·.source = d) := by
      refine List.map_congr_left fun d inside => ?_
      obtain ⟨driver, here⟩ := known d inside
      exact count_followers wired here found plain
    have sources : (g.toShape.inputLinks t).countP (·.source ∈ ids) =
        g.inputs.countP fun s => member s.driver := by
      have := congrArg (List.countP (· ∈ ids)) (g.toShape.map_source_inputLinks t)
      rw [List.countP_map, List.countP_map] at this
      refine this.trans (List.countP_congr fun s _ => ?_)
      simp [members]
    rw [counts, sum_countP_source nodup, sources]
    rfl

section

variable {net : Netlist} {ids order : List GateId} {member : GateId → Bool}

/-- The order is one of the gates that were to be ordered. -/
theorem combOrder_perm (wired : Wired net.gate? net.nextId) (nodup : ids.Nodup)
    (known : ∀ id ∈ ids, ∃ g, net.gate? id = some g) (members : ∀ id, member id = true ↔ id ∈ ids)
    (found : net.combOrder ids member = some order) : order.Perm ids :=
  topologicalOrder_perm (combOrder_counted wired nodup known members) found

/-- No gate stands before one that feeds it. -/
theorem combOrder_pairwise (wired : Wired net.gate? net.nextId) (nodup : ids.Nodup)
    (known : ∀ id ∈ ids, ∃ g, net.gate? id = some g) (members : ∀ id, member id = true ↔ id ∈ ids)
    (found : net.combOrder ids member = some order) : order.Pairwise fun a b => ¬Feeds net.gate? b a := by
  have perm := combOrder_perm wired nodup known members found
  refine pairwise_of_after (perm.nodup_iff.mpr nodup) fun pre a post split b mem feeds => ?_
  have inside := perm.mem_iff.mp mem
  obtain ⟨g, here⟩ := known b inside
  exact topologicalOrder_after (combOrder_counted wired nodup known members) found split inside
    ((mem_followers wired here).mpr feeds)

/-- Gates that do not feed each other in a circle can be ordered. -/
theorem exists_combOrder (wired : Wired net.gate? net.nextId) (nodup : ids.Nodup)
    (known : ∀ id ∈ ids, ∃ g, net.gate? id = some g) (members : ∀ id, member id = true ↔ id ∈ ids)
    (acyclic : ∀ t, ¬Relation.TransGen (fun a b => a ∈ ids ∧ b ∈ ids ∧ Feeds net.gate? a b) t t) :
    ∃ order, net.combOrder ids member = some order := by
  refine topologicalOrder_isSome (combOrder_counted wired nodup known members) fun t loop => ?_
  refine acyclic t (Relation.TransGen.mono ?_ t t loop)
  rintro a b ⟨ha, hb, follows⟩
  obtain ⟨g, here⟩ := known a ha
  exact ⟨ha, hb, (mem_followers wired here).mp follows⟩

/-- A gate that can be ordered does not feed itself. -/
theorem combOrder_irrefl (wired : Wired net.gate? net.nextId) (nodup : ids.Nodup)
    (known : ∀ id ∈ ids, ∃ g, net.gate? id = some g) (members : ∀ id, member id = true ↔ id ∈ ids)
    (found : net.combOrder ids member = some order) {id : GateId} (mem : id ∈ ids) : ¬Feeds net.gate? id id := by
  intro feeds
  have perm := combOrder_perm wired nodup known members found
  obtain ⟨pre, post, split⟩ := List.append_of_mem (perm.mem_iff.mpr mem)
  obtain ⟨g, here⟩ := known id mem
  have before := topologicalOrder_after (combOrder_counted wired nodup known members) found split mem
    ((mem_followers wired here).mpr feeds)
  have distinct := perm.nodup_iff.mpr nodup
  rw [split] at distinct
  exact List.disjoint_of_nodup_append distinct before List.mem_cons_self

end

/-! ## Orders of the parts -/

theorem getElem?_partFollowers (net : Netlist) (n : Nat) :
    net.partFollowers[n]? = net.parts[n]?.map fun p =>
      (TreeSet.ofList (((p.gates.flatMap net.followers).filterMap net.partOf?).filter (· ≠ n))).toList := by
  simp [partFollowers, List.getElem?_zipIdx]
  rfl

/-- A gate of part `j` is fed by a gate of another part `i`. -/
def PartFeeds (net : Netlist) (i j : Nat) : Prop :=
  i ≠ j ∧ ∃ d t, net.partOf? d = some i ∧ net.partOf? t = some j ∧ Feeds net.gate? d t

/-- The followers of a part are the parts that it feeds. -/
theorem mem_partFollowers {net : Netlist} (h : net.Consistent) {i j : Nat} :
    j ∈ net.partFollowers.getD i [] ↔ net.PartFeeds i j := by
  rw [List.getD_eq_getElem?_getD, getElem?_partFollowers]
  cases here : net.parts[i]? with
  | none =>
    simp only [Option.map_none, Option.getD_none, List.not_mem_nil, false_iff]
    rintro ⟨_, d, _, home, _, _⟩
    have := h.homes d i home
    rw [List.getElem?_eq_none_iff] at here
    omega
  | some p =>
    have members := (h.parts i p here).members
    simp only [Option.map_some, Option.getD_some, TreeSet.mem_toList, TreeSet.mem_ofList,
      List.contains_eq_mem, List.mem_filter, List.mem_filterMap, List.mem_flatMap, decide_eq_true_eq]
    constructor
    · rintro ⟨⟨t, ⟨d, mem, follows⟩, there⟩, other⟩
      have home := inPart_iff.mp ((members d).mpr mem)
      obtain ⟨g, known⟩ := h.known_of_home home
      exact ⟨Ne.symm other, d, t, home, there, (mem_followers h.wired known).mp follows⟩
    · rintro ⟨other, d, t, home, there, feeds⟩
      obtain ⟨g, known⟩ := h.known_of_home home
      exact ⟨⟨t, ⟨d, (members d).mp (inPart_iff.mpr home), (mem_followers h.wired known).mpr feeds⟩, there⟩, other.symm⟩

/-- A part depends on as many other parts as there are lists that name it. -/
theorem partOrder_counted (net : Netlist) :
    Counted (List.range net.parts.length) (fun t => net.partFollowers.countP (·.contains t))
      fun n => net.partFollowers.getD n [] := by
  have length : net.partFollowers.length = net.parts.length := by simp [partFollowers]
  have nodup : ∀ ts ∈ net.partFollowers, ts.Nodup := by
    intro ts mem
    obtain ⟨n, found⟩ := List.mem_iff_getElem?.mp mem
    rw [getElem?_partFollowers, Option.map_eq_some_iff] at found
    obtain ⟨p, _, rfl⟩ := found
    exact nodup_toList _
  refine ⟨List.nodup_range, fun t _ => ?_⟩
  have whole : (List.range net.parts.length).flatMap (fun n => net.partFollowers.getD n []) =
      net.partFollowers.flatten := by
    rw [List.flatMap_def, ← length]
    congr 1
    refine List.ext_getElem (by simp) fun i _ hi => ?_
    simp [hi]
  rw [whole]
  generalize net.partFollowers = graph at nodup
  induction graph with
  | nil => rfl
  | cons ts graph ih =>
    rw [List.forall_mem_cons] at nodup
    rw [List.countP_cons, ih nodup.2, List.flatten_cons, List.count_append, nodup.1.count, Nat.add_comm]
    simp

theorem partOrder_perm {net : Netlist} {ns : List Nat} (found : net.partOrder = some ns) :
    ns.Perm (List.range net.parts.length) := topologicalOrder_perm net.partOrder_counted found

/-- Parts that do not feed each other in a circle can be ordered. -/
theorem exists_partOrder {net : Netlist} (h : net.Consistent)
    (acyclic : ∀ n, ¬Relation.TransGen net.PartFeeds n n) : ∃ ns, net.partOrder = some ns := by
  refine topologicalOrder_isSome net.partOrder_counted fun n loop => ?_
  refine acyclic n (Relation.TransGen.mono ?_ n n loop)
  rintro i j ⟨_, _, follows⟩
  exact (mem_partFollowers h).mp follows

/-- No gate of a part is fed from a part that comes later. -/
theorem partOrder_pairwise {net : Netlist} (h : net.Consistent) {ns : List Nat}
    (found : net.partOrder = some ns) : ns.Pairwise fun i j =>
      ∀ x y, net.partOf? x = some i → net.partOf? y = some j → ¬Feeds net.gate? y x := by
  have perm := partOrder_perm found
  have nodup : ns.Nodup := perm.nodup_iff.mpr List.nodup_range
  have after : ns.Pairwise fun i j => i ∉ net.partFollowers.getD j [] := by
    refine pairwise_of_after nodup fun pre a post split b mem follows => ?_
    exact topologicalOrder_after net.partOrder_counted found split (perm.mem_iff.mp mem) follows
  refine (after.and nodup).imp ?_
  rintro i j ⟨apart, other⟩ x y here there feeds
  exact apart ((mem_partFollowers h).mpr ⟨other.symm, y, x, there, here, feeds⟩)

/-- Orders of the gates of all parts. -/
def Orderly (net : Netlist) (orders : List (List GateId)) : Prop :=
  ∀ (n : Nat) (p : Part), net.parts[n]? = some p → ∃ order, orders[n]? = some order ∧
    order.Perm p.gates ∧ order.Pairwise fun a b => ¬Feeds net.gate? b a

/-- The orders of the parts, if all were found. -/
theorem partOrders_spec {net : Netlist} (h : net.Consistent) {orders : List (List GateId)}
    (found : net.partOrders = .ok orders) : orders.length = net.parts.length ∧ net.Orderly orders := by
  obtain ⟨length, each⟩ := Result.mapM_eq_ok found
  refine ⟨by simpa using length, ?_⟩
  intro n p here
  obtain ⟨order, there, sorted⟩ := each n (p, n) (by simp [List.getElem?_zipIdx, here])
  have sorted := Result.getOrBreach_eq_ok.mp sorted
  have part := h.parts n p here
  exact ⟨order, there, combOrder_perm h.wired part.accounts.nodup part.accounts.known part.members sorted,
    combOrder_pairwise h.wired part.accounts.nodup part.accounts.known part.members sorted⟩

theorem Orderly.mem_getD {net : Netlist} (h : net.Consistent) {orders : List (List GateId)}
    (orderly : net.Orderly orders) {n : Nat} (lt : n < net.parts.length) (x : GateId) :
    x ∈ orders.getD n [] ↔ net.partOf? x = some n := by
  have part := List.getElem?_eq_getElem lt
  obtain ⟨order, here, same, _⟩ := orderly n _ part
  rw [List.getD_eq_getElem?_getD, here, Option.getD_some, same.mem_iff, ← inPart_iff,
    (h.parts n _ part).members]

/-- The orders of the parts one after the other are an order of all gates. -/
theorem Orderly.perm {net : Netlist} (h : net.Consistent) (full : net.hasOrphans = false) {ns : List Nat}
    (found : net.partOrder = some ns) {orders : List (List GateId)} (orderly : net.Orderly orders) :
    (ns.flatMap fun n => orders.getD n []).Perm net.gates := by
  have perm := partOrder_perm found
  have lt : ∀ {n}, n ∈ ns → n < net.parts.length := fun mem => List.mem_range.mp (perm.mem_iff.mp mem)
  have nodup : (ns.flatMap fun n => orders.getD n []).Nodup := by
    refine List.nodup_flatMap.mpr ⟨?_, ?_⟩
    · intro n mem
      have part := List.getElem?_eq_getElem (lt mem)
      obtain ⟨order, here, same, _⟩ := orderly n _ part
      rw [List.getD_eq_getElem?_getD, here, Option.getD_some, same.nodup_iff]
      exact (h.parts n _ part).accounts.nodup
    · refine (perm.nodup_iff.mpr List.nodup_range).imp_of_mem fun {i j} hi hj other x here there => ?_
      rw [orderly.mem_getD h (lt hi)] at here
      rw [orderly.mem_getD h (lt hj), here] at there
      exact other (Option.some.inj there)
  refine (List.perm_ext_iff_of_nodup nodup h.top.accounts.nodup).mpr fun x => ?_
  rw [List.mem_flatMap, ← h.top.members x, contains_iff]
  constructor
  · rintro ⟨n, mem, here⟩
    exact h.known_of_home ((orderly.mem_getD h (lt mem) x).mp here)
  · rintro ⟨g, here⟩
    obtain ⟨n, home⟩ := h.exists_home full here
    have inside := h.homes x n home
    exact ⟨n, perm.mem_iff.mpr (List.mem_range.mpr inside), (orderly.mem_getD h inside x).mpr home⟩

/-- A gate comes after those that feed it: in its part, or because their part comes before. -/
theorem Orderly.pairwise {net : Netlist} (h : net.Consistent) {ns : List Nat}
    (found : net.partOrder = some ns) {orders : List (List GateId)} (orderly : net.Orderly orders) :
    (ns.flatMap fun n => orders.getD n []).Pairwise fun a b => ¬Feeds net.gate? b a := by
  have perm := partOrder_perm found
  have lt : ∀ {n}, n ∈ ns → n < net.parts.length := fun mem => List.mem_range.mp (perm.mem_iff.mp mem)
  refine List.pairwise_flatMap.mpr ⟨?_, ?_⟩
  · intro n mem
    obtain ⟨order, here, _, ordered⟩ := orderly n _ (List.getElem?_eq_getElem (lt mem))
    rw [List.getD_eq_getElem?_getD, here, Option.getD_some]
    exact ordered
  · refine (partOrder_pairwise h found).imp_of_mem fun {i j} hi hj apart x here y there => ?_
    exact apart x y ((orderly.mem_getD h (lt hi) x).mp here) ((orderly.mem_getD h (lt hj) y).mp there)

/-! ## Sorting -/

/-- Taking over topological orders of all gates and of the gates of each part. -/
theorem Consistent.arrange {net : Netlist} (h : net.Consistent) {order : List GateId}
    (perm : order.Perm net.gates) (ordered : order.Pairwise fun a b => ¬Feeds net.gate? b a)
    {orders : List (List GateId)} (length : orders.length = net.parts.length)
    (orderly : net.Orderly orders) : (net.arrange order orders).Consistent where
  wired := h.wired
  top := h.top.arranged perm ordered
  parts n q found := by
    obtain ⟨p, sorted, here, there, rfl⟩ := List.getElem?_zipWith_eq_some.mp found
    obtain ⟨same, isSame, perm, ordered⟩ := orderly n p here
    rw [there] at isSame
    cases isSame
    exact (h.parts n p here).arranged perm ordered
  homes id n home := by
    have := h.homes id n home
    simp only [Netlist.arrange, List.length_zipWith, length]
    omega
  tallied := by
    refine ⟨h.tallied.housed, fun n => (h.tallied.emptied n).trans ?_⟩
    simp only [Netlist.arrange]
    cases found : net.parts[n]? with
    | none => simp [List.getElem?_zipWith, found]
    | some p =>
      obtain ⟨sorted, there, perm, _⟩ := orderly n p found
      simp only [List.getElem?_zipWith, found, there, Option.map_some, Option.some.injEq, Part.arrange]
      exact ⟨fun empty => (empty ▸ perm).eq_nil, fun empty => (empty ▸ perm).symm.eq_nil⟩
  shared := h.shared

theorem flatOrder_spec {net : Netlist} (h : net.Consistent) {order : List GateId}
    (found : net.flatOrder = .ok order) :
    order.Perm net.gates ∧ order.Pairwise fun a b => ¬Feeds net.gate? b a := by
  have sorted := Result.getOrBreach_eq_ok.mp found
  exact ⟨combOrder_perm h.wired h.top.accounts.nodup h.top.accounts.known h.top.members sorted,
    combOrder_pairwise h.wired h.top.accounts.nodup h.top.accounts.known h.top.members sorted⟩

theorem flatOrder_irrefl {net : Netlist} (h : net.Consistent) {order : List GateId}
    (found : net.flatOrder = .ok order) : ∀ id ∈ net.gates, ¬Feeds net.gate? id id := fun _ mem =>
  combOrder_irrefl h.wired h.top.accounts.nodup h.top.accounts.known h.top.members
    (Result.getOrBreach_eq_ok.mp found) mem

theorem partOrders_irrefl {net : Netlist} (h : net.Consistent) {orders : List (List GateId)}
    (found : net.partOrders = .ok orders) {n : Nat} {id : GateId} (home : net.partOf? id = some n) :
    ¬Feeds net.gate? id id := by
  have here := List.getElem?_eq_getElem (h.homes id n home)
  have covers := h.parts n _ here
  obtain ⟨_, each⟩ := Result.mapM_eq_ok found
  obtain ⟨order, _, placed⟩ := each n _ (by rw [List.getElem?_zipIdx, here]; rfl)
  rw [Nat.zero_add] at placed
  exact combOrder_irrefl h.wired covers.accounts.nodup covers.accounts.known covers.members
    (Result.getOrBreach_eq_ok.mp placed) ((covers.members id).mp (inPart_iff.mpr home))

/-- Where the orders come from that sorting takes over. -/
inductive Finds (net : Netlist) : List GateId → List (List GateId) → Prop
  | flat {order} : net.parts = [] → net.flatOrder = .ok order → Finds net order []
  | partwise {ns orders} : net.hasOrphans = false → net.partOrders = .ok orders → net.partOrder = some ns →
      Finds net (ns.flatMap fun n => orders.getD n []) orders
  | circular {order orders} : net.partOrders = .ok orders → net.partOrder = none → net.flatOrder = .ok order →
      Finds net order orders

/-- THE CASES of sorting: a marked netlist stays as it is, and any other takes over the orders that are found. -/
theorem sort_cases {net net' : Netlist} (sorted : net.sort = .ok net') :
    net.isSorted = true ∧ net' = net ∨
      net.isSorted = false ∧ ∃ order orders, net.Finds order orders ∧ net' = net.arrange order orders := by
  obtain ⟨_, wellFormed, sorted⟩ := Result.bind_eq_ok.mp sorted
  have wellFormed := Result.require_eq_ok.mp wellFormed
  split at sorted
  · next marked =>
    cases sorted
    exact .inl ⟨marked, rfl⟩
  next unmarked =>
  refine .inr ⟨Bool.eq_false_iff.mpr unmarked, ?_⟩
  split at sorted
  · next flat =>
    obtain ⟨order, found, sorted⟩ := Result.bind_eq_ok.mp sorted
    cases sorted
    exact ⟨order, [], .flat (List.isEmpty_iff.mp flat) found, rfl⟩
  · next divided =>
    have full : net.hasOrphans = false := by
      simp only [isWellFormed, divided, Bool.false_or, Bool.and_eq_true, Bool.not_eq_true'] at wellFormed
      exact wellFormed.1
    obtain ⟨orders, parts, sorted⟩ := Result.bind_eq_ok.mp sorted
    simp only at sorted
    split at sorted
    · next ns partOrder =>
      cases sorted
      exact ⟨_, orders, .partwise full parts partOrder, rfl⟩
    · next circle =>
      obtain ⟨order, found, sorted⟩ := Result.bind_eq_ok.mp sorted
      cases sorted
      exact ⟨order, orders, .circular parts circle found, rfl⟩

/-- What sorting takes over: an order of all gates and one of the gates of each part, in which no gate stands before
one that feeds it. No gate feeds itself, and where the parts can be ordered, each of them stands together. -/
structure Takes (net : Netlist) (order : List GateId) (orders : List (List GateId)) : Prop where
  perm : order.Perm net.gates
  ordered : order.Pairwise fun a b => ¬Feeds net.gate? b a
  irrefl : ∀ id ∈ net.gates, ¬Feeds net.gate? id id
  length : orders.length = net.parts.length
  orderly : net.Orderly orders
  together : net.partOrder.isSome = true → ∀ part ∈ orders, part <:+: order

theorem Finds.takes {net : Netlist} (h : net.Consistent) {order : List GateId} {orders : List (List GateId)}
    (finds : net.Finds order orders) : net.Takes order orders := by
  cases finds with
  | flat none found =>
    obtain ⟨perm, ordered⟩ := flatOrder_spec h found
    refine ⟨perm, ordered, flatOrder_irrefl h found, by simp [none], ?_, by simp⟩
    intro n p here
    simp [none] at here
  | @partwise ns _ full found partOrder =>
    obtain ⟨length, orderly⟩ := partOrders_spec h found
    refine ⟨Orderly.perm h full partOrder orderly, Orderly.pairwise h partOrder orderly, ?_, length, orderly, ?_⟩
    · intro id mem
      obtain ⟨g, known⟩ := h.top.accounts.known id mem
      obtain ⟨n, home⟩ := h.exists_home full known
      exact partOrders_irrefl h found home
    · intro _ part mem
      obtain ⟨n, here⟩ := List.mem_iff_getElem?.mp mem
      obtain ⟨lt, _⟩ := List.getElem?_eq_some_iff.mp here
      have listed : n ∈ ns := (partOrder_perm partOrder).mem_iff.mpr (List.mem_range.mpr (length ▸ lt))
      obtain ⟨before, after, rfl⟩ := List.append_of_mem listed
      refine ⟨before.flatMap fun n => orders.getD n [], after.flatMap fun n => orders.getD n [], ?_⟩
      rw [List.flatMap_append, List.flatMap_cons, List.getD_eq_getElem?_getD, here, List.append_assoc]
      rfl
  | circular parts circle found =>
    obtain ⟨length, orderly⟩ := partOrders_spec h parts
    obtain ⟨perm, ordered⟩ := flatOrder_spec h found
    refine ⟨perm, ordered, flatOrder_irrefl h found, length, orderly, ?_⟩
    intro some
    rw [circle] at some
    cases some

/-- Sorting keeps a netlist consistent. -/
theorem Consistent.sort {net net' : Netlist} (h : net.Consistent) (sorted : net.sort = .ok net') :
    net'.Consistent := by
  rcases sort_cases sorted with ⟨_, rfl⟩ | ⟨_, order, orders, finds, rfl⟩
  · exact h
  · have takes := finds.takes h
    exact h.arrange takes.perm takes.ordered takes.length takes.orderly

end Netlist

end LogicNet
