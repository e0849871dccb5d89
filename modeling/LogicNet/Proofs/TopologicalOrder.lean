import Mathlib.Data.List.Flatten
import Mathlib.Data.List.Perm.Subperm
import Mathlib.Data.Set.Finite.Basic
import Mathlib.Order.WellFounded
import LogicNet.TopologicalOrder

/-!
# The order of `topologicalOrder`

**An order is returned when there is no loop, and any order returned places every node once, after all
it depends on.**

The count a waiting node carries is the number of uses of it by nodes that are not placed yet. This
is the invariant of the rounds, `Rounds`, and everything else is read off it: a node joins the queue
when its count is used up, so all it depends on is placed; and a node that is never placed has
something before it that is never placed either, so the nodes left over contain a loop.

The counts have to be right to begin with. That is the hypothesis `Counted`: the number of
dependencies of a node is the number of times it occurs among the followers of all nodes.
-/

namespace LogicNet

open Std

/-! ## One release -/

section Release

variable {α : Type} [Ord α] [TransOrd α]

/-- Every node that waits, waits for something. -/
def Waiting (waiting : TreeMap α Nat) : Prop := ∀ (t : α) (n : Nat), waiting[t]? = some n → 0 < n

theorem Waiting.erase {waiting : TreeMap α Nat} (h : Waiting waiting) (s : α) :
    Waiting (waiting.erase s) := by
  intro t n found
  rw [TreeMap.getElem?_erase] at found
  split at found
  · cases found
  · exact h t n found

theorem Waiting.insert {waiting : TreeMap α Nat} (h : Waiting waiting) {m : Nat} (hm : 0 < m) (s : α) :
    Waiting (waiting.insert s m) := by
  intro t n found
  rw [TreeMap.getElem?_insert] at found
  split at found
  · cases found
    exact hm
  · exact h t n found

variable [LawfulEqOrd α] [DecidableEq α]

/-- What a node waits for after some of its dependencies were counted off. -/
theorem release_waiting {waiting : TreeMap α Nat} (h : Waiting waiting) (ts : List α) (t : α) :
    (release waiting ts).2[t]? =
      waiting[t]?.bind fun n => if ts.count t < n then some (n - ts.count t) else none := by
  induction ts generalizing waiting with
  | nil =>
    cases found : waiting[t]? with
    | none => simp [release, found]
    | some n => simp [release, found, h t n found]
  | cons s ts ih =>
    cases hs : waiting[s]? with
    | none =>
      simp only [release, hs]
      rw [ih h]
      by_cases hst : s = t
      · subst hst
        simp [hs]
      · simp [List.count_cons_of_ne hst]
    | some m =>
      have hm := h s m hs
      simp only [release, hs]
      split
      · rw [ih (h.erase s), TreeMap.getElem?_erase]
        by_cases hst : s = t
        · subst hst
          have : m = 1 := by omega
          simp [hs, this]
        · simp [hst, List.count_cons_of_ne hst]
      · rw [ih (h.insert (by omega) s), TreeMap.getElem?_insert]
        by_cases hst : s = t
        · subst hst
          have less : ts.count s < m - 1 ↔ ts.count s + 1 < m := by omega
          have rest : m - 1 - ts.count s = m - (ts.count s + 1) := by omega
          simp [hs, less, rest]
        · simp [hst, List.count_cons_of_ne hst]

/-- The nodes that wait for nothing more. -/
theorem mem_release {waiting : TreeMap α Nat} (h : Waiting waiting) (ts : List α) (t : α) :
    t ∈ (release waiting ts).1 ↔ ∃ n, waiting[t]? = some n ∧ n ≤ ts.count t := by
  induction ts generalizing waiting with
  | nil =>
    simp only [release, List.not_mem_nil, List.count_nil, Nat.le_zero, false_iff]
    rintro ⟨n, found, rfl⟩
    exact absurd (h t 0 found) (Nat.lt_irrefl 0)
  | cons s ts ih =>
    cases hs : waiting[s]? with
    | none =>
      simp only [release, hs]
      rw [ih h]
      by_cases hst : s = t
      · subst hst
        simp [hs]
      · simp [List.count_cons_of_ne hst]
    | some m =>
      have hm := h s m hs
      simp only [release, hs]
      split
      · rw [List.mem_cons, ih (h.erase s), TreeMap.getElem?_erase]
        by_cases hst : s = t
        · subst hst
          have : m ≤ ts.count s + 1 := by omega
          simp [hs, this]
        · simp [hst, List.count_cons_of_ne hst, Ne.symm hst]
      · rw [ih (h.insert (by omega) s), TreeMap.getElem?_insert]
        by_cases hst : s = t
        · subst hst
          simp only [ReflCmp.compare_self, if_true, hs, Option.some.injEq, exists_eq_left',
            List.count_cons_self]
          omega
        · simp [hst, List.count_cons_of_ne hst]

/-- A node is released once: it no longer waits when it is counted off again. -/
theorem release_nodup {waiting : TreeMap α Nat} (h : Waiting waiting) (ts : List α) :
    (release waiting ts).1.Nodup := by
  induction ts generalizing waiting with
  | nil => exact List.nodup_nil
  | cons s ts ih =>
    cases hs : waiting[s]? with
    | none =>
      simp only [release, hs]
      exact ih h
    | some m =>
      simp only [release, hs]
      split
      · refine List.nodup_cons.mpr ⟨?_, ih (h.erase s)⟩
        rw [mem_release (h.erase s)]
        rintro ⟨n, found, _⟩
        simp at found
      · exact ih (h.insert (by omega) s)

end Release

/-! ## The rounds -/

variable {α : Type} [DecidableEq α] {nodes : List α} {dependencies : α → Nat} {followers : α → List α}

/-- The nodes are distinct, and each depends on as many uses as there are of it. -/
structure Counted (nodes : List α) (dependencies : α → Nat) (followers : α → List α) : Prop where
  nodup : nodes.Nodup
  exact : ∀ t ∈ nodes, dependencies t = (nodes.flatMap followers).count t

/-- The uses of a node by all nodes are those by some of them and those by the others. -/
theorem Counted.split (h : Counted nodes dependencies followers) {placed : List α}
    (nodup : placed.Nodup) (known : ∀ t ∈ placed, t ∈ nodes) {t : α} (ht : t ∈ nodes) :
    dependencies t = (placed.flatMap followers).count t +
      ((nodes.filter (· ∉ placed)).flatMap followers).count t := by
  have perm : nodes.Perm (placed ++ nodes.filter (· ∉ placed)) := by
    refine (List.perm_ext_iff_of_nodup h.nodup ?_).mpr fun x => ?_
    · refine nodup.append (h.nodup.filter _) fun x hx hy => ?_
      simp only [List.mem_filter, decide_eq_true_eq] at hy
      exact hy.2 hx
    · by_cases hx : x ∈ placed
      · simp [hx, known x hx]
      · simp [hx]
  rw [h.exact t ht, (perm.flatMap_right followers).count_eq, List.flatMap_append, List.count_append]

/-- A node all of whose uses are by placed nodes follows no other one. -/
theorem Counted.mem_of_done (h : Counted nodes dependencies followers) {placed : List α}
    (nodup : placed.Nodup) (known : ∀ t ∈ placed, t ∈ nodes) {t : α} (ht : t ∈ nodes)
    (done : dependencies t ≤ (placed.flatMap followers).count t) {b : α} (hb : b ∈ nodes)
    (follows : t ∈ followers b) : b ∈ placed := by
  have split := h.split nodup known ht
  by_contra missing
  have mem : t ∈ (nodes.filter (· ∉ placed)).flatMap followers :=
    List.mem_flatMap.mpr ⟨b, by simp [hb, missing], follows⟩
  have := List.count_pos_iff.mpr mem
  omega

/-- A node that still waits for something follows a node that is not placed. -/
theorem Counted.exists_of_waits (h : Counted nodes dependencies followers) {placed : List α}
    (nodup : placed.Nodup) (known : ∀ t ∈ placed, t ∈ nodes) {t : α} (ht : t ∈ nodes)
    (waits : (placed.flatMap followers).count t < dependencies t) :
    ∃ b ∈ nodes, b ∉ placed ∧ t ∈ followers b := by
  have split := h.split nodup known ht
  have mem : t ∈ (nodes.filter (· ∉ placed)).flatMap followers :=
    List.count_pos_iff.mp (by omega)
  obtain ⟨b, hb, follows⟩ := List.mem_flatMap.mp mem
  simp only [List.mem_filter, decide_eq_true_eq] at hb
  exact ⟨b, hb.1, hb.2, follows⟩

variable [Ord α]

/-- THE INVARIANT of the rounds. Placed and queued nodes are distinct nodes whose uses are all by
placed ones; every other node waits for the uses that are left. -/
structure Rounds (nodes : List α) (dependencies : α → Nat) (followers : α → List α)
    (placed queue : List α) (waiting : TreeMap α Nat) : Prop where
  nodup : (placed ++ queue).Nodup
  known : ∀ t ∈ placed ++ queue, t ∈ nodes
  done : ∀ t ∈ placed ++ queue, dependencies t ≤ (placed.flatMap followers).count t
  positive : Waiting waiting
  waits : ∀ (t : α) (n : Nat), waiting[t]? = some n →
    t ∈ nodes ∧ t ∉ placed ++ queue ∧ n + (placed.flatMap followers).count t = dependencies t
  covers : ∀ t ∈ nodes, t ∈ placed ++ queue ∨ ∃ n, waiting[t]? = some n

namespace Rounds

variable {placed queue : List α} {waiting : TreeMap α Nat}

theorem placed_nodup (h : Rounds nodes dependencies followers placed queue waiting) :
    placed.Nodup := h.nodup.of_append_left

theorem placed_known (h : Rounds nodes dependencies followers placed queue waiting) :
    ∀ t ∈ placed, t ∈ nodes := fun t ht => h.known t (List.mem_append_left queue ht)

variable [TransOrd α] [LawfulEqOrd α]

/-- One round: the front of the queue is placed, and what it releases joins the queue. -/
theorem step {x : α} (h : Rounds nodes dependencies followers placed (x :: queue) waiting) :
    Rounds nodes dependencies followers (placed ++ [x])
      (queue ++ (release waiting (followers x)).1) (release waiting (followers x)).2 := by
  have listed : placed ++ [x] ++ (queue ++ (release waiting (followers x)).1) =
      placed ++ x :: queue ++ (release waiting (followers x)).1 := by simp
  have count : ∀ t, ((placed ++ [x]).flatMap followers).count t =
      (placed.flatMap followers).count t + (followers x).count t := by simp
  constructor
  case nodup =>
    rw [listed]
    refine h.nodup.append (release_nodup h.positive _) fun t old ready => ?_
    obtain ⟨n, found, _⟩ := (mem_release h.positive _ t).mp ready
    exact (h.waits t n found).2.1 old
  case known =>
    intro t ht
    rw [listed, List.mem_append] at ht
    rcases ht with old | ready
    · exact h.known t old
    · obtain ⟨n, found, _⟩ := (mem_release h.positive _ t).mp ready
      exact (h.waits t n found).1
  case done =>
    intro t ht
    rw [listed, List.mem_append] at ht
    rw [count]
    rcases ht with old | ready
    · exact (h.done t old).trans (Nat.le_add_right _ _)
    · obtain ⟨n, found, enough⟩ := (mem_release h.positive _ t).mp ready
      have := (h.waits t n found).2.2
      omega
  case positive =>
    intro t n found
    rw [release_waiting h.positive, Option.bind_eq_some_iff] at found
    obtain ⟨m, _, left⟩ := found
    split at left
    · cases left
      omega
    · cases left
  case waits =>
    intro t n found
    rw [release_waiting h.positive, Option.bind_eq_some_iff] at found
    obtain ⟨m, before, left⟩ := found
    split at left
    · next less =>
      cases left
      obtain ⟨node, absent, sum⟩ := h.waits t m before
      refine ⟨node, ?_, ?_⟩
      · rw [listed, List.mem_append, not_or, mem_release h.positive]
        refine ⟨absent, ?_⟩
        rintro ⟨k, found, enough⟩
        rw [before] at found
        cases found
        omega
      · rw [count]
        omega
    · cases left
  case covers =>
    intro t ht
    rw [listed, List.mem_append, mem_release h.positive, release_waiting h.positive]
    rcases h.covers t ht with old | ⟨n, found⟩
    · exact .inl (.inl old)
    · by_cases less : (followers x).count t < n
      · exact .inr ⟨n - (followers x).count t, by simp [found, less]⟩
      · exact .inl (.inr ⟨n, found, by omega⟩)

/-- What the rounds place is new and distinct. -/
theorem placeAll_nodup (h : Rounds nodes dependencies followers placed queue waiting)
    (rounds : Nat) :
    (placed ++ placeAll followers rounds queue waiting).Nodup ∧
      ∀ t ∈ placed ++ placeAll followers rounds queue waiting, t ∈ nodes := by
  induction rounds generalizing placed queue waiting with
  | zero => simpa [placeAll] using ⟨h.placed_nodup, h.placed_known⟩
  | succ rounds ih =>
    cases queue with
    | nil => simpa [placeAll] using ⟨h.placed_nodup, h.placed_known⟩
    | cons x queue => simpa [placeAll] using ih h.step

/-- A node is placed after all nodes that it follows. -/
theorem placeAll_after (counted : Counted nodes dependencies followers)
    (h : Rounds nodes dependencies followers placed queue waiting) (rounds : Nat)
    {pre post : List α} {a b : α}
    (placing : placeAll followers rounds queue waiting = pre ++ a :: post) (hb : b ∈ nodes)
    (follows : a ∈ followers b) : b ∈ placed ++ pre := by
  induction rounds generalizing placed queue waiting pre with
  | zero => simp [placeAll] at placing
  | succ rounds ih =>
    cases queue with
    | nil => simp [placeAll] at placing
    | cons x queue =>
      simp only [placeAll] at placing
      cases pre with
      | nil =>
        obtain ⟨rfl, _⟩ := List.cons.inj placing
        have queued : x ∈ placed ++ x :: queue := by simp
        simpa using counted.mem_of_done h.placed_nodup h.placed_known (h.known x queued)
          (h.done x queued) hb follows
      | cons y pre =>
        simp only [List.cons_append, List.cons.injEq] at placing
        obtain ⟨rfl, placing⟩ := placing
        simpa using ih h.step placing

/-- Enough rounds leave a node out only if it follows another node that they leave out. -/
theorem placeAll_stuck (counted : Counted nodes dependencies followers)
    (h : Rounds nodes dependencies followers placed queue waiting) {rounds : Nat}
    (enough : nodes.length ≤ rounds + placed.length) {t : α} (ht : t ∈ nodes)
    (out : t ∉ placed ++ placeAll followers rounds queue waiting) :
    ∃ b ∈ nodes, b ∉ placed ++ placeAll followers rounds queue waiting ∧ t ∈ followers b := by
  induction rounds generalizing placed queue waiting with
  | zero =>
    simp only [placeAll, List.append_nil] at out
    have more : (t :: placed).length ≤ nodes.length := by
      refine (List.Nodup.subperm (List.nodup_cons.mpr ⟨out, h.placed_nodup⟩) ?_).length_le
      exact List.cons_subset.mpr ⟨ht, h.placed_known⟩
    simp only [List.length_cons] at more
    omega
  | succ rounds ih =>
    cases queue with
    | nil =>
      simp only [placeAll, List.append_nil] at out ⊢
      rcases h.covers t ht with old | ⟨n, found⟩
      · exact absurd (by simpa using old) out
      · have := (h.waits t n found).2.2
        have := h.positive t n found
        exact counted.exists_of_waits h.placed_nodup h.placed_known ht (by omega)
    | cons x queue =>
      have enough : nodes.length ≤ rounds + (placed ++ [x]).length := by
        simp only [List.length_append, List.length_singleton]
        omega
      have := ih h.step enough (by simpa [placeAll] using out)
      simpa [placeAll] using this

end Rounds

/-! ## The whole order -/

variable [TransOrd α] [LawfulEqOrd α]

/-- Before the first round nothing is placed, and the nodes without dependencies are queued. -/
theorem Counted.start (h : Counted nodes dependencies followers) :
    let counted := nodes.map fun x => (x, dependencies x)
    Rounds nodes dependencies followers [] ((counted.filter fun (_, n) => n = 0).map Prod.fst)
      (TreeMap.ofList (counted.filter fun (_, n) => 0 < n)) := by
  intro counted
  have queued : ∀ t, t ∈ (counted.filter fun (_, n) => n = 0).map Prod.fst ↔
      t ∈ nodes ∧ dependencies t = 0 := by simp [counted]
  have waits : ∀ (t : α) (n : Nat),
      (TreeMap.ofList (counted.filter fun (_, n) => 0 < n))[t]? = some n ↔
        t ∈ nodes ∧ n = dependencies t ∧ 0 < n := by
    intro t n
    have distinct : (counted.filter fun (_, n) => 0 < n).Pairwise
        fun a b => ¬compare a.1 b.1 = .eq := by
      refine List.Pairwise.filter _ ?_
      simp only [counted, List.pairwise_map, LawfulEqCmp.compare_eq_iff_eq]
      exact h.nodup
    have listed : (t, n) ∈ counted.filter (fun (_, n) => 0 < n) ↔
        t ∈ nodes ∧ n = dependencies t ∧ 0 < n := by
      simp only [counted, List.mem_filter, List.mem_map, Prod.mk.injEq, decide_eq_true_eq]
      constructor
      · rintro ⟨⟨_, mem, rfl, rfl⟩, pos⟩
        exact ⟨mem, rfl, pos⟩
      · rintro ⟨mem, rfl, pos⟩
        exact ⟨⟨t, mem, rfl, rfl⟩, pos⟩
    rw [← listed]
    constructor
    · intro found
      have key : t ∈ TreeMap.ofList (counted.filter fun (_, n) => 0 < n) :=
        TreeMap.mem_iff_isSome_getElem?.mpr (by simp [found])
      rw [TreeMap.mem_ofList, List.contains_iff_mem] at key
      obtain ⟨⟨_, m⟩, mem, rfl⟩ := List.mem_map.mp key
      rw [TreeMap.getElem?_ofList_of_mem ReflCmp.compare_self distinct mem] at found
      cases found
      exact mem
    · exact TreeMap.getElem?_ofList_of_mem ReflCmp.compare_self distinct
  constructor
  case nodup =>
    have : (counted.map Prod.fst).Nodup := by simpa [counted, Function.comp_def] using h.nodup
    exact this.sublist (List.filter_sublist.map Prod.fst)
  case known => exact fun t ht => ((queued t).mp ht).1
  case done => exact fun t ht => by simp [((queued t).mp ht).2]
  case positive => exact fun t n found => ((waits t n).mp found).2.2
  case waits =>
    intro t n found
    obtain ⟨node, rfl, pos⟩ := (waits t n).mp found
    refine ⟨node, fun ht => ?_, by simp⟩
    have := ((queued t).mp ht).2
    omega
  case covers =>
    intro t ht
    by_cases zero : dependencies t = 0
    · exact .inl ((queued t).mpr ⟨ht, zero⟩)
    · exact .inr ⟨dependencies t, (waits t _).mpr ⟨ht, rfl, by omega⟩⟩

/-- The order places every node once. -/
theorem topologicalOrder_perm (h : Counted nodes dependencies followers) {order : List α}
    (found : topologicalOrder nodes dependencies followers = some order) : order.Perm nodes := by
  simp only [topologicalOrder, Option.ite_none_right_eq_some, Option.some.injEq] at found
  obtain ⟨length, rfl⟩ := found
  obtain ⟨nodup, known⟩ := h.start.placeAll_nodup nodes.length
  exact (List.Nodup.subperm nodup known).perm_of_length_le length.ge

/-- The order places a node after all nodes that it follows. -/
theorem topologicalOrder_after (h : Counted nodes dependencies followers) {order : List α}
    (found : topologicalOrder nodes dependencies followers = some order) {pre post : List α} {a b : α}
    (split : order = pre ++ a :: post) (hb : b ∈ nodes) (follows : a ∈ followers b) : b ∈ pre := by
  simp only [topologicalOrder, Option.ite_none_right_eq_some, Option.some.injEq] at found
  obtain ⟨_, rfl⟩ := found
  exact h.start.placeAll_after h nodes.length split hb follows

/-- If no node follows itself, directly or through other nodes, there is an order. -/
theorem topologicalOrder_isSome (h : Counted nodes dependencies followers)
    (acyclic : ∀ t, ¬Relation.TransGen (fun a b => a ∈ nodes ∧ b ∈ nodes ∧ b ∈ followers a) t t) :
    ∃ order, topologicalOrder nodes dependencies followers = some order := by
  by_contra none
  simp only [topologicalOrder, Option.ite_none_right_eq_some, not_exists, not_and] at none
  obtain ⟨nodup, known⟩ := h.start.placeAll_nodup nodes.length
  simp only [List.nil_append] at nodup known
  generalize placed : placeAll followers nodes.length _ _ = order at none nodup known
  -- The nodes left out have no first one: each follows another. On finitely many nodes that is a loop.
  have missing : ∃ t ∈ nodes, t ∉ order := by
    by_contra all
    simp only [not_exists, not_and, not_not] at all
    exact none order (Nat.le_antisymm (List.Nodup.subperm nodup known).length_le
      (List.Nodup.subperm h.nodup all).length_le) rfl
  let r (a b : { x // x ∈ nodes }) : Prop :=
    Relation.TransGen (fun a b => a ∈ nodes ∧ b ∈ nodes ∧ b ∈ followers a) a.1 b.1
  have : IsTrans { x // x ∈ nodes } r := ⟨fun _ _ _ => Relation.TransGen.trans⟩
  have : Std.Irrefl r := ⟨fun a => acyclic a.1⟩
  have : Finite { x // x ∈ nodes } := (List.finite_toSet nodes).to_subtype
  have wf : WellFounded r := Finite.wellFounded_of_trans_of_irrefl r
  obtain ⟨t, ht, out⟩ := missing
  obtain ⟨first, out, least⟩ := wf.has_min { x | x.1 ∉ order } ⟨⟨t, ht⟩, out⟩
  subst placed
  obtain ⟨b, hb, before, follows⟩ := h.start.placeAll_stuck h (Nat.le_add_right _ _) first.2 out
  exact least ⟨b, hb⟩ before (.single ⟨hb, first.2, follows⟩)

end LogicNet
