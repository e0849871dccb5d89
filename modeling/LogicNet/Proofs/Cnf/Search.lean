import LogicNet.Cnf.Search
import LogicNet.Proofs.Result

/-!
# Models of the search

A search runs over the variables that occur, counted from zero. Whatever it ends with is tried on the clauses, and only
then taken back to the variables of the formula.

**The law** (`Search.faithful_solve`): a model that is handed out knows every variable and makes all clauses true.

**What it does not establish.** That there is a model if the search finds none, or that the search ever ends.
-/

namespace LogicNet

open Std

/-- Whatever an oracle gives as a model of clauses over the first `n` variables is one. -/
def Oracle.Faithful (oracle : Oracle) : Prop :=
  ∀ {n clauses m}, (∀ c ∈ clauses, c.isBelow n = true) → oracle n clauses = .ok (some m) →
    n ≤ m.size ∧ m.satisfies clauses = true

namespace Search

theorem mem_occurring_clause {c : Clause} {vars : TreeSet Nat} {v : Nat} :
    v ∈ c.foldl (fun vars l => vars.insert l.var) vars ↔ v ∈ vars ∨ ∃ l ∈ c, l.var = v := by
  induction c generalizing vars with
  | nil => simp
  | cons l c ih =>
    rw [List.foldl_cons, ih, TreeSet.mem_insert, LawfulEqCmp.compare_eq_iff_eq]
    simp only [List.mem_cons, exists_eq_or_imp]
    exact or_assoc.trans or_left_comm

theorem mem_occurring {clauses : List Clause} {v : Nat} :
    v ∈ occurring clauses ↔ ∃ c ∈ clauses, ∃ l ∈ c, l.var = v := by
  have loop : ∀ vars : TreeSet Nat,
      v ∈ clauses.foldl (fun vars c => c.foldl (fun vars l => vars.insert l.var) vars) vars ↔
        v ∈ vars ∨ ∃ c ∈ clauses, ∃ l ∈ c, l.var = v := by
    induction clauses with
    | nil => simp
    | cons c clauses ih =>
      intro vars
      rw [List.foldl_cons, ih, mem_occurring_clause, or_assoc]
      simp only [List.mem_cons, exists_eq_or_imp]
  exact (loop {}).trans (or_iff_right TreeSet.not_mem_emptyc)

/-- Every variable that occurs has a number. -/
theorem exists_number {vars : List Nat} {v : Nat} (mem : v ∈ vars) :
    ∃ n, (TreeMap.ofList vars.zipIdx : TreeMap Nat Nat)[v]? = some n := by
  apply Option.isSome_iff_exists.mp
  rw [← TreeMap.mem_iff_isSome_getElem?, TreeMap.mem_ofList, List.contains_iff_mem, List.zipIdx_map_fst]
  exact mem

/-- A clause is true in the model that is handed out if it is true, renumbered, in the one that was found. -/
theorem holds_of_renumber {numbers : TreeMap Nat Nat} {size : Nat} {model : Model} {c : Clause}
    (below : c.isBelow size = true) (known : ∀ l ∈ c, ∃ n, numbers[l.var]? = some n)
    (holds : Clause.holds model.value (renumber numbers c) = true) :
    Clause.holds (Model.value ((List.range size).map fun v => numbers[v]?.any model.value).toArray) c = true := by
  rw [Clause.holds, renumber, List.any_map, List.any_eq_true] at holds
  obtain ⟨l, mem, isTrue⟩ := holds
  obtain ⟨n, number⟩ := known l mem
  have lt : l.var < size := of_decide_eq_true (List.all_eq_true.mp below l mem)
  refine List.any_eq_true.mpr ⟨l, mem, ?_⟩
  have same : Model.value ((List.range size).map fun v => numbers[v]?.any model.value).toArray l.var =
      model.value n := by
    simp [Model.value, lt, number]
  have at? : numbers.getD l.var 0 = n := by
    rw [TreeMap.getD_eq_getD_getElem?, number]
    rfl
  simp only [Function.comp_apply, Lit.holds, at?] at isTrue
  rw [Lit.holds, same]
  exact isTrue

/-- THE SEARCH HANDS OUT MODELS ONLY. -/
theorem faithful_solve : Oracle.Faithful solve := by
  intro n clauses m below solved
  obtain ⟨_, _, solved⟩ := Result.bind_eq_ok.mp solved
  simp only at solved
  split at solved
  · split at solved
    · next values _ satisfied =>
      cases solved
      refine ⟨by simp, List.all_eq_true.mpr ?_⟩
      intro c mem
      apply holds_of_renumber (below c mem)
      · intro l inside
        exact exists_number (TreeSet.mem_toList.mpr (mem_occurring.mpr ⟨c, mem, l, inside, rfl⟩))
      · exact List.all_eq_true.mp satisfied _ (List.mem_map_of_mem mem)
    · cases solved
  · cases solved
  · cases solved

end Search

end LogicNet
