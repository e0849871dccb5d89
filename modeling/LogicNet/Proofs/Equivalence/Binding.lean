import LogicNet.Equivalence.Checker
import LogicNet.Proofs.Netlist.Sorting

/-!
# Bindings

A binding is a table from links of one netlist to links of another. The checks look at its pairs of DRIVERS
only, and several links may have one driver. So a binding that pairs links one-to-one may still pair one
driver with two; where it does not, each driver can be given one value.
-/

namespace LogicNet

open Std

/-! ## Tables that are filled from a list -/

section Tables

variable {α β γ : Type} [Ord α] [TransOrd α] [LawfulEqOrd α] {key : γ → α} {value : γ → β} {rows : List γ}
  {table : TreeMap α β} {a : α} {b : β}

/-- What a table has in the end is in a row, or was there before and no row has its key. -/
theorem row_of_getElem?_foldl_insert
    (found : (rows.foldl (fun t x => t.insert (key x) (value x)) table)[a]? = some b) :
    (∃ x ∈ rows, key x = a ∧ value x = b) ∨ (∀ x ∈ rows, key x ≠ a) ∧ table[a]? = some b := by
  induction rows generalizing table with
  | nil => exact .inr ⟨nofun, found⟩
  | cons x rows ih =>
    rcases ih found with ⟨y, mem, here⟩ | ⟨away, found⟩
    · exact .inl ⟨y, List.mem_cons_of_mem x mem, here⟩
    · rw [TreeMap.getElem?_insert] at found
      split at found
      · next same => exact .inl ⟨x, List.mem_cons_self, LawfulEqOrd.eq_of_compare same, Option.some.inj found⟩
      · next other =>
        refine .inr ⟨List.forall_mem_cons.mpr ⟨?_, away⟩, found⟩
        rintro rfl
        exact other ReflCmp.compare_self

theorem mem_foldl_insert :
    a ∈ rows.foldl (fun t x => t.insert (key x) (value x)) table ↔ (∃ x ∈ rows, key x = a) ∨ a ∈ table := by
  induction rows generalizing table with
  | nil => simp
  | cons x rows ih =>
    rw [List.foldl_cons, ih, TreeMap.mem_insert, LawfulEqCmp.compare_eq_iff_eq]
    simp only [List.mem_cons, exists_eq_or_imp]
    exact or_left_comm.trans or_assoc.symm

end Tables

/-! ## Pairs of drivers -/

/-- The binding pairs the links of one kind on the left one-to-one with those on the right. -/
structure Bijects (b : Binding) (left right : Link → Prop) : Prop where
  keys : ∀ l, l ∈ b ↔ left l
  values : ∀ r, (∃ l : Link, b[l]? = some r) ↔ right r
  injective : ∀ {l l' r : Link}, b[l]? = some r → b[l']? = some r → l = l'

theorem mem_of_getElem? {b : Binding} {l r : Link} (found : b[l]? = some r) : l ∈ b := by
  rw [TreeMap.mem_iff_isSome_getElem?, found]
  rfl

theorem exists_value {b : Binding} {l : Link} (mem : l ∈ b) : ∃ r, b[l]? = some r :=
  Option.isSome_iff_exists.mp (TreeMap.mem_iff_isSome_getElem?.mp mem)

theorem mem_driverPairs {b : Binding} {x : GateId × GateId} :
    x ∈ driverPairs b ↔ ∃ l r : Link, b[l]? = some r ∧ x = (l.source, r.source) := by
  rw [driverPairs, List.mem_eraseDups, List.mem_map]
  constructor
  · rintro ⟨⟨l, r⟩, mem, rfl⟩
    exact ⟨l, r, TreeMap.mem_toList_iff_getElem?_eq_some.mp mem, rfl⟩
  · rintro ⟨l, r, found, rfl⟩
    exact ⟨(l, r), TreeMap.mem_toList_iff_getElem?_eq_some.mpr found, rfl⟩

theorem eraseDups_of_nodup {α : Type} [BEq α] [LawfulBEq α] {xs : List α} (nodup : xs.Nodup) : xs.eraseDups = xs := by
  induction xs with
  | nil => rfl
  | cons x xs ih =>
    obtain ⟨new, nodup⟩ := List.nodup_cons.mp nodup
    have others : xs.filter (fun y => !y == x) = xs := by
      apply List.filter_eq_self.mpr
      intro y mem
      rw [Bool.not_eq_true', beq_eq_false_iff_ne]
      rintro rfl
      exact new mem
    rw [List.eraseDups_cons, others, ih nodup]

/-- Ports are known by their drivers, so no pair of them is left out. -/
theorem driverPairs_of_ports {b : Binding} (ports : ∀ l ∈ b, l = .port l.source) :
    driverPairs b = b.toList.map fun x => (x.1.source, x.2.source) := by
  apply eraseDups_of_nodup
  apply List.Nodup.of_map Prod.fst
  rw [List.map_map]
  have keys : (b.toList.map Prod.fst).Nodup := by
    rw [TreeMap.map_fst_toList_eq_keys]
    exact nodup_keys b
  apply List.Nodup.map_on _ (List.Nodup.of_map _ keys)
  intro x memX y memY same
  have key : ∀ z ∈ b.toList, z.1 = .port z.1.source := fun z mem =>
    ports z.1 (mem_of_getElem? (TreeMap.mem_toList_iff_getElem?_eq_some.mp mem))
  have link : x.1 = y.1 := by
    calc
      x.1 = .port x.1.source := key x memX
      _ = .port y.1.source := congrArg Link.port same
      _ = y.1 := (key y memY).symm
  exact List.inj_on_of_nodup_map keys memX memY link

theorem Bijects.mem_left {b : Binding} {left right : Link → Prop} (h : Bijects b left right) {id : GateId} :
    id ∈ (driverPairs b).map Prod.fst ↔ ∃ l, left l ∧ l.source = id := by
  simp only [List.mem_map, mem_driverPairs, ← h.keys, TreeMap.mem_iff_isSome_getElem?, Option.isSome_iff_exists]
  constructor
  · rintro ⟨_, ⟨l, r, found, rfl⟩, rfl⟩
    exact ⟨l, ⟨r, found⟩, rfl⟩
  · rintro ⟨l, ⟨r, found⟩, rfl⟩
    exact ⟨_, ⟨l, r, found, rfl⟩, rfl⟩

theorem Bijects.mem_right {b : Binding} {left right : Link → Prop} (h : Bijects b left right) {id : GateId} :
    id ∈ (driverPairs b).map Prod.snd ↔ ∃ r, right r ∧ r.source = id := by
  simp only [List.mem_map, mem_driverPairs, ← h.values]
  constructor
  · rintro ⟨_, ⟨l, r, found, rfl⟩, rfl⟩
    exact ⟨r, ⟨l, found⟩, rfl⟩
  · rintro ⟨r, ⟨l, found⟩, rfl⟩
    exact ⟨_, ⟨l, r, found, rfl⟩, rfl⟩

/-- Pairs in which no gate occurs twice on either side. -/
def OneToOne (pairs : List (GateId × GateId)) : Prop :=
  ∀ x ∈ pairs, ∀ y ∈ pairs, x.1 = y.1 ↔ x.2 = y.2

theorem OneToOne.nodup {b : Binding} (h : OneToOne (driverPairs b)) :
    ((driverPairs b).map Prod.fst).Nodup ∧ ((driverPairs b).map Prod.snd).Nodup := by
  constructor
  · refine List.Nodup.map_on (fun x hx y hy same => ?_) (nodup_eraseDups _)
    exact Prod.ext same ((h x hx y hy).mp same)
  · refine List.Nodup.map_on (fun x hx y hy same => ?_) (nodup_eraseDups _)
    exact Prod.ext ((h x hx y hy).mpr same) same

/-- No two of the links have one driver. -/
def Unshared (links : Link → Prop) : Prop := ∀ l l' : Link, links l → links l' → l.source = l'.source → l = l'

theorem unshared_of_ports {links : Link → Prop} (ports : ∀ l, links l → l = .port l.source) : Unshared links := by
  intro l l' isLink isLink' same
  calc
    l = .port l.source := ports l isLink
    _ = .port l'.source := congrArg Link.port same
    _ = l' := (ports l' isLink').symm

theorem unshared_of_nodup {links : LinkSet} (nodup : (links.toList.map Link.source).Nodup) : Unshared (· ∈ links) :=
  fun _ _ mem mem' => List.inj_on_of_nodup_map nodup (TreeSet.mem_toList.mpr mem) (TreeSet.mem_toList.mpr mem')

/-- A binding of links that are known by their drivers pairs a driver on the left with only one on the right. -/
theorem driverPairs_functional {b : Binding} (unshared : Unshared (· ∈ b)) {x y : GateId × GateId}
    (hx : x ∈ driverPairs b) (hy : y ∈ driverPairs b) (same : x.1 = y.1) : x.2 = y.2 := by
  obtain ⟨l, r, found, rfl⟩ := mem_driverPairs.mp hx
  obtain ⟨l', r', found', rfl⟩ := mem_driverPairs.mp hy
  have link : l = l' := unshared l l' (mem_of_getElem? found) (mem_of_getElem? found') same
  rw [link, found'] at found
  exact congrArg Link.source (Option.some.inj found).symm

/-- Links that are paired one-to-one and known by their drivers have drivers that are. -/
theorem Bijects.oneToOne {b : Binding} {left right : Link → Prop} (h : Bijects b left right)
    (unsharedLeft : Unshared left) (unsharedRight : Unshared right) : OneToOne (driverPairs b) := by
  intro x hx y hy
  constructor
  · refine driverPairs_functional (fun l l' mem mem' => ?_) hx hy
    exact unsharedLeft l l' ((h.keys l).mp mem) ((h.keys l').mp mem')
  · intro same
    obtain ⟨l, r, found, rfl⟩ := mem_driverPairs.mp hx
    obtain ⟨l', r', found', rfl⟩ := mem_driverPairs.mp hy
    have link : r = r' := unsharedRight r r' ((h.values r).mp ⟨l, found⟩) ((h.values r').mp ⟨l', found'⟩) same
    rw [link] at found
    exact congrArg Link.source (h.injective found found')

theorem mem_values {b : Binding} {r : Link} : r ∈ b.toList.map Prod.snd ↔ ∃ l : Link, b[l]? = some r := by
  rw [List.mem_map]
  constructor
  · rintro ⟨⟨l, _⟩, mem, rfl⟩
    exact ⟨l, TreeMap.mem_toList_iff_getElem?_eq_some.mp mem⟩
  · rintro ⟨l, found⟩
    exact ⟨(l, r), TreeMap.mem_toList_iff_getElem?_eq_some.mpr found, rfl⟩

/-- A binding between two lists of links without repetitions. -/
theorem bijects_of_lists {b : Binding} {left right : Link → Prop} {ls rs : List Link}
    (keys : b.toList.map Prod.fst = ls) (values : b.toList.map Prod.snd = rs) (nodup : rs.Nodup)
    (isLeft : ∀ l, l ∈ ls ↔ left l) (isRight : ∀ r, r ∈ rs ↔ right r) : Bijects b left right where
  keys l := by
    rw [← isLeft, ← keys, List.mem_map, TreeMap.mem_iff_isSome_getElem?, Option.isSome_iff_exists]
    constructor
    · rintro ⟨r, found⟩
      exact ⟨(l, r), TreeMap.mem_toList_iff_getElem?_eq_some.mpr found, rfl⟩
    · rintro ⟨⟨_, r⟩, mem, rfl⟩
      exact ⟨r, TreeMap.mem_toList_iff_getElem?_eq_some.mp mem⟩
  values r := by rw [← isRight, ← values, mem_values]
  injective := by
    intro l l' r found found'
    rw [← values] at nodup
    have same := List.inj_on_of_nodup_map nodup (TreeMap.mem_toList_iff_getElem?_eq_some.mpr found)
      (TreeMap.mem_toList_iff_getElem?_eq_some.mpr found') rfl
    exact congrArg Prod.fst same

/-! ## Sizes -/

/-- Lists without repetitions that have the same members are equally long. -/
theorem length_eq_of_mem_iff {α : Type} {xs ys : List α} (hx : xs.Nodup) (hy : ys.Nodup)
    (same : ∀ a, a ∈ xs ↔ a ∈ ys) : xs.length = ys.length :=
  ((List.perm_ext_iff_of_nodup hx hy).mpr same).length_eq

/-- A binding of a set of links has as many pairs as the set has links. -/
theorem size_eq_of_keys {b : Binding} {links : LinkSet} (keys : ∀ l, l ∈ b ↔ l ∈ links) : b.size = links.size := by
  rw [← TreeMap.length_keys, ← TreeSet.length_toList]
  refine length_eq_of_mem_iff (nodup_keys b) (nodup_toList links) fun l => ?_
  rw [TreeMap.mem_keys, TreeSet.mem_toList, keys]

/-- A binding that pairs no link twice lists each of its values once. -/
theorem nodup_values {b : Binding} (injective : ∀ {l l' r : Link}, b[l]? = some r → b[l']? = some r → l = l') :
    (b.toList.map Prod.snd).Nodup := by
  refine List.Nodup.map_on (fun x hx y hy same => ?_) (List.Nodup.of_map Prod.fst ?_)
  · have found := TreeMap.mem_toList_iff_getElem?_eq_some.mp hx
    have found' := TreeMap.mem_toList_iff_getElem?_eq_some.mp hy
    rw [same] at found
    exact Prod.ext (injective found found') same
  · rw [TreeMap.map_fst_toList_eq_keys]
    exact nodup_keys b

theorem Bijects.size_right {b : Binding} {left : Link → Prop} {links : LinkSet} (h : Bijects b left (· ∈ links)) :
    b.size = links.size := by
  have members : ∀ r, r ∈ b.toList.map Prod.snd ↔ r ∈ links.toList := by
    intro r
    rw [TreeSet.mem_toList, ← h.values r, mem_values]
  calc
    b.size = (b.toList.map Prod.snd).length := by rw [List.length_map, TreeMap.length_toList]
    _ = links.toList.length := length_eq_of_mem_iff (nodup_values h.injective) (nodup_toList links) members
    _ = links.size := TreeSet.length_toList

/-- A binding that pairs links of two sets one-to-one, and as many as there are, pairs all of them. -/
theorem Bijects.all {b : Binding} {left right : Link → Prop} (h : Bijects b left right) {xs ys : LinkSet}
    (isLeft : ∀ l, left l → l ∈ xs) (isRight : ∀ r, right r → r ∈ ys) (enoughLeft : xs.size ≤ b.size)
    (enoughRight : ys.size ≤ b.size) : Bijects b (· ∈ xs) (· ∈ ys) := by
  have allKeys : b.keys.Perm xs.toList := by
    apply (List.Nodup.subperm (nodup_keys b) _).perm_of_length_le
    · rw [TreeMap.length_keys, TreeSet.length_toList]
      exact enoughLeft
    · intro l mem
      exact TreeSet.mem_toList.mpr (isLeft l ((h.keys l).mp (TreeMap.mem_keys.mp mem)))
  have allValues : (b.toList.map Prod.snd).Perm ys.toList := by
    apply (List.Nodup.subperm (nodup_values h.injective) _).perm_of_length_le
    · rw [List.length_map, TreeMap.length_toList, TreeSet.length_toList]
      exact enoughRight
    · intro r mem
      exact TreeSet.mem_toList.mpr (isRight r ((h.values r).mp (mem_values.mp mem)))
  refine ⟨fun l => ?_, fun r => ?_, h.injective⟩
  · rw [← TreeMap.mem_keys, allKeys.mem_iff, TreeSet.mem_toList]
  · rw [← mem_values, allValues.mem_iff, TreeSet.mem_toList]

/-- If all of a set are images of as many, no image falls outside. -/
theorem image_mem_of_covered {xs ys : LinkSet} {f : Link → Link} (size : xs.size = ys.size)
    (covered : ∀ y ∈ ys, ∃ x ∈ xs, f x = y) : ∀ x ∈ xs, f x ∈ ys := by
  have inside : ∀ y ∈ ys.toList, y ∈ xs.toList.map f := by
    intro y mem
    obtain ⟨x, inside, rfl⟩ := covered y (TreeSet.mem_toList.mp mem)
    exact List.mem_map_of_mem (TreeSet.mem_toList.mpr inside)
  have perm := (List.Nodup.subperm (nodup_toList ys) inside).perm_of_length_le (by simp [size])
  intro x mem
  exact TreeSet.mem_toList.mp (perm.mem_iff.mpr (List.mem_map_of_mem (TreeSet.mem_toList.mpr mem)))

/-- Different links with different images. -/
theorem nodup_images {xs : LinkSet} {f : Link → Link} (injective : ∀ x ∈ xs, ∀ x' ∈ xs, f x = f x' → x = x') :
    (xs.toList.map f).Nodup := by
  refine List.Nodup.map_on (fun x hx x' hx' => ?_) (nodup_toList xs)
  exact injective x (TreeSet.mem_toList.mp hx) x' (TreeSet.mem_toList.mp hx')

/-- If different links have different images, there are as many images as links. -/
theorem size_eq_of_images {xs ys : LinkSet} {f : Link → Link}
    (injective : ∀ x ∈ xs, ∀ x' ∈ xs, f x = f x' → x = x') (images : ∀ y, y ∈ ys ↔ ∃ x ∈ xs, f x = y) :
    xs.size = ys.size := by
  have members : ∀ y, y ∈ xs.toList.map f ↔ y ∈ ys.toList := by
    intro y
    simp only [List.mem_map, TreeSet.mem_toList, images]
  calc
    xs.size = (xs.toList.map f).length := by rw [List.length_map, TreeSet.length_toList]
    _ = ys.toList.length := length_eq_of_mem_iff (nodup_images injective) (nodup_toList ys) members
    _ = ys.size := TreeSet.length_toList

/-- If different links have different images, as many images cover a set. -/
theorem covered_of_image_mem {xs ys : LinkSet} {f : Link → Link} (size : xs.size = ys.size)
    (injective : ∀ x ∈ xs, ∀ x' ∈ xs, f x = f x' → x = x') (image : ∀ x ∈ xs, f x ∈ ys) :
    ∀ y ∈ ys, ∃ x ∈ xs, f x = y := by
  have inside : ∀ y ∈ xs.toList.map f, y ∈ ys.toList := by
    intro y mem
    obtain ⟨x, inside, rfl⟩ := List.mem_map.mp mem
    exact TreeSet.mem_toList.mpr (image x (TreeSet.mem_toList.mp inside))
  have perm := (List.Nodup.subperm (nodup_images injective) inside).perm_of_length_le (by simp [size])
  intro y mem
  obtain ⟨x, inside, rfl⟩ := List.mem_map.mp (perm.mem_iff.mpr (TreeSet.mem_toList.mpr mem))
  exact ⟨x, TreeSet.mem_toList.mp inside, rfl⟩

/-! ## Ports added to a binding -/

theorem port_inj {a b : GateId} (h : Link.port a = Link.port b) : a = b := congrArg Link.source h

/-- Add pairs of ports to a binding. -/
def bindPorts (b : Binding) (pairs : List (GateId × GateId)) : Binding :=
  pairs.foldl (fun b x => b.insert (.port x.1) (.port x.2)) b

theorem bindPorts_append (b : Binding) (xs ys : List (GateId × GateId)) :
    bindPorts b (xs ++ ys) = bindPorts (bindPorts b xs) ys := List.foldl_append

/-- What is bound afterwards is one of the ports or was bound before. -/
theorem mem_bindPorts {b : Binding} {pairs : List (GateId × GateId)} {l : Link} :
    l ∈ bindPorts b pairs ↔ (∃ x ∈ pairs, .port x.1 = l) ∨ l ∈ b := mem_foldl_insert

/-- A pair of drivers that is bound afterwards is one of the pairs or was bound before. -/
theorem mem_of_driverPairs_bindPorts {b : Binding} {pairs : List (GateId × GateId)} {x : GateId × GateId}
    (mem : x ∈ driverPairs (bindPorts b pairs)) : x ∈ pairs ∨ x ∈ driverPairs b := by
  obtain ⟨l, r, found, rfl⟩ := mem_driverPairs.mp mem
  rcases row_of_getElem?_foldl_insert found with ⟨y, inside, rfl, rfl⟩ | ⟨_, before⟩
  · exact .inl inside
  · exact .inr (mem_driverPairs.mpr ⟨l, r, before, rfl⟩)

theorem getElem?_bindPorts {b : Binding} {pairs : List (GateId × GateId)}
    (functional : ∀ x ∈ pairs, ∀ y ∈ pairs, x.1 = y.1 → x.2 = y.2) {l r : Link} :
    (bindPorts b pairs)[l]? = some r ↔
      (∃ x ∈ pairs, l = .port x.1 ∧ r = .port x.2) ∨ (∀ x ∈ pairs, l ≠ .port x.1) ∧ b[l]? = some r := by
  induction pairs generalizing b with
  | nil => simp [bindPorts]
  | cons x pairs ih =>
    have later : ∀ y ∈ pairs, ∀ z ∈ pairs, y.1 = z.1 → y.2 = z.2 := fun y hy z hz =>
      functional y (List.mem_cons_of_mem x hy) z (List.mem_cons_of_mem x hz)
    rw [bindPorts, List.foldl_cons, ← bindPorts, ih later, TreeMap.getElem?_insert]
    simp only [LawfulEqCmp.compare_eq_iff_eq]
    constructor
    · rintro (⟨y, mem, isKey, isValue⟩ | ⟨away, found⟩)
      · exact .inl ⟨y, List.mem_cons_of_mem x mem, isKey, isValue⟩
      · split at found
        · next same => exact .inl ⟨x, List.mem_cons_self, same.symm, (Option.some.inj found).symm⟩
        · next other => exact .inr ⟨List.forall_mem_cons.mpr ⟨Ne.symm other, away⟩, found⟩
    · rintro (⟨y, mem, isKey, isValue⟩ | ⟨away, found⟩)
      · by_cases again : ∃ z ∈ pairs, l = .port z.1
        · obtain ⟨z, inside, isKey'⟩ := again
          have same : y.1 = z.1 := port_inj (isKey.symm.trans isKey')
          rw [functional y mem z (List.mem_cons_of_mem x inside) same] at isValue
          exact .inl ⟨z, inside, isKey', isValue⟩
        · rcases List.mem_cons.mp mem with rfl | inside
          · exact .inr ⟨fun z inside isKey' => again ⟨z, inside, isKey'⟩, by rw [if_pos isKey.symm, isValue]⟩
          · exact absurd ⟨y, inside, isKey⟩ again
      · rw [List.forall_mem_cons] at away
        exact .inr ⟨away.2, by rw [if_neg (Ne.symm away.1)]; exact found⟩

/-- Ports that were not bound before add their pairs of drivers, if no two of them lead to different ones. -/
theorem mem_driverPairs_bindPorts {b : Binding} {pairs : List (GateId × GateId)}
    (functional : ∀ x ∈ pairs, ∀ y ∈ pairs, x.1 = y.1 → x.2 = y.2) (unbound : ∀ x ∈ pairs, Link.port x.1 ∉ b)
    {x : GateId × GateId} : x ∈ driverPairs (bindPorts b pairs) ↔ x ∈ pairs ∨ x ∈ driverPairs b := by
  simp only [mem_driverPairs, getElem?_bindPorts functional]
  constructor
  · rintro ⟨l, r, ⟨y, mem, rfl, rfl⟩ | ⟨_, found⟩, rfl⟩
    · exact .inl mem
    · exact .inr ⟨l, r, found, rfl⟩
  · rintro (mem | ⟨l, r, found, rfl⟩)
    · exact ⟨.port x.1, .port x.2, .inl ⟨x, mem, rfl, rfl⟩, rfl⟩
    · refine ⟨l, r, .inr ⟨fun y mem isKey => unbound y mem ?_, found⟩, rfl⟩
      rw [← isKey]
      exact mem_of_getElem? found

end LogicNet
