import Mathlib.Data.List.Basic
import LogicNet.Text.Line

/-!
# Words of a line

A line is cut at its separators, and what is left of the pieces are WORDS: they are not empty, have no blanks at their
ends, and hold no separator (`isWord_of_mem_pieces`). Words that are put together with separators and blanks in between
are found again (`pieces_word`, `pieces_last`), so a line can be read back piece by piece. Lines that are put together
with line feeds are found again too (`lines_join`).
-/

namespace LogicNet

namespace Text

/-! ## Cutting -/

section Cut

variable {α : Type} {separates : α → Bool} {xs : List α}

theorem cut_cons_of_separates {c : α} (separator : separates c = true) :
    cut separates (c :: xs) = [] :: cut separates xs := by
  unfold cut
  rw [List.foldr_cons]
  split
  next made =>
    simp only [separator, if_true] at made
    cases made
    rfl

theorem cut_cons_of_not {x : α} (plain : separates x = false) {first : List α} {others : List (List α)}
    (parts : cut separates xs = first :: others) : cut separates (x :: xs) = (x :: first) :: others := by
  unfold cut at *
  rw [List.foldr_cons]
  split
  next made =>
    simp only [plain, Bool.false_eq_true, if_false] at made
    cases made
    cases parts
    rfl

theorem cut_of_none (none : ∀ x ∈ xs, separates x = false) : cut separates xs = [xs] := by
  induction xs with
  | nil => rfl
  | cons x xs ih =>
    rw [List.forall_mem_cons] at none
    exact cut_cons_of_not none.1 (ih none.2)

theorem cut_append (none : ∀ x ∈ xs, separates x = false) {c : α} (separator : separates c = true) (rest : List α) :
    cut separates (xs ++ c :: rest) = xs :: cut separates rest := by
  induction xs with
  | nil => exact cut_cons_of_separates separator
  | cons x xs ih =>
    rw [List.forall_mem_cons] at none
    exact cut_cons_of_not none.1 (ih none.2)

/-- The parts are made of what separates nothing. -/
theorem mem_of_mem_cut {part : List α} (mem : part ∈ cut separates xs) {x : α} (inside : x ∈ part) :
    x ∈ xs ∧ separates x = false := by
  induction xs generalizing part with
  | nil =>
    rw [List.mem_singleton.mp mem] at inside
    cases inside
  | cons y xs ih =>
    cases separator : separates y with
    | true =>
      rw [cut_cons_of_separates separator] at mem
      rcases List.mem_cons.mp mem with rfl | later
      · cases inside
      · exact ⟨List.mem_cons_of_mem _ (ih later inside).1, (ih later inside).2⟩
    | false =>
      obtain ⟨first, others, parts⟩ : ∃ first others, cut separates xs = first :: others := ⟨_, _, rfl⟩
      rw [cut_cons_of_not separator parts] at mem
      rcases List.mem_cons.mp mem with rfl | later
      · rcases List.mem_cons.mp inside with rfl | inside
        · exact ⟨List.mem_cons_self, separator⟩
        · have within := ih (parts ▸ List.mem_cons_self) inside
          exact ⟨List.mem_cons_of_mem _ within.1, within.2⟩
      · have within := ih (parts ▸ List.mem_cons_of_mem _ later) inside
        exact ⟨List.mem_cons_of_mem _ within.1, within.2⟩

end Cut

/-! ## Trimming -/

section Trim

variable {cs : List Char}

/-- No blanks at either end. -/
structure IsTrimmed (cs : List Char) : Prop where
  first : ∀ c ∈ cs.head?, isBlank c = false
  last : ∀ c ∈ cs.getLast?, isBlank c = false

theorem isTrimmed_singleton {c : Char} (plain : isBlank c = false) : IsTrimmed [c] where
  first x mem := by rwa [← Option.mem_some_iff.mp mem]
  last x mem := by rwa [← Option.mem_some_iff.mp mem]

/-- What stands between does not matter. -/
theorem IsTrimmed.around {before after : List Char} (h : IsTrimmed before) (h' : IsTrimmed after)
    (nonempty : before ≠ []) (nonempty' : after ≠ []) (between : List Char) :
    IsTrimmed (before ++ (between ++ after)) where
  first := by
    rw [List.head?_append_of_ne_nil _ nonempty]
    exact h.first
  last := by
    rw [← List.append_assoc, List.getLast?_append_of_ne_nil _ nonempty']
    exact h'.last

theorem dropWhile_eq_self (first : ∀ c ∈ cs.head?, isBlank c = false) : cs.dropWhile isBlank = cs := by
  cases cs with
  | nil => rfl
  | cons c cs => rw [List.dropWhile_cons_of_neg (by simp [first c rfl])]

theorem trim_of_isTrimmed (h : IsTrimmed cs) : trim cs = cs := by
  unfold trim
  rw [dropWhile_eq_self h.first, dropWhile_eq_self (by simpa using h.last), List.reverse_reverse]

theorem first_dropWhile (cs : List Char) : ∀ c ∈ (cs.dropWhile isBlank).head?, isBlank c = false := by
  intro c mem
  have := List.head?_dropWhile_not isBlank cs
  rw [mem] at this
  simpa using this

theorem isTrimmed_trim (cs : List Char) : IsTrimmed (trim cs) := by
  have start : trim cs <+: cs.dropWhile isBlank := by
    rw [← List.reverse_suffix, trim, List.reverse_reverse]
    exact List.dropWhile_suffix _
  constructor
  · intro c mem
    obtain ⟨rest, eq⟩ := start
    apply first_dropWhile cs c
    rw [← eq, List.head?_append, mem]
    rfl
  · rw [trim, List.getLast?_reverse]
    exact first_dropWhile _

theorem mem_of_mem_trim {c : Char} (mem : c ∈ trim cs) : c ∈ cs := by
  rw [trim, List.mem_reverse] at mem
  have inside := (List.dropWhile_suffix _).subset mem
  rw [List.mem_reverse] at inside
  exact (List.dropWhile_suffix _).subset inside

theorem trim_cons_blank {c : Char} (blank : isBlank c = true) : trim (c :: cs) = trim cs := by
  unfold trim
  rw [List.dropWhile_cons_of_pos blank]

/-- A blank after a word is dropped. -/
theorem trim_append_blank (h : IsTrimmed cs) {c : Char} (blank : isBlank c = true) : trim (cs ++ [c]) = cs := by
  have ends : (cs ++ [c]).dropWhile isBlank = cs ++ [c] ∨ cs = [] := by
    cases cs with
    | nil => exact .inr rfl
    | cons d cs => exact .inl (dropWhile_eq_self h.first)
  rcases ends with kept | rfl
  · rw [trim, kept, List.reverse_append, List.reverse_singleton, List.singleton_append,
      List.dropWhile_cons_of_pos blank, dropWhile_eq_self (by simpa using h.last), List.reverse_reverse]
  · exact trim_cons_blank blank

end Trim

/-! ## Words -/

/-- A piece that cutting and trimming leaves as it is. -/
structure IsWord (separators : List Char) (cs : List Char) : Prop extends IsTrimmed cs where
  nonempty : cs ≠ []
  whole : ∀ c ∈ cs, separators.contains c = false

/-- A word stays one where less separates. -/
theorem IsWord.mono {separators few cs : List Char} (h : IsWord separators cs) (fewer : ∀ c ∈ few, c ∈ separators) :
    IsWord few cs where
  toIsTrimmed := h.toIsTrimmed
  nonempty := h.nonempty
  whole c mem := by
    have whole := h.whole c mem
    rw [List.contains_eq_mem, decide_eq_false_iff_not] at whole ⊢
    exact fun separates => whole (fewer c separates)

section Words

variable {separators cs : List Char}

theorem isWord_of_mem_pieces {word : String} (mem : word ∈ pieces separators cs) :
    IsWord separators word.toList ∧ ∀ c ∈ word.toList, c ∈ cs := by
  unfold pieces at mem
  obtain ⟨piece, inside, rfl⟩ := List.mem_map.mp mem
  obtain ⟨inside, nonempty⟩ := List.mem_filter.mp inside
  obtain ⟨part, isPart, rfl⟩ := List.mem_map.mp inside
  rw [String.toList_ofList]
  refine ⟨⟨isTrimmed_trim part, by simpa using nonempty, ?_⟩, ?_⟩
  · intro c here
    exact (mem_of_mem_cut isPart (mem_of_mem_trim here)).2
  · intro c here
    exact (mem_of_mem_cut isPart (mem_of_mem_trim here)).1

theorem pieces_nil : pieces separators [] = [] := rfl

/-- Blanks before a line do not matter. -/
theorem pieces_cons_blank {c : Char} (blank : isBlank c = true) (plain : separators.contains c = false) :
    pieces separators (c :: cs) = pieces separators cs := by
  obtain ⟨first, others, parts⟩ : ∃ first others, cut separators.contains cs = first :: others := ⟨_, _, rfl⟩
  unfold pieces
  rw [cut_cons_of_not plain parts, parts, List.map_cons, List.map_cons, trim_cons_blank blank]

/-- A word up to a separator is the first piece, with or without a blank after it. -/
theorem pieces_word {word : List Char} (h : IsWord separators word) {c : Char}
    (separator : separators.contains c = true) :
    pieces separators (word ++ c :: cs) = String.ofList word :: pieces separators cs := by
  unfold pieces
  rw [cut_append h.whole separator, List.map_cons, trim_of_isTrimmed h.toIsTrimmed, List.filter_cons_of_pos,
    List.map_cons]
  simpa using h.nonempty

theorem pieces_word_blank {word : List Char} (h : IsWord separators word) {b : Char} (blank : isBlank b = true)
    (plain : separators.contains b = false) {c : Char} (separator : separators.contains c = true) :
    pieces separators (word ++ b :: c :: cs) = String.ofList word :: pieces separators cs := by
  have whole : ∀ x ∈ word ++ [b], separators.contains x = false := by
    intro x mem
    rcases List.mem_append.mp mem with mem | mem
    · exact h.whole x mem
    · rw [List.mem_singleton.mp mem]
      exact plain
  unfold pieces
  rw [show word ++ b :: c :: cs = (word ++ [b]) ++ c :: cs by simp, cut_append whole separator, List.map_cons,
    trim_append_blank h.toIsTrimmed blank, List.filter_cons_of_pos, List.map_cons]
  simpa using h.nonempty

/-- A word at the end of a line is the last piece. -/
theorem pieces_last {word : List Char} (h : IsWord separators word) :
    pieces separators word = [String.ofList word] := by
  unfold pieces
  rw [cut_of_none h.whole, List.map_singleton, trim_of_isTrimmed h.toIsTrimmed, List.filter_cons_of_pos]
  · rfl
  · simpa using h.nonempty

end Words

/-! ## Lines -/

theorem toList_bytes (bytes : ByteArray) : bytes.toList = bytes.data.toList := by
  have loop : ∀ i r, ByteArray.toList.loop bytes i r = r.reverse ++ bytes.data.toList.drop i := by
    intro i r
    fun_induction ByteArray.toList.loop bytes i r with
    | case1 i r lt ih =>
      have inside : i < bytes.data.toList.length := lt
      have entry : bytes.get! i = bytes.data.toList[i] := getElem!_pos ..
      rw [ih, List.reverse_cons, List.append_assoc, List.drop_eq_getElem_cons inside, entry]
      rfl
    | case2 i r ge =>
      have ge' : bytes.data.toList.length ≤ i := Nat.le_of_not_lt ge
      rw [List.drop_eq_nil_of_le ge', List.append_nil]
  exact loop 0 []

theorem decode?_toUTF8 (s : String) : decode? s.toUTF8 = some s.toList := by
  unfold decode? String.fromUTF8?
  rw [String.toUTF8_eq_toByteArray, dif_pos s.isValidUTF8]
  rfl

/-- The bytes of a text are those of its characters. -/
theorem toList_toUTF8 (s : String) : s.toUTF8.data.toList = s.toList.flatMap String.utf8EncodeChar := by
  rw [String.toUTF8_eq_toByteArray, ← String.utf8Encode_toList, List.utf8Encode, List.data_toByteArray]

/-- Only a line feed has the byte of a line feed. -/
theorem lineFeed_of_mem {c : Char} (mem : (10 : UInt8) ∈ String.utf8EncodeChar c) : c = '\n' := by
  have number : c.toNat = 10 := by
    unfold String.utf8EncodeChar at mem
    have ten : (10 : UInt8).toNat = 10 := rfl
    simp only at mem
    split at mem
    · next small =>
      have eq := congrArg UInt8.toNat (List.mem_singleton.mp mem)
      rw [UInt8.toNat_ofNat', ten] at eq
      show c.val.toNat = 10
      omega
    · exfalso
      -- All bytes of a longer sequence are at least 128.
      split at mem
      · simp only [List.mem_cons, List.not_mem_nil, or_false] at mem
        rcases mem with eq | eq <;> replace eq := congrArg UInt8.toNat eq <;>
          rw [UInt8.toNat_ofNat', ten] at eq <;> omega
      · split at mem
        · simp only [List.mem_cons, List.not_mem_nil, or_false] at mem
          rcases mem with eq | eq | eq <;> replace eq := congrArg UInt8.toNat eq <;>
            rw [UInt8.toNat_ofNat', ten] at eq <;> omega
        · simp only [List.mem_cons, List.not_mem_nil, or_false] at mem
          rcases mem with eq | eq | eq | eq <;> replace eq := congrArg UInt8.toNat eq <;>
            rw [UInt8.toNat_ofNat', ten] at eq <;> omega
  exact Char.toNat_inj.mp number

/-- The lines of a text that ends with a line feed are those it was made of, and an empty one. -/
theorem lines_join {ls : List String} (plain : ∀ l ∈ ls, '\n' ∉ l.toList) :
    lines (String.join (ls.map (· ++ "\n"))).toUTF8 = (ls ++ [""]).map String.toUTF8 := by
  have feed : String.utf8EncodeChar '\n' = [10] := rfl
  have bytes : ∀ s : String, (⟨(s.toList.flatMap String.utf8EncodeChar).toArray⟩ : ByteArray) = s.toUTF8 := by
    intro s
    rw [← toList_toUTF8]
  unfold lines
  rw [toList_bytes, toList_toUTF8, String.toList_join]
  induction ls with
  | nil => rfl
  | cons l ls ih =>
    rw [List.forall_mem_cons] at plain
    have none : ∀ b ∈ l.toList.flatMap String.utf8EncodeChar, (b == 10) = false := by
      intro b mem
      obtain ⟨c, inside, mem⟩ := List.mem_flatMap.mp mem
      rw [beq_eq_false_iff_ne]
      rintro rfl
      exact plain.1 (lineFeed_of_mem mem ▸ inside)
    rw [List.map_cons, List.flatMap_cons, String.toList_append, List.flatMap_append, List.flatMap_append,
      show "\n".toList = ['\n'] from rfl, List.flatMap_singleton, feed, List.append_assoc, List.singleton_append,
      cut_append none rfl, List.map_cons, ih plain.2, bytes]
    rfl

/-- A line has no line feed. -/
theorem singleLine_of_mem_lines {bytes line : ByteArray} (mem : line ∈ lines bytes) {cs : List Char}
    (decoded : decode? line = some cs) : '\n' ∉ cs := by
  intro inside
  obtain ⟨s, read, rfl⟩ := Option.map_eq_some_iff.mp decoded
  obtain ⟨part, cut, rfl⟩ := List.mem_map.mp mem
  have bytes : s.toUTF8.data.toList = part := by
    unfold String.fromUTF8? at read
    split at read
    · cases read
      rfl
    · cases read
  have feed : (10 : UInt8) ∈ part := by
    rw [← bytes, toList_toUTF8]
    exact List.mem_flatMap.mpr ⟨'\n', inside, by decide⟩
  exact absurd (mem_of_mem_cut cut feed).2 (by decide)

end Text

end LogicNet
