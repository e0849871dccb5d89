import Std.Data.String.ToNat
import LogicNet.Bench.Statement
import LogicNet.Bench.Writer
import LogicNet.Proofs.Result
import LogicNet.Proofs.Text.Word

/-!
# Lines that can be read back

A declaration or a definition that is written on a line is the statement of this line, as long as its names are
words. The identifiers of gates are, and no two of them have one text. So the statements of a text are those of the
lines it was made of (`statements_join`).
-/

namespace LogicNet

namespace Bench

open Text

/-! ## Names -/

/-- What separates the parts of a definition. -/
def separators : List Char := ['=', '(', ',', ')']

/-- A word that fits on a line. -/
structure IsName (name : String) : Prop where
  word : IsWord separators name.toList
  singleLine : '\n' ∉ name.toList

/-- A character that is neither blank nor means anything. -/
def isPlainChar (c : Char) : Bool := !isBlank c && !separators.contains c

theorem isPlainChar_iff {c : Char} : isPlainChar c = true ↔ isBlank c = false ∧ separators.contains c = false := by
  rw [isPlainChar, Bool.and_eq_true, Bool.not_eq_true', Bool.not_eq_true']

/-- Plain characters make a name. -/
theorem isName_of_plain {name : String} (nonempty : name.toList ≠ []) (plain : name.toList.all isPlainChar = true) :
    IsName name := by
  have each : ∀ c ∈ name.toList, isBlank c = false ∧ separators.contains c = false := by
    intro c mem
    exact isPlainChar_iff.mp (List.all_eq_true.mp plain c mem)
  exact {
    word := {
      first c mem := (each c (List.mem_of_mem_head? mem)).1
      last c mem := (each c (List.mem_of_getLast? mem)).1
      nonempty
      whole c mem := (each c mem).2 }
    singleLine mem := absurd (each _ mem).1 (by decide) }

theorem isPlainChar_of_isDigit {c : Char} (digit : c.isDigit = true) : isPlainChar c = true := by
  rw [isPlainChar_iff]
  have range : 48 ≤ c.toNat ∧ c.toNat ≤ 57 := by
    simp only [Char.isDigit, Bool.and_eq_true, decide_eq_true_eq] at digit
    exact ⟨digit.1, digit.2⟩
  constructor
  · simp only [isBlank, Bool.or_eq_false_iff, Bool.and_eq_false_iff, decide_eq_false_iff_not, beq_eq_false_iff_ne]
    omega
  · rw [List.contains_eq_mem, decide_eq_false_iff_not]
    intro mem
    simp only [separators, List.mem_cons, List.not_mem_nil, or_false] at mem
    rcases mem with rfl | rfl | rfl | rfl <;> exact absurd digit (by decide)

theorem toList_text (g : GateId) : g.text.toList = 'g' :: Nat.toDigits 10 g.index := by
  rw [GateId.text, String.toList_append]
  exact congrArg ('g' :: ·) String.toList_ofList

/-- The identifier of a gate is a name. -/
theorem isName_text (g : GateId) : IsName g.text := by
  apply isName_of_plain
  · rw [toList_text]
    exact List.cons_ne_nil _ _
  · rw [toList_text, List.all_cons, Bool.and_eq_true, List.all_eq_true]
    refine ⟨by decide, fun c mem => ?_⟩
    exact isPlainChar_of_isDigit (Nat.isDigit_of_mem_toDigits (by decide) (by decide) mem)

theorem text_injective : Function.Injective GateId.text := by
  intro g h same
  have digits : Nat.toDigits 10 g.index = Nat.toDigits 10 h.index := by
    have := congrArg String.toList same
    rw [toList_text, toList_text] at this
    exact (List.cons.inj this).2
  have numbers : g.index = h.index := Nat.repr_inj.mp (congrArg String.ofList digits)
  exact congrArg GateId.mk numbers

/-! ## Declarations and definitions -/

/-- A line that neither is empty nor starts with a mark says something. -/
theorem ofLine_of_isTrimmed {line : List Char} (trimmed : IsTrimmed line) (nonempty : line ≠ [])
    (mark : line.head? ≠ some '#') :
    Statement.ofLine line =
      some <$> if line.contains '=' then Statement.definition line else Statement.declaration line := by
  unfold Statement.ofLine
  rw [trim_of_isTrimmed trimmed]
  split
  · exact absurd rfl nonempty
  · exact absurd rfl mark
  · rfl

/-- A port as it is written. -/
def portLine (keyword name : String) : String := keyword ++ "(" ++ name ++ ")"

/-- A definition as it is written. -/
def Definition.line (d : Definition) : String :=
  d.name ++ " = " ++ d.kind ++ if d.operands = [] then "" else "(" ++ ", ".intercalate d.operands ++ ")"

/-- All parts of a definition are names. -/
structure Definition.IsWritten (d : Definition) : Prop where
  name : IsName d.name
  kind : IsName d.kind
  operands : ∀ operand ∈ d.operands, IsName operand

theorem pieces_operands {operands : List String} (names : ∀ operand ∈ operands, IsName operand) :
    pieces separators ((", ".intercalate operands).toList ++ [')']) = operands := by
  have comma : ", ".toList = [',', ' '] := rfl
  rw [String.toList_intercalate, comma]
  induction operands with
  | nil => rfl
  | cons operand operands ih =>
    rw [List.forall_mem_cons] at names
    cases operands with
    | nil =>
      rw [List.map_singleton, List.intercalate_singleton, pieces_word names.1.word rfl, String.ofList_toList]
      rfl
    | cons next operands =>
      rw [List.map_cons, List.map_cons, List.intercalate_cons_cons, ← List.map_cons, List.append_assoc,
        List.append_assoc, List.cons_append, List.singleton_append, pieces_word names.1.word rfl,
        pieces_cons_blank rfl rfl, ih names.2, String.ofList_toList]

/-- What a definition says about its operands, if it has any. -/
def operandChars (operands : List String) : List Char :=
  if operands = [] then [] else '(' :: ((", ".intercalate operands).toList ++ [')'])

theorem Definition.toList_line (d : Definition) :
    d.line.toList = d.name.toList ++ ' ' :: '=' :: ' ' :: (d.kind.toList ++ operandChars d.operands) := by
  have equals : " = ".toList = [' ', '=', ' '] := rfl
  unfold Definition.line operandChars
  rw [String.toList_append, String.toList_append, String.toList_append, equals, List.append_assoc, List.append_assoc]
  split
  · rfl
  · rw [String.toList_append, String.toList_append]
    rfl

theorem pieces_line {d : Definition} (h : d.IsWritten) :
    pieces separators d.line.toList = d.name :: d.kind :: d.operands := by
  rw [d.toList_line, pieces_word_blank h.name.word rfl rfl rfl, pieces_cons_blank rfl rfl, String.ofList_toList]
  congr 1
  unfold operandChars
  split
  · next none => rw [List.append_nil, pieces_last h.kind.word, String.ofList_toList, none]
  · rw [pieces_word h.kind.word rfl, pieces_operands h.operands, String.ofList_toList]

theorem isTrimmed_line {d : Definition} (h : d.IsWritten) : IsTrimmed d.line.toList := by
  rw [d.toList_line]
  unfold operandChars
  split
  · rw [List.append_nil]
    exact h.name.word.toIsTrimmed.around h.kind.word.toIsTrimmed h.name.word.nonempty h.kind.word.nonempty
      [' ', '=', ' ']
  · have bracket : IsTrimmed [')'] := isTrimmed_singleton rfl
    have := h.name.word.toIsTrimmed.around bracket h.name.word.nonempty (by decide)
      (' ' :: '=' :: ' ' :: (d.kind.toList ++ '(' :: (", ".intercalate d.operands).toList))
    simpa using this

theorem singleLine_operands {operands : List String} (names : ∀ operand ∈ operands, IsName operand) :
    '\n' ∉ (", ".intercalate operands).toList := by
  have comma : ", ".toList = [',', ' '] := rfl
  rw [String.toList_intercalate, comma]
  induction operands with
  | nil => nofun
  | cons operand operands ih =>
    rw [List.forall_mem_cons] at names
    cases operands with
    | nil =>
      rw [List.map_singleton, List.intercalate_singleton]
      exact names.1.singleLine
    | cons next operands =>
      rw [List.map_cons, List.map_cons, List.intercalate_cons_cons, ← List.map_cons]
      intro mem
      rcases List.mem_append.mp mem with mem | mem
      · rcases List.mem_append.mp mem with mem | mem
        · exact names.1.singleLine mem
        · exact absurd mem (by decide)
      · exact ih names.2 mem

theorem singleLine_line {d : Definition} (h : d.IsWritten) : '\n' ∉ d.line.toList := by
  have operands : '\n' ∉ operandChars d.operands := by
    unfold operandChars
    split
    · nofun
    · simpa using singleLine_operands h.operands
  have name := h.name.singleLine
  have kind := h.kind.singleLine
  rw [d.toList_line]
  simp_all

/-- A written definition is read back. -/
theorem ofLine_definition {d : Definition} (h : d.IsWritten) (mark : d.name.toList.head? ≠ some '#') :
    Statement.ofLine d.line.toList = .ok (some (.gate d)) := by
  have equals : d.line.toList.contains '=' = true := by
    rw [d.toList_line]
    simp
  have head : d.line.toList.head? = d.name.toList.head? := by
    rw [d.toList_line, List.head?_append_of_ne_nil _ h.name.word.nonempty]
  have nonempty : d.line.toList ≠ [] := by
    rw [d.toList_line]
    simp
  have pieces : Text.pieces ['=', '(', ',', ')'] d.line.toList = d.name :: d.kind :: d.operands := pieces_line h
  rw [ofLine_of_isTrimmed (isTrimmed_line h) nonempty (head ▸ mark), if_pos equals]
  simp only [Statement.definition, pieces]
  rfl

section Ports

variable {keyword name : String}

theorem toList_portLine : (portLine keyword name).toList = keyword.toList ++ '(' :: (name.toList ++ [')']) := by
  rw [portLine, String.toList_append, String.toList_append, String.toList_append, List.append_assoc, List.append_assoc]
  rfl

variable (h : IsName keyword) (h' : IsName name)
include h h'

theorem pieces_portLine : pieces ['(', ')'] (portLine keyword name).toList = [keyword, name] := by
  have fewer : ∀ c ∈ ['(', ')'], c ∈ separators := by simp [separators]
  rw [toList_portLine, pieces_word (h.word.mono fewer) rfl, pieces_word (h'.word.mono fewer) rfl, pieces_nil,
    String.ofList_toList, String.ofList_toList]

theorem singleLine_portLine : '\n' ∉ (portLine keyword name).toList := by
  have := h.singleLine
  have := h'.singleLine
  rw [toList_portLine]
  simp_all

/-- A declaration has no equals sign. -/
theorem ofLine_portLine (mark : keyword.toList.head? ≠ some '#') :
    Statement.ofLine (portLine keyword name).toList =
      some <$> Statement.declaration (portLine keyword name).toList := by
  have trimmed : IsTrimmed (portLine keyword name).toList := by
    have bracket : IsTrimmed [')'] := isTrimmed_singleton rfl
    have := h.word.toIsTrimmed.around bracket h.word.nonempty (by decide) ('(' :: name.toList)
    rw [toList_portLine]
    simpa using this
  have head : (portLine keyword name).toList.head? = keyword.toList.head? := by
    rw [toList_portLine, List.head?_append_of_ne_nil _ h.word.nonempty]
  have noEquals : '=' ∉ (portLine keyword name).toList := by
    intro mem
    rw [toList_portLine, List.mem_append, List.mem_cons, List.mem_append] at mem
    rcases mem with inside | equal | inside | bracket
    · exact absurd (h.word.whole _ inside) (by decide)
    · exact absurd equal (by decide)
    · exact absurd (h'.word.whole _ inside) (by decide)
    · exact absurd bracket (by decide)
  rw [ofLine_of_isTrimmed trimmed (by simp [toList_portLine]) (head ▸ mark),
    if_neg (by rwa [List.contains_iff_mem])]

end Ports

theorem isName_input : IsName "INPUT" := isName_of_plain (by decide) (by decide)

theorem isName_output : IsName "OUTPUT" := isName_of_plain (by decide) (by decide)

theorem ofLine_input {name : String} (h : IsName name) :
    Statement.ofLine (portLine "INPUT" name).toList = .ok (some (.input name)) := by
  rw [ofLine_portLine isName_input h (by decide), Statement.declaration, pieces_portLine isName_input h]
  rfl

theorem ofLine_output {name : String} (h : IsName name) :
    Statement.ofLine (portLine "OUTPUT" name).toList = .ok (some (.output name)) := by
  rw [ofLine_portLine isName_output h (by decide), Statement.declaration, pieces_portLine isName_output h]
  rfl

/-! ## Texts -/

/-- The statements of a text are those of its lines. -/
theorem statements_join {rows : List (String × Option Statement)}
    (read : ∀ row ∈ rows, '\n' ∉ row.1.toList ∧ Statement.ofLine row.1.toList = .ok row.2) :
    statements (String.join ((rows.map Prod.fst).map (· ++ "\n"))).toUTF8 = .ok (rows.filterMap Prod.snd) := by
  have each : ∀ row ∈ rows ++ [("", none)], statementOfBytes row.1.toUTF8 = .ok row.2 := by
    intro row mem
    have said : Statement.ofLine row.1.toList = .ok row.2 := by
      rcases List.mem_append.mp mem with mem | mem
      · exact (read row mem).2
      · rw [List.mem_singleton.mp mem]
        rfl
    unfold statementOfBytes
    rw [decode?_toUTF8]
    simp only [said]
  have lines : Text.lines (String.join ((rows.map Prod.fst).map (· ++ "\n"))).toUTF8 =
      (rows ++ [("", none)]).map (String.toUTF8 ∘ Prod.fst) := by
    rw [lines_join (by simpa using fun name s mem => (read (name, s) mem).1)]
    simp
  have all : ((rows ++ [("", none)]).map (String.toUTF8 ∘ Prod.fst)).mapM statementOfBytes =
      .ok ((rows ++ [("", none)]).map Prod.snd) := by
    rw [List.mapM_map]
    exact Result.mapM_of_each each
  unfold statements
  rw [lines, all]
  simp

/-- Every statement of a text is that of one of its lines. -/
theorem line_of_statement {bytes : ByteArray} {said : List Statement} (spoken : statements bytes = .ok said)
    {statement : Statement} (mem : statement ∈ said) :
    ∃ line, '\n' ∉ line ∧ Statement.ofLine line = .ok (some statement) := by
  obtain ⟨results, all, spoken⟩ := Result.bind_eq_ok.mp spoken
  cases spoken
  obtain ⟨length, each⟩ := Result.mapM_eq_ok all
  obtain ⟨_, result, rfl⟩ := List.mem_filterMap.mp mem
  obtain ⟨i, here⟩ := List.mem_iff_getElem?.mp result
  have inside : i < (lines bytes).length := length ▸ (List.getElem?_eq_some_iff.mp here).1
  obtain ⟨y, there, made⟩ := each i _ (List.getElem?_eq_getElem inside)
  rw [here] at there
  cases there
  unfold statementOfBytes at made
  split at made
  · cases made
  · next line decoded =>
    split at made
    · next s read =>
      cases made
      exact ⟨line, singleLine_of_mem_lines (List.getElem_mem inside) decoded, read⟩
    · cases made

/-- Only a definition defines a gate. -/
theorem definition_of_ofLine {line : List Char} {d : Definition} (read : Statement.ofLine line = .ok (some (.gate d))) :
    Statement.definition (trim line) = .ok (.gate d) := by
  have gate : (if (trim line).contains '=' then Statement.definition (trim line)
      else Statement.declaration (trim line)) = .ok (.gate d) := by
    unfold Statement.ofLine at read
    split at read
    · cases read
    · cases read
    · cases made : if (trim line).contains '=' then Statement.definition (trim line)
          else Statement.declaration (trim line) with
      | error e =>
        rw [made] at read
        cases read
      | ok s =>
        rw [made] at read
        cases read
        rfl
  split at gate
  · exact gate
  · unfold Statement.declaration at gate
    split at gate
    · split at gate
      · cases gate
      · split at gate <;> cases gate
    · cases gate

/-- The parts of a definition are words of its line. -/
theorem isWritten_of_ofLine {line : List Char} {d : Definition} (singleLine : '\n' ∉ line)
    (read : Statement.ofLine line = .ok (some (.gate d))) : d.IsWritten := by
  have made := definition_of_ofLine read
  have parts : pieces separators (trim line) = d.name :: d.kind :: d.operands := by
    unfold Statement.definition at made
    split at made
    · next pieces =>
      cases made
      exact pieces
    · cases made
  have isName : ∀ word ∈ d.name :: d.kind :: d.operands, IsName word := by
    intro word mem
    obtain ⟨isWord, chars⟩ := isWord_of_mem_pieces (parts ▸ mem)
    exact ⟨isWord, fun inside => singleLine (mem_of_mem_trim (chars _ inside))⟩
  rw [List.forall_mem_cons, List.forall_mem_cons] at isName
  exact ⟨isName.1, isName.2.1, isName.2.2⟩

end Bench

end LogicNet
