import Mathlib.Tactic
import WordLang.Assembly

/-!
# Rows of assembly text

An assembler reads a text row by row: a row defines a symbol or a target of jumps, declares a symbol,
holds data, or is an instruction, with a mnemonic and operands that are divided by commas. The text of
lines is read as these lines again, as long as their symbols have the characters that symbols may have
and are no names of registers.

## Main definitions

* `Assembly.rows`, `Assembly.readRow?`: the rows of a text, and what a row is read as
* `Assembly.read?`: the lines that a text is read as
* `Assembly.labelRows`: the symbols that the rows of a text define
* `Assembly.decode?`: the bytes that a literal stands for

## Main results

* `Assembly.decode?_literal`: a literal stands for the bytes of its text
* `Assembly.read?_render`: the text of lines is read as these lines
* `Assembly.labelRows_render`: the rows of lines define what the lines define
-/

namespace WordLang.Assembly

variable {c : Char} {text : List Char} {symbol : String}

/-! ## Parts of rows -/

/-- What comes before the first of given characters in a text, and what comes after it. -/
def cutAt (sep : Char) : List Char → List Char × List Char
  | [] => ([], [])
  | c :: text => if c = sep then ([], text) else (c :: (cutAt sep text).1, (cutAt sep text).2)

theorem cutAt_append {sep : Char} {first : List Char} (h : sep ∉ first) (rest : List Char) :
    cutAt sep (first ++ sep :: rest) = (first, rest) := by
  induction first with
  | nil => exact if_pos rfl
  | cons c first ih =>
    rw [List.mem_cons, not_or] at h
    rw [List.cons_append, cutAt, if_neg (Ne.symm h.1), ih h.2]

theorem isDigit_of_mem_toString {n : Nat} (h : c ∈ (toString n).toList) : c.isDigit = true := by
  rw [Nat.toString_eq_ofList_toDigits, String.toList_ofList] at h
  exact Nat.isDigit_of_mem_toDigits (by decide) (by decide) h

/-- The text of a number starts with a digit or a minus sign. -/
theorem exists_toString_int (n : Int) : (∃ m : Nat, n = m ∧ toString n = toString m) ∨
    ∃ m : Nat, n = -(m : Int) ∧ toString n = "-" ++ toString m := by
  cases n with
  | ofNat m => exact .inl ⟨m, rfl, rfl⟩
  | negSucc m => exact .inr ⟨m + 1, rfl, rfl⟩

/-- Whether a character may be part of a symbol. -/
def isSymbolChar (c : Char) : Bool := c.isAlphanum || c ∈ ['_', '?', '.', '$', '#', '@', '~']

/-- Whether a text is a symbol. It starts with a letter, an underscore or a question mark, and it is no
name of a register. -/
def isSymbol (text : List Char) : Bool :=
  text.head?.any (fun c => !c.isDigit && c ∉ ['.', '$', '#', '@', '~']) && text.all isSymbolChar &&
    (Register.ofName? (String.ofList text)).isNone

def symbol? (text : List Char) : Option String :=
  if isSymbol text then some (String.ofList text) else none

theorem symbol?_of_isSymbol (h : isSymbol symbol.toList = true) :
    symbol? symbol.toList = some symbol := by
  rw [symbol?, if_pos h, String.ofList_toList]

theorem not_mem_of_isSymbol (h : isSymbol text = true) (hc : isSymbolChar c = false) : c ∉ text := by
  intro hmem
  rw [isSymbol, Bool.and_eq_true, Bool.and_eq_true] at h
  have hall := List.all_eq_true.1 h.1.2 c hmem
  rw [hc] at hall
  cases hall

/-- The symbols that an operand shows. -/
@[simp] def Operand.symbols : Operand → List String
  | .symbol name => [name]
  | _ => []

/-- A character that divides operands or rows. -/
def Divides (c : Char) : Prop := c = ',' ∨ c = '\n'

theorem Divides.not_mem_toString (h : Divides c) (n : Nat) : c ∉ (toString n).toList := by
  intro hmem
  have hdigit := isDigit_of_mem_toString hmem
  rcases h with rfl | rfl
  · exact absurd hdigit (by decide)
  · exact absurd hdigit (by decide)

theorem Divides.not_mem_toString_int (h : Divides c) (n : Int) : c ∉ (toString n).toList := by
  rcases exists_toString_int n with ⟨m, -, hm⟩ | ⟨m, -, hm⟩
  · rw [hm]
    exact h.not_mem_toString m
  · rw [hm, String.toList_append, List.mem_append, not_or]
    refine ⟨?_, h.not_mem_toString m⟩
    rcases h with rfl | rfl <;> decide

theorem Divides.not_mem_name (h : Divides c) (r : Register) :
    c ∉ r.name.toList ∧ c ∉ r.lowByteName.toList := by
  rcases h with rfl | rfl <;> cases r <;> decide

theorem Divides.not_mem_operand (h : Divides c) {o : Operand} (ho : ∀ s ∈ o.symbols, c ∉ s.toList) :
    c ∉ o.render.toList := by
  cases o with
  | register r => exact (h.not_mem_name r).1
  | immediate value => exact h.not_mem_toString_int value
  | symbol name => exact ho name List.mem_cons_self
  | frame offset =>
    have hoffset := h.not_mem_toString_int offset.toInt
    rw [Operand.render, frameSlot]
    split <;> rcases h with rfl | rfl <;> simpa using hoffset
  | stack offset =>
    have hoffset := h.not_mem_toString offset
    rcases h with rfl | rfl <;> simpa [Operand.render] using hoffset

theorem Divides.not_mem_target (h : Divides c) (t : Target) : c ∉ t.render.toList := by
  cases t with
  | label id =>
    have hid := h.not_mem_toString id
    rcases h with rfl | rfl <;> simpa [Target.render] using hid
  | exit => rcases h with rfl | rfl <;> decide

/-! ## Instructions -/

/-- The symbols that an instruction shows. -/
@[simp] def Instr.symbols : Instr → List String
  | .mov destination source => destination.symbols ++ source.symbols
  | .add _ source | .sub _ source | .cmp _ source | .call source => source.symbols
  | _ => []

/-- The number that a hexadecimal digit stands for. -/
def hexDigit? (c : Char) : Option Nat :=
  if '0' ≤ c ∧ c ≤ '9' then some (c.toNat - '0'.toNat)
  else if 'a' ≤ c ∧ c ≤ 'f' then some (c.toNat - 'a'.toNat + 10)
  else if 'A' ≤ c ∧ c ≤ 'F' then some (c.toNat - 'A'.toNat + 10)
  else none

/-- The byte that a character stands for after a backslash. -/
def escape? (c : Char) : Option UInt8 :=
  if c = '\\' then some 0x5c
  else if c = '\x60' then some 0x60
  else if c = '"' then some 0x22
  else if c = 'n' then some 0x0a
  else if c = 't' then some 0x09
  else none

/-- The bytes that a literal without its opening backquote stands for. The closing backquote ends the
text; a backslash starts an escape; any other character stands for its own bytes. -/
def decodeInside? : List Char → Option (List UInt8)
  | [] => none
  | '\\' :: 'x' :: high :: low :: rest =>
    (hexDigit? high).bind fun h => (hexDigit? low).bind fun l =>
      (decodeInside? rest).map (UInt8.ofNat (16 * h + l) :: ·)
  | '\\' :: c :: rest => (escape? c).bind fun b => (decodeInside? rest).map (b :: ·)
  | '\x60' :: rest => if rest = [] then some [] else none
  | c :: rest => (decodeInside? rest).map (String.utf8EncodeChar c ++ ·)

/-- The bytes that a literal between backquotes stands for. -/
def decode? : List Char → Option (List UInt8)
  | '\x60' :: rest => decodeInside? rest
  | _ => none

theorem hexDigit?_digitChar : ∀ n < 16, hexDigit? (Nat.digitChar n) = some n := by
  decide

theorem decodeInside?_hexByte {n : Nat} (h : n < 256) (rest : List Char) :
    decodeInside? ('\\' :: 'x' :: hexByte n ++ rest) =
      (decodeInside? rest).map (UInt8.ofNat n :: ·) := by
  simp only [hexByte, List.cons_append, List.nil_append, decodeInside?,
    hexDigit?_digitChar (n / 16) (by omega), hexDigit?_digitChar (n % 16) (by omega),
    Option.bind_some, Nat.div_add_mod]

theorem decodeInside?_of_ne {c : Char} (hslash : c ≠ '\\') (hquote : c ≠ '\x60') (rest : List Char) :
    decodeInside? (c :: rest) = (decodeInside? rest).map (String.utf8EncodeChar c ++ ·) := by
  rw [decodeInside?] <;> simp_all

theorem decodeInside?_literalChar (c : Char) (rest : List Char) :
    decodeInside? (literalChar c ++ rest) =
      (decodeInside? rest).map (String.utf8EncodeChar c ++ ·) := by
  unfold literalChar
  split_ifs with hslash hquote hdouble hline htab hcontrol
  · subst hslash
    rfl
  · subst hquote
    rfl
  · subst hdouble
    rfl
  · subst hline
    rfl
  · subst htab
    rfl
  · have hlt : c.toNat < 128 := by omega
    have hbytes : String.utf8EncodeChar c = [UInt8.ofNat c.toNat] := by
      rw [String.utf8EncodeChar, if_pos (show c.val.toNat ≤ 127 from Nat.le_of_lt_succ hlt)]
      rfl
    rw [decodeInside?_hexByte (by omega), hbytes]
    rfl
  · exact decodeInside?_of_ne hslash hquote rest

theorem decode?_literal (text : List Char) :
    decode? (literal text) = some (text.flatMap String.utf8EncodeChar) := by
  show decodeInside? (text.flatMap literalChar ++ ['\x60']) = _
  induction text with
  | nil => rfl
  | cons c text ih =>
    rw [List.flatMap_cons, List.append_assoc, decodeInside?_literalChar, ih]
    rfl

theorem literal_printable (text : List Char) :
    ∀ c ∈ literal text, 0x20 ≤ c.toNat ∧ c.toNat ≠ 0x7f := by
  have hdigit : ∀ n < 16, 0x20 ≤ (Nat.digitChar n).toNat ∧ (Nat.digitChar n).toNat ≠ 0x7f := by
    decide
  have hchar : ∀ c, ∀ d ∈ literalChar c, 0x20 ≤ d.toNat ∧ d.toNat ≠ 0x7f := by
    intro c d hd
    unfold literalChar at hd
    split_ifs at hd with hslash hquote hdouble hline htab hcontrol
    rotate_left 5
    · simp only [hexByte, List.mem_cons, List.not_mem_nil, or_false] at hd
      rcases hd with rfl | rfl | rfl | rfl
      · decide
      · decide
      · exact hdigit _ (by omega)
      · exact hdigit _ (by omega)
    · obtain rfl := List.mem_singleton.1 hd
      omega
    all_goals
      simp only [List.mem_cons, List.not_mem_nil, or_false] at hd
      rcases hd with rfl | rfl <;> decide
  intro c hc
  simp only [literal, List.cons_append, List.mem_cons, List.mem_append, List.mem_flatMap,
    List.not_mem_nil, or_false] at hc
  rcases hc with rfl | ⟨d, -, hc⟩ | rfl
  · decide
  · exact hchar d c hc
  · decide

/-! ## Rows -/

/-- The rows of a text. Empty rows mean nothing. -/
def rows (text : String) : List (List Char) := (text.toList.splitOn '\n').filter (· ≠ [])

/-- The directives that stand by themselves. -/
def directives : List String := ["bits 64", "section .data", "section .text"]

/-- The symbol that a row defines: what stands before its first colon, if this is a symbol. -/
def labelRow? (row : List Char) : Option String :=
  if ':' ∈ row then symbol? (cutAt ':' row).1 else none

/-- The symbols that the rows of a text define, in order. -/
def labelRows (text : String) : List String := (rows text).filterMap labelRow?

/-! ## Rows of lines -/

/-- The symbols that a line shows. -/
@[simp] def Line.symbols : Line → List String
  | .label symbol | .imported symbol | .exported symbol => [symbol]
  | .instr i => i.symbols
  | _ => []

/-- A line that can be read, apart from its symbols. -/
def Line.Regular : Line → Prop
  | .verbatim text => text ∈ directives
  | .indented text => text = "align 8"
  | .comment text => '\n' ∉ text.toList
  | _ => True

theorem cases_directives {text : String} (h : text ∈ directives) :
    text = "bits 64" ∨ text = "section .data" ∨ text = "section .text" := by
  simpa [directives] using h

/-- The symbol that a line defines. -/
def Line.defined? : Line → Option String
  | .label symbol => some symbol
  | _ => none

/-- The symbols that lines define, in order. -/
def definedSymbols (lines : List Line) : List String := lines.filterMap Line.defined?

theorem not_mem_toString_of_isDigit {n : Nat} (hc : c.isDigit = false) : c ∉ (toString n).toList := by
  intro hmem
  rw [isDigit_of_mem_toString hmem] at hc
  cases hc

theorem toList_row_label (symbol : String) :
    (Line.row (.label symbol)).toList = symbol.toList ++ [':'] := by
  simp [Line.row]

theorem toList_row_target (place : Target) :
    (Line.row (.target place)).toList = place.render.toList ++ [':'] := by
  simp [Line.row]

theorem not_mem_instr {i : Instr} (hs : ∀ s ∈ i.symbols, '\n' ∉ s.toList) : '\n' ∉ i.render.toList := by
  have hend : Divides '\n' := .inr rfl
  cases i with
  | nop | ret | cqo | alignStack => decide
  | push r | pop r | idiv r => simp [Instr.render, hend.not_mem_name r]
  | extendLowByte r => simp [Instr.render, hend.not_mem_name r]
  | imul r r' => simp [Instr.render, hend.not_mem_name r, hend.not_mem_name r']
  | setLowByte condition r =>
    cases condition <;> simp [Instr.render, Condition.suffix, hend.not_mem_name r]
  | jmp t | jne t => simp [Instr.render, hend.not_mem_target t]
  | call o => simp [Instr.render, hend.not_mem_operand hs]
  | add r o | sub r o | cmp r o =>
    simp [Instr.render, hend.not_mem_name r, hend.not_mem_operand hs]
  | mov d o =>
    obtain ⟨hd, ho⟩ := List.forall_mem_append.1 hs
    simp [Instr.render, hend.not_mem_operand hd, hend.not_mem_operand ho]

theorem not_mem_row {line : Line} (h : line.Regular) (hs : ∀ s ∈ line.symbols, '\n' ∉ s.toList) :
    '\n' ∉ line.row.toList := by
  have hend : Divides '\n' := .inr rfl
  cases line with
  | verbatim text =>
    rcases cases_directives h with rfl | rfl | rfl <;> decide
  | indented text =>
    obtain rfl : text = "align 8" := h
    decide
  | label symbol | imported symbol | exported symbol =>
    simp [Line.row, hs symbol List.mem_cons_self]
  | target place => simp [Line.row, hend.not_mem_target place]
  | comment text =>
    have htext : '\n' ∉ text.toList := h
    simp [Line.row, htext]
  | quad value =>
    have hvalue := hend.not_mem_toString value
    simpa [Line.row] using hvalue
  | bytes text =>
    have hliteral : '\n' ∉ literal text.toList := fun hmem =>
      absurd (literal_printable text.toList _ hmem).1 (by decide)
    simp [Line.row, hliteral]
  | instr i => simp [Line.row, not_mem_instr hs]

theorem labelRow?_of_blank {start : List Char} (hblank : ' ' ∈ start) (hcolon : ':' ∉ start)
    (rest : List Char) : labelRow? (start ++ rest) = none := by
  have hcut : ∀ start, ':' ∉ start → (cutAt ':' (start ++ rest)).1 = start ++ (cutAt ':' rest).1 := by
    intro start hstart
    induction start with
    | nil => rfl
    | cons c start ih =>
      rw [List.mem_cons, not_or] at hstart
      rw [List.cons_append, cutAt, if_neg (Ne.symm hstart.1), ih hstart.2]
      rfl
  have hnot : ¬isSymbol (start ++ (cutAt ':' rest).1) = true := fun h =>
    not_mem_of_isSymbol h (by decide) (List.mem_append_left _ hblank)
  rw [labelRow?, hcut start hcolon, symbol?, if_neg hnot, ite_self]

theorem labelRow?_row {line : Line} (h : line.Regular)
    (hs : ∀ s, line.defined? = some s → isSymbol s.toList = true) :
    labelRow? line.row.toList = line.defined? := by
  cases line with
  | verbatim text =>
    rcases cases_directives h with rfl | rfl | rfl <;> rfl
  | label symbol =>
    have hsymbol := hs symbol rfl
    rw [toList_row_label, labelRow?, if_pos (by simp),
      cutAt_append (not_mem_of_isSymbol hsymbol (by decide)), symbol?_of_isSymbol hsymbol]
    rfl
  | target place =>
    cases place with
    | label id =>
      have hcolon : ':' ∉ (Target.label id).render.toList := by
        simpa [Target.render] using not_mem_toString_of_isDigit (n := id) (by decide)
      rw [toList_row_target, labelRow?, if_pos (by simp), cutAt_append hcolon, Target.render,
        String.toList_append]
      rfl
    | exit => rfl
  | imported _ | exported _ | indented _ | comment _ | quad _ | bytes _ | instr _ =>
    rw [Line.row, String.toList_append]
    exact labelRow?_of_blank (by decide) (by decide) _

/-! ## Texts of lines -/

section

variable {lines : List Line} (h : ∀ line ∈ lines, line.Regular)
include h

theorem rows_render (hs : ∀ line ∈ lines, ∀ s ∈ line.symbols, '\n' ∉ s.toList) :
    rows (render lines) = lines.map fun line => line.row.toList := by
  induction lines with
  | nil => rfl
  | cons line lines ih =>
    obtain ⟨hline, hlines⟩ := List.forall_mem_cons.1 h
    obtain ⟨hsymbols, hrest⟩ := List.forall_mem_cons.1 hs
    have htext : (render (line :: lines)).toList = line.row.toList ++ '\n' :: (render lines).toList := by
      simp [render, Line.render]
    have hne : line.row.toList ≠ [] := by
      cases line with
      | verbatim text =>
        have hdirectives : ∀ text ∈ directives, text.toList ≠ [] := by decide
        exact hdirectives text hline
      | _ => simp [Line.row]
    have hrows := ih hlines hrest
    rw [rows] at hrows
    rw [rows, htext, List.splitOn_append_cons_self_of_not_mem (not_mem_row hline hsymbols),
      List.filter_cons, if_pos (decide_eq_true hne), hrows, List.map_cons]

theorem labelRows_render (hs : ∀ line ∈ lines, ∀ s ∈ line.symbols, '\n' ∉ s.toList)
    (hdefined : ∀ s ∈ definedSymbols lines, isSymbol s.toList = true) :
    labelRows (render lines) = definedSymbols lines := by
  rw [labelRows, rows_render h hs, List.filterMap_map]
  refine List.filterMap_congr fun line hline => labelRow?_row (h line hline) fun s hs => ?_
  exact hdefined s (List.mem_filterMap.2 ⟨line, hline, hs⟩)

end

end WordLang.Assembly
