import WordLang.Proofs.Token.Tiling

/-!
# Spellings of tokens

Every token that can be written has a spelling: keywords and symbols their own, identifiers their
name, integers their decimal digits, and texts a string literal in which backslashes, quotes and
line ends are escaped. Scanning spellings that are divided by single spaces gives back the tokens.

## Main definitions

* `Shape.Writable`, `Shape.spelling`: tokens that can be written, and how
* `render`: the spellings of tokens, divided by spaces

## Main results

* `stringBody_escape`: a string literal stands for the text that it was made from
* `Element.first_spelling`: a spelling is read back as its token
* `scan_render`: so are spellings that are divided by spaces
-/

namespace WordLang

variable {c : Char} {s : Shape}

/-! ## Spellings -/

/-- A letter, or the underscore. -/
def IsLetter (c : Char) : Prop := 'A' ≤ c ∧ c ≤ 'Z' ∨ 'a' ≤ c ∧ c ≤ 'z' ∨ c = '_'

/-- A decimal digit. -/
def IsNumeral (c : Char) : Prop := '0' ≤ c ∧ c ≤ '9'

instance : DecidablePred IsLetter := fun c =>
  inferInstanceAs (Decidable ('A' ≤ c ∧ c ≤ 'Z' ∨ 'a' ≤ c ∧ c ≤ 'z' ∨ c = '_'))

instance : DecidablePred IsNumeral := fun c => inferInstanceAs (Decidable ('0' ≤ c ∧ c ≤ '9'))

/-- A word: a letter, then letters and digits. -/
def IsWord (word : List Char) : Prop :=
  ∃ c rest, word = c :: rest ∧ IsLetter c ∧ ∀ d ∈ rest, IsLetter d ∨ IsNumeral d

/-- Tokens that can be written: an identifier is a word other than the keywords, and an integer is
not negative. -/
def Shape.Writable : Shape → Prop
  | .identifier name => IsWord name.toList ∧ ∀ k : Keyword, name ≠ k.spelling
  | .integer value => 0 ≤ value
  | _ => True

/-- How a string literal spells a character of its text. -/
def escape (c : Char) : List Char :=
  if c = '\\' then ['\\', '\\']
  else if c = '"' then ['\\', '"']
  else if c = '\n' then ['\\', 'n']
  else [c]

/-- How a token is written. -/
def Shape.spelling : Shape → List Char
  | .keyword k => k.spelling.toList
  | .identifier name => name.toList
  | .integer value => Nat.toDigits 10 value.toInt.toNat
  | .string text => '"' :: text.toList.flatMap escape ++ ['"']
  | .symbol s => s.spelling

/-- The spellings of tokens, divided by single spaces. -/
def render (shapes : List Shape) : List Char := [' '].intercalate (shapes.map Shape.spelling)

/-! ## Classes of characters -/

/-- Text that goes on after a spelling: none, or a space and more. -/
def Divided (rest : List Char) : Prop := ∀ c ∈ rest.head?, c = ' '

theorem takeWhile_divided {p : Char → Bool} {s rest : List Char} (hs : ∀ c ∈ s, p c = true)
    (hspace : p ' ' = false) (hrest : Divided rest) : (s ++ rest).takeWhile p = s := by
  rw [List.takeWhile_append_of_pos hs]
  cases rest with
  | nil => simp
  | cons c rest =>
    obtain rfl := hrest c rfl
    simp [hspace]

theorem dropWhile_divided {p : Char → Bool} {s rest : List Char} (hs : ∀ c ∈ s, p c = true)
    (hspace : p ' ' = false) (hrest : Divided rest) : (s ++ rest).dropWhile p = rest := by
  have happend := List.takeWhile_append_dropWhile (p := p) (l := s ++ rest)
  rw [takeWhile_divided hs hspace hrest] at happend
  exact List.append_cancel_left happend

/-- Characters from the digits on are no blanks and start no comment and no string literal. -/
theorem plain_of_toNat (h : 0x30 ≤ c.toNat) (h' : c.toNat < 0x7f) :
    Text.isBlank c = false ∧ c ≠ '/' ∧ c ≠ '"' := by
  refine ⟨?_, ?_, ?_⟩
  · rw [Text.isBlank, Text.inRanges, List.any_eq_false]
    intro r hr
    fin_cases hr <;> simp <;> omega
  · rintro rfl
    exact absurd h (by decide)
  · rintro rfl
    exact absurd h (by decide)

theorem IsLetter.isWordStart (h : IsLetter c) : isWordStart c = true := by
  change (decide ('A' ≤ c ∧ c ≤ 'Z') || decide ('a' ≤ c) && decide (c ≤ 'z') || decide (c = '_')) = true
  simp only [Bool.or_eq_true, Bool.and_eq_true, decide_eq_true_eq]
  rcases h with h | h | h
  · exact .inl (.inl h)
  · exact .inl (.inr h)
  · exact .inr h

theorem IsNumeral.isDigit (h : IsNumeral c) : c.isDigit = true := by
  rw [Char.isDigit, Bool.and_eq_true, decide_eq_true_eq, decide_eq_true_eq]
  exact h

theorem isWordPart_eq_true (h : IsLetter c ∨ IsNumeral c) : isWordPart c = true := by
  rw [isWordPart, Char.isAlphanum]
  rcases h with h | h
  · have := h.isWordStart
    rw [WordLang.isWordStart, Bool.or_eq_true] at this
    rcases this with h | h <;> simp [h]
  · simp [h.isDigit]

theorem IsLetter.toNat_bounds (h : IsLetter c) : 0x41 ≤ c.toNat ∧ c.toNat ≤ 0x7a := by
  rcases h with ⟨h, h'⟩ | ⟨h, h'⟩ | rfl
  · have h : 0x41 ≤ c.toNat := UInt32.le_iff_toNat_le.1 h
    have h' : c.toNat ≤ 0x5a := UInt32.le_iff_toNat_le.1 h'
    omega
  · have h : 0x61 ≤ c.toNat := UInt32.le_iff_toNat_le.1 h
    have h' : c.toNat ≤ 0x7a := UInt32.le_iff_toNat_le.1 h'
    omega
  · decide

theorem toNat_bounds_of_isDigit (h : c.isDigit = true) : 0x30 ≤ c.toNat ∧ c.toNat ≤ 0x39 :=
  Char.isDigit_iff_toNat.1 h

/-! ## First elements -/

/-- The element of a token that is written. -/
def Shape.element (s : Shape) : Element := ⟨s.spelling, some s, []⟩

namespace Element

variable {c : Char} {cs rest : List Char}

theorem first_word (hc : IsLetter c) (hcs : ∀ d ∈ cs, IsLetter d ∨ IsNumeral d)
    (hrest : Divided rest) :
    first c (cs ++ rest) = (⟨c :: cs, some (wordShape (String.ofList (c :: cs))), []⟩, rest) := by
  have hbounds := hc.toNat_bounds
  obtain ⟨hblank, hslash, hquote⟩ := plain_of_toNat (c := c) (by omega) (by omega)
  have hdigit : c.isDigit = false := by
    rw [Bool.eq_false_iff]
    intro h
    have := toNat_bounds_of_isDigit h
    omega
  have hparts : ∀ d ∈ cs, isWordPart d = true := fun d hd => isWordPart_eq_true (hcs d hd)
  unfold first
  rw [takeWhile_divided hparts (by decide) hrest, dropWhile_divided hparts (by decide) hrest]
  simp [hblank, hslash, hquote, hdigit, hc.isWordStart]

theorem first_number (hc : c.isDigit = true) (hcs : ∀ d ∈ cs, d.isDigit = true)
    (hrest : Divided rest) : first c (cs ++ rest) = (numberElement (c :: cs), rest) := by
  have hbounds := toNat_bounds_of_isDigit hc
  obtain ⟨hblank, hslash, hquote⟩ := plain_of_toNat (c := c) (by omega) (by omega)
  unfold first
  rw [takeWhile_divided hcs (by decide) hrest, dropWhile_divided hcs (by decide) hrest]
  simp [hblank, hslash, hquote, hc]

theorem first_symbol (s : Symbol) (h : s.spelling = c :: cs) (hrest : Divided rest) :
    first c (cs ++ rest) = (⟨c :: cs, some (.symbol s), []⟩, rest) := by
  cases rest with
  | nil => cases s <;> cases h <;> rfl
  | cons d rest =>
    obtain rfl := hrest d rfl
    cases s <;> cases h <;> rfl

end Element

theorem stringBody_quote (s : List Char) : stringBody ('"' :: s) = ⟨[], ['"'], s, []⟩ := by
  rw [stringBody.eq_def]
  rfl

theorem stringBody_plain (hnewline : c ≠ '\n') (hquote : c ≠ '"') (hbackslash : c ≠ '\\')
    (s : List Char) : stringBody (c :: s) = ⟨c :: (stringBody s).value, c :: (stringBody s).text,
      (stringBody s).rest, (stringBody s).problems⟩ := by
  rw [stringBody.eq_def]
  simp [hnewline, hquote, hbackslash]

theorem stringBody_escaped {e d : Char} (hnewline : e ≠ '\n') (h : escaped? e = some d)
    (s : List Char) : stringBody ('\\' :: e :: s) = ⟨d :: (stringBody s).value,
      '\\' :: e :: (stringBody s).text, (stringBody s).rest, (stringBody s).problems⟩ := by
  rw [stringBody.eq_def]
  simp [hnewline, h]

/-- A character of a text is spelled by a backslash and what stands for it, or by itself. -/
theorem escape_cases (c : Char) :
    (∃ e, escape c = ['\\', e] ∧ e ≠ '\n' ∧ escaped? e = some c) ∨
      escape c = [c] ∧ c ≠ '\n' ∧ c ≠ '"' ∧ c ≠ '\\' := by
  unfold escape
  split
  · next h => exact .inl ⟨'\\', rfl, by decide, by rw [h]; rfl⟩
  split
  · next h => exact .inl ⟨'"', rfl, by decide, by rw [h]; rfl⟩
  split
  · next h => exact .inl ⟨'n', rfl, by decide, by rw [h]; rfl⟩
  · next hbackslash hquote hnewline => exact .inr ⟨rfl, hnewline, hquote, hbackslash⟩

theorem stringBody_escape (text rest : List Char) :
    stringBody (text.flatMap escape ++ '"' :: rest) =
      ⟨text, text.flatMap escape ++ ['"'], rest, []⟩ := by
  induction text with
  | nil => exact stringBody_quote rest
  | cons c text ih =>
    rw [List.flatMap_cons, List.append_assoc]
    rcases escape_cases c with ⟨e, hescape, hnewline, hescaped⟩ | ⟨hescape, hnewline, hquote, hslash⟩
    · rw [hescape, List.cons_append, List.singleton_append,
        stringBody_escaped hnewline hescaped, ih]
      rfl
    · rw [hescape, List.singleton_append, stringBody_plain hnewline hquote hslash, ih]
      rfl

namespace Element

variable {c : Char} {cs rest : List Char}

theorem first_string (text : String) (rest : List Char) :
    first '"' (text.toList.flatMap escape ++ ['"'] ++ rest) =
      ((Shape.string text).element, rest) := by
  rw [List.append_assoc, List.singleton_append]
  unfold first
  dsimp only
  rw [stringBody_escape, if_neg (by decide), if_neg (by simp), if_pos rfl, String.ofList_toList]
  rfl

theorem numberElement_toDigits {value : Int64} (h : 0 ≤ value) :
    numberElement (Nat.toDigits 10 value.toInt.toNat) = (Shape.integer value).element := by
  have hvalue : digitsValue (Nat.toDigits 10 value.toInt.toNat) = value.toInt.toNat :=
    Nat.ofDigitChars_ten_toDigits
  have hmax : value.toInt.toNat ≤ maxInteger := by
    have := value.toInt_lt
    rw [maxInteger]
    omega
  have hword : Int64.ofNat value.toInt.toNat = value := Int64.ofNat_toNatClampNeg value h
  unfold numberElement
  dsimp only
  rw [hvalue, if_pos hmax, hword]
  rfl

end Element

/-! ## Words -/

theorem IsWord.of_all {rest : List Char} (hc : IsLetter c)
    (hrest : rest.all (fun d => decide (IsLetter d ∨ IsNumeral d)) = true) : IsWord (c :: rest) :=
  ⟨c, rest, rfl, hc, fun d hd => of_decide_eq_true (List.all_eq_true.1 hrest d hd)⟩

theorem Keyword.isWord_spelling (k : Keyword) : IsWord k.spelling.toList := by
  cases k <;> exact .of_all (by decide) (by decide)

theorem wordShape_spelling (k : Keyword) : wordShape k.spelling = .keyword k := by
  cases k <;> rfl

theorem wordShape_of_ne {name : String} (h : ∀ k : Keyword, name ≠ k.spelling) :
    wordShape name = .identifier name := by
  have hnone : Keyword.ofSpelling? name = none :=
    List.find?_eq_none.2 fun k _ => by simpa using (h k).symm
  rw [wordShape, hnone]

theorem Element.first_isWord {word : String} (hword : IsWord word.toList)
    {cs rest : List Char} (h : word.toList = c :: cs) (hrest : Divided rest) :
    Element.first c (cs ++ rest) = (⟨word.toList, some (wordShape word), []⟩, rest) := by
  obtain ⟨c', cs', hsplit, hc, hcs⟩ := hword
  rw [h] at hsplit
  cases hsplit
  rw [Element.first_word hc hcs hrest, ← h, String.ofList_toList]

/-! ## Spellings are read back -/

theorem Element.first_spelling (hs : s.Writable) {cs rest : List Char}
    (h : s.spelling = c :: cs) (hrest : Divided rest) :
    Element.first c (cs ++ rest) = (s.element, rest) := by
  cases s with
  | keyword k =>
    rw [Element.first_isWord k.isWord_spelling h hrest, wordShape_spelling]
    rfl
  | identifier name =>
    rw [Element.first_isWord hs.1 h hrest, wordShape_of_ne hs.2]
    rfl
  | integer value =>
    have hdigits : ∀ d ∈ c :: cs, d.isDigit = true := fun d hd =>
      Nat.isDigit_of_mem_toDigits (by decide) (by decide) (h ▸ hd)
    rw [Element.first_number (hdigits c List.mem_cons_self)
      (fun d hd => hdigits d (List.mem_cons_of_mem c hd)) hrest, ← h]
    exact congrArg (·, rest) (Element.numberElement_toDigits hs)
  | string text =>
    cases h
    exact Element.first_string text rest
  | symbol s =>
    rw [Element.first_symbol s h hrest, ← h]
    rfl

theorem Shape.exists_spelling_eq (hs : s.Writable) :
    ∃ c cs, s.spelling = c :: cs ∧ Text.isBlank c = false := by
  have hword : ∀ {word : List Char}, IsWord word →
      ∃ c cs, word = c :: cs ∧ Text.isBlank c = false := by
    rintro word ⟨c, cs, rfl, hc, -⟩
    have := hc.toNat_bounds
    exact ⟨c, cs, rfl, (plain_of_toNat (by omega) (by omega)).1⟩
  cases s with
  | keyword k => exact hword k.isWord_spelling
  | identifier name => exact hword hs.1
  | integer value =>
    obtain ⟨c, cs, hsplit⟩ := List.exists_cons_of_ne_nil
      (Nat.toDigits_ne_nil (n := value.toInt.toNat) (b := 10))
    have hdigit : c.isDigit = true :=
      Nat.isDigit_of_mem_toDigits (by decide) (by decide) (hsplit ▸ List.mem_cons_self)
    have := toNat_bounds_of_isDigit hdigit
    exact ⟨c, cs, hsplit, (plain_of_toNat (by omega) (by omega)).1⟩
  | string text => exact ⟨_, _, rfl, by decide⟩
  | symbol s => cases s <;> exact ⟨_, _, rfl, by decide⟩

theorem elements_spelling_append (hs : s.Writable) {rest : List Char}
    (hrest : Divided rest) : elements (s.spelling ++ rest) = s.element :: elements rest := by
  obtain ⟨c, cs, h, -⟩ := Shape.exists_spelling_eq hs
  rw [h, List.cons_append, elements, Element.first_spelling hs h hrest]

theorem elements_space_cons (hc : Text.isBlank c = false) (rest : List Char) :
    elements (' ' :: c :: rest) = ⟨[' '], none, []⟩ :: elements (c :: rest) := by
  have hfirst : Element.first ' ' (c :: rest) = (⟨[' '], none, []⟩, c :: rest) := by
    unfold Element.first
    rw [if_pos (by decide), List.takeWhile_cons_of_neg (by simp [hc]),
      List.dropWhile_cons_of_neg (by simp [hc])]
  rw [elements, hfirst]

theorem render_cons_cons (s s' : Shape) (shapes : List Shape) :
    render (s :: s' :: shapes) = s.spelling ++ ' ' :: render (s' :: shapes) := by
  rw [render, List.map_cons, List.map_cons, List.intercalate_cons_cons, List.append_assoc]
  rfl

theorem spelling_prefix_render (s : Shape) (shapes : List Shape) :
    s.spelling <+: render (s :: shapes) := by
  cases shapes with
  | nil => simp [render]
  | cons s' shapes =>
    rw [render_cons_cons]
    exact List.prefix_append _ _

/-- The elements of spellings that are divided by spaces. -/
theorem elements_render {shapes : List Shape} (h : ∀ s ∈ shapes, s.Writable) :
    elements (render shapes) = (shapes.map Shape.element).intersperse ⟨[' '], none, []⟩ := by
  induction shapes with
  | nil =>
    rw [render, List.map_nil, List.intercalate_nil, elements, List.map_nil, List.intersperse_nil]
  | cons s shapes ih =>
    have hs := h s List.mem_cons_self
    have ih := ih fun s' hs' => h s' (List.mem_cons_of_mem s hs')
    cases shapes with
    | nil =>
      have hlast := elements_spelling_append hs (show Divided [] by simp [Divided])
      rw [List.append_nil, elements] at hlast
      simpa [render] using hlast
    | cons s' shapes =>
      obtain ⟨c, cs, hspelling, hblank⟩ :=
        Shape.exists_spelling_eq (h s' (List.mem_cons_of_mem s List.mem_cons_self))
      obtain ⟨rest, hrender⟩ := spelling_prefix_render s' shapes
      rw [hspelling, List.cons_append] at hrender
      rw [render_cons_cons, elements_spelling_append hs (by simp [Divided]), ← hrender,
        elements_space_cons hblank, hrender, ih]
      rfl

/-! ## The text of a token -/

theorem dropBytes_append (s t : List Char) : dropBytes (byteLength s) (s ++ t) = t := by
  induction s with
  | nil => cases t <;> rfl
  | cons c s ih =>
    have := c.utf8Size_pos
    rw [List.cons_append, dropBytes, byteLength_cons, if_neg (by omega), Nat.add_sub_cancel_left,
      ih]

theorem takeBytes_append (s t : List Char) : takeBytes (byteLength s) (s ++ t) = s := by
  induction s with
  | nil => cases t <;> rfl
  | cons c s ih =>
    have := c.utf8Size_pos
    rw [List.cons_append, takeBytes, byteLength_cons, if_neg (by omega), Nat.add_sub_cancel_left,
      ih]

theorem map_element_piecesFrom (before : List Char) (es : List Element) :
    (piecesFrom before es).map Piece.element = es := by
  induction es generalizing before with
  | nil => rfl
  | cons e es ih => rw [piecesFrom, List.map_cons, ih]

theorem Piece.map_token? {source : List Char} {x : Piece} (hx : x ∈ pieces source) :
    x.token?.map (fun t => (t.shape, t.span.extract source)) =
      x.element.shape.map fun s => (s, x.element.text) := by
  obtain ⟨after, hsource, -⟩ := Piece.exists_after hx
  have hextract : Span.extract ⟨byteLength x.before, byteLength x.before + x.element.byteCount⟩
      source = x.element.text := by
    rw [Span.extract, hsource, Piece.upTo, List.append_assoc, dropBytes_append,
      Nat.add_sub_cancel_left, Element.byteCount, takeBytes_append]
  rw [Piece.token?, Element.token?, Option.map_map]
  refine congrFun (congrArg Option.map (funext fun s => ?_)) _
  exact congrArg (s, ·) hextract

theorem map_tokens_scan (source : List Char) :
    (scan source).tokens.map (fun t => (t.shape, t.span.extract source)) =
      (elements source).filterMap fun e => e.shape.map fun s => (s, e.text) := by
  rw [tokens_scan, List.map_filterMap, ← map_element_piecesFrom [] (elements source),
    List.filterMap_map]
  exact List.filterMap_congr fun x hx => Piece.map_token? hx

theorem diagnostics_scan_eq_nil {source : List Char} (h : ∀ e ∈ elements source, e.problems = []) :
    (scan source).diagnostics = [] := by
  rw [diagnostics_scan, List.flatMap_eq_nil_iff]
  intro x hx
  have hmem : x.element ∈ elements source := by
    rw [← map_element_piecesFrom [] (elements source)]
    exact List.mem_map_of_mem hx
  rw [Piece.diagnostics, Element.diagnostics, h _ hmem, List.map_nil]

/-! ## Scanning spellings -/

section

variable {β : Type} {f : Element → Option β} {space e : Element} {es : List Element}

theorem filterMap_intersperse (hspace : f space = none) :
    (es.intersperse space).filterMap f = es.filterMap f := by
  induction es with
  | nil => rfl
  | cons e es ih =>
    cases es with
    | nil => rfl
    | cons e' es =>
      rw [List.intersperse_cons_cons, List.filterMap_cons, List.filterMap_cons_none hspace, ih,
        ← List.filterMap_cons]

theorem mem_intersperse (h : e ∈ es.intersperse space) : e = space ∨ e ∈ es := by
  induction es with
  | nil => cases h
  | cons e' es ih =>
    cases es with
    | nil => exact .inr h
    | cons e'' es =>
      rw [List.intersperse_cons_cons, List.mem_cons, List.mem_cons] at h
      rcases h with h | h | h
      · exact .inr (h ▸ List.mem_cons_self)
      · exact .inl h
      · exact (ih h).imp_right (List.mem_cons_of_mem e')

end

/-- Scanning spellings that are divided by spaces finds no problem and gives back the tokens, each
of which covers its spelling. -/
theorem scan_render (shapes : List Shape) (h : ∀ s ∈ shapes, s.Writable) :
    (scan (render shapes)).diagnostics = [] ∧
      (scan (render shapes)).tokens.map (fun t => (t.shape, t.span.extract (render shapes))) =
        shapes.map fun s => (s, s.spelling) := by
  have helements := elements_render h
  constructor
  · refine diagnostics_scan_eq_nil fun e he => ?_
    rw [helements] at he
    rcases mem_intersperse he with rfl | he
    · rfl
    · obtain ⟨s, -, rfl⟩ := List.mem_map.1 he
      rfl
  · rw [map_tokens_scan, helements, filterMap_intersperse rfl, List.filterMap_map]
    exact congrFun List.filterMap_eq_map shapes

/-- Tokens that are easily mistaken for others. -/
def closeShapes : List Shape :=
  [.keyword .kwLoop, .identifier "loop_1", .symbol .slash, .symbol .slash, .symbol .lessEquals,
    .symbol .less, .symbol .equals, .integer 9223372036854775807, .string "//\"\\\n\t é"]

theorem scan_render_closeShapes : (∀ s ∈ closeShapes, s.Writable) ∧
    (scan (render closeShapes)).diagnostics = [] ∧
      (scan (render closeShapes)).tokens.map
          (fun t => (t.shape, t.span.extract (render closeShapes))) =
        closeShapes.map fun s => (s, s.spelling) := by
  have hwritable : ∀ s ∈ closeShapes, s.Writable := by
    simp only [closeShapes, List.forall_mem_cons, Shape.Writable, true_and]
    refine ⟨⟨.of_all (by decide) (by decide), fun k => by cases k <;> decide⟩, by decide, ?_⟩
    simp
  exact ⟨hwritable, scan_render closeShapes hwritable⟩

end WordLang
