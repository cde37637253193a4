import Mathlib.Data.List.TakeWhile
import Mathlib.Tactic
import WordLang.Token.Scan

/-!
# Where tokens lie

The elements of a source text lie side by side, so the tokens among them cover separate stretches of
whole characters. What lies between tokens is blank, belongs to a comment, or is a character that no
token starts with; there is one report for each of these characters, in the order of the text.

## Main definitions

* `SourceChar`: a character of a source text, with what is before and after it
* `Token.LiesIn`, `SourceChar.InComment`: the places of tokens and comments
* `Piece`, `pieces`: elements with the text before them
* `strays`: the characters that belong to nothing

## Main results

* `Element.reads_first`: what the first element of a text can be
* `Piece.exists_covers`, `Piece.eq_of_covers`: every character lies in exactly one piece
* `mem_strays_iff`: the characters that are reported
* `scan_tiles`: the tokens of a text, and what lies between them
-/

namespace WordLang

/-! ## Places -/

/-- The line on which a text ends that starts on the first line. -/
def lineAfter (text : List Char) : Nat := 1 + text.count '\n'

/-- A character of a source text. -/
structure SourceChar where
  before : List Char
  char : Char
  after : List Char

namespace SourceChar

/-- The source text. -/
def source (p : SourceChar) : List Char := p.before ++ p.char :: p.after

/-- The first byte of the character. -/
def position (p : SourceChar) : Nat := byteLength p.before

/-- The line of the character. -/
def line (p : SourceChar) : Nat := lineAfter p.before

end SourceChar

/-- The report of a character that belongs to no token. -/
def SourceChar.report (p : SourceChar) : Diagnostic :=
  (ScanProblem.unexpectedCharacter p.char).onLine p.line

/-- A token covers a character if the character starts in its range of bytes. -/
def Token.Covers (t : Token) (p : SourceChar) : Prop :=
  t.span.start ≤ p.position ∧ p.position < t.span.stop

/-- A token that covers characters of a source text, at least one, and is on the line of the first
of them. -/
def Token.LiesIn (source : List Char) (t : Token) : Prop :=
  ∃ before text after, source = before ++ text ++ after ∧
    t.span = ⟨byteLength before, byteLength before + byteLength text⟩ ∧
    t.span.start < t.span.stop ∧ t.line = lineAfter before

/-- A comment between tokens: it starts with two slashes and runs to the end of its line. -/
structure IsComment (tokens : List Token) (before comment after : List Char) : Prop where
  slashes : ['/', '/'] <+: comment
  oneLine : '\n' ∉ comment
  runs : ∀ c ∈ after.head?, c = '\n'
  outside : ∀ t ∈ tokens, t.span.stop ≤ byteLength before ∨
    byteLength before + byteLength comment ≤ t.span.start

/-- A character that belongs to a comment. -/
def SourceChar.InComment (tokens : List Token) (p : SourceChar) : Prop :=
  ∃ before comment after, p.source = before ++ comment ++ after ∧
    IsComment tokens before comment after ∧
    before.length ≤ p.before.length ∧ p.before.length < before.length + comment.length

/-- A character that tokens start with. -/
def StartsToken (c : Char) : Prop :=
  c = '"' ∨ c.isDigit ∨ isWordStart c ∨ ∃ s : Symbol, s.spelling.head? = some c

/-- Whether a diagnostic reports a character that belongs to no token. -/
def Diagnostic.reportsCharacter (d : Diagnostic) : Bool :=
  "unexpected character `".toList.isPrefixOf d.message.toList

/-! ## Numbers of bytes -/

theorem byteLength_le_of_isPrefix {s t : List Char} (h : s <+: t) : byteLength s ≤ byteLength t := by
  obtain ⟨rest, rfl⟩ := h
  rw [byteLength_append]
  omega

/-- Of two prefixes of a text the shorter one has fewer bytes. -/
theorem byteLength_lt_iff {source s t : List Char} (hs : s <+: source) (ht : t <+: source) :
    byteLength s < byteLength t ↔ s.length < t.length := by
  constructor
  · intro hlt
    by_contra hle
    have := byteLength_le_of_isPrefix (List.prefix_of_prefix_length_le ht hs (by omega))
    omega
  · intro hlt
    obtain ⟨rest, rfl⟩ := List.prefix_of_prefix_length_le hs ht hlt.le
    cases rest with
    | nil => simp at hlt
    | cons c rest =>
      have := c.utf8Size_pos
      simp only [byteLength_append, byteLength_cons]
      omega

theorem byteLength_le_iff {source s t : List Char} (hs : s <+: source) (ht : t <+: source) :
    byteLength s ≤ byteLength t ↔ s.length ≤ t.length := by
  rw [← Nat.not_lt, byteLength_lt_iff ht hs, Nat.not_lt]

/-! ## What the first element can be -/

namespace ScanProblem

/-- Whether a problem is a character that belongs to no token. -/
def isCharacter : ScanProblem → Bool
  | .unexpectedCharacter _ => true
  | _ => false

theorem reportsCharacter_onLine (problem : ScanProblem) (line : Nat) :
    (problem.onLine line).reportsCharacter = problem.isCharacter := by
  unfold Diagnostic.reportsCharacter onLine message
  cases problem with
  | unexpectedCharacter c =>
    rw [String.toList_append, String.toList_append, List.append_assoc]
    exact List.isPrefixOf_iff_prefix.2 (List.prefix_append _ _)
  | unterminatedString =>
    dsimp only
    decide
  | unknownEscape c =>
    rw [String.toList_append, String.toList_append]
    rfl
  | integerTooLarge digits =>
    rw [String.toList_append, String.toList_append]
    rfl

end ScanProblem

theorem isCharacter_of_mem_stringBody {s : List Char} {problem : ScanProblem}
    (h : problem ∈ (stringBody s).problems) : problem.isCharacter = false := by
  fun_induction stringBody s <;> grind [ScanProblem.isCharacter]

inductive Element.Reads : Element → List Char → Prop where
  | token {e : Element} {shape : Shape} {after : List Char} (hshape : e.shape = some shape)
      (hproblems : ∀ problem ∈ e.problems, problem.isCharacter = false) : Reads e after
  | blank {text after : List Char} (hblank : ∀ c ∈ text, Text.isBlank c = true) :
      Reads ⟨text, none, []⟩ after
  | comment {text after : List Char} (hslashes : ['/', '/'] <+: text) (hline : '\n' ∉ text)
      (hruns : ∀ c ∈ after.head?, c = '\n') : Reads ⟨text, none, []⟩ after
  | stray {c : Char} {after : List Char} (hblank : Text.isBlank c = false)
      (hstart : ¬StartsToken c) : Reads ⟨[c], none, [.unexpectedCharacter c]⟩ after

theorem Symbol.isSome_ofSpelling?_of_head? {s : Symbol} {c : Char} (h : s.spelling.head? = some c) :
    (Symbol.ofSpelling? [c]).isSome := by
  cases s <;> cases h <;> decide

theorem Element.reads_numberElement (digits after : List Char) :
    (numberElement digits).Reads after := by
  unfold numberElement
  dsimp only
  split
  · exact .token rfl (by simp)
  · exact .token rfl (by simp [ScanProblem.isCharacter])

theorem Element.reads_signElement {c : Char} (after : List Char) (hblank : Text.isBlank c = false)
    (hquote : c ≠ '"') (hdigit : c.isDigit = false) (hword : isWordStart c = false) :
    (signElement c).Reads after := by
  unfold signElement
  cases hspelling : Symbol.ofSpelling? [c] with
  | some s => exact .token rfl (by simp)
  | none =>
    refine .stray hblank ?_
    rintro (h | h | h | ⟨s, h⟩)
    · exact hquote h
    · rw [hdigit] at h
      cases h
    · rw [hword] at h
      cases h
    · have := Symbol.isSome_ofSpelling?_of_head? h
      rw [hspelling] at this
      cases this

/-- The first element of a text is a token, a run of blanks, a comment or a stray character. -/
theorem Element.reads_first (c : Char) (rest : List Char) :
    (Element.first c rest).1.Reads (Element.first c rest).2 := by
  unfold Element.first
  split
  · next hblank =>
    refine .blank fun d hd => ?_
    rcases List.mem_cons.1 hd with rfl | hd
    · exact hblank
    · exact List.mem_takeWhile_imp hd
  next hblank =>
  split
  · next hcomment =>
    obtain ⟨rfl, hhead⟩ := hcomment
    obtain ⟨rest, rfl⟩ : ∃ later, rest = '/' :: later := by
      cases rest with
      | nil => cases hhead
      | cons d later =>
        cases hhead
        exact ⟨later, rfl⟩
    refine .comment ?_ ?_ ?_
    · simp
    · intro hmem
      rcases List.mem_cons.1 hmem with h | hmem
      · cases h
      · simpa using List.mem_takeWhile_imp hmem
    · intro d hd
      have hnot := List.head?_dropWhile_not (fun x => decide (x ≠ '\n')) ('/' :: rest)
      rw [hd] at hnot
      simpa using hnot
  split
  · exact .token rfl fun problem hproblem => isCharacter_of_mem_stringBody hproblem
  next hquote =>
  split
  · exact Element.reads_numberElement _ _
  next hdigit =>
  split
  · exact .token rfl (by simp)
  next hword =>
  have hsign : ∀ after, (signElement c).Reads after := fun after =>
    Element.reads_signElement after (by simpa using hblank) hquote (by simpa using hdigit)
      (by simpa using hword)
  split
  · exact hsign _
  split
  · exact .token rfl (by simp)
  · exact hsign _

/-! ## Pieces -/

/-- An element of a source text with the text before it. -/
structure Piece where
  before : List Char
  element : Element

namespace Piece

def upTo (x : Piece) : List Char := x.before ++ x.element.text

def token? (x : Piece) : Option Token := x.element.token? (byteLength x.before) (lineAfter x.before)

/-- The problems of a piece. -/
def diagnostics (x : Piece) : List Diagnostic := x.element.diagnostics (lineAfter x.before)

/-- A piece covers a character if the character lies in it. -/
def Covers (x : Piece) (p : SourceChar) : Prop :=
  x.before.length ≤ p.before.length ∧ p.before.length < x.upTo.length

end Piece

def piecesFrom (before : List Char) : List Element → List Piece
  | [] => []
  | e :: rest => ⟨before, e⟩ :: piecesFrom (before ++ e.text) rest

/-- The pieces of a source text, first to last. -/
def pieces (source : List Char) : List Piece := piecesFrom [] (elements source)

theorem scanFrom_eq_pieces (before : List Char) (es : List Element) :
    (scanFrom (byteLength before) (lineAfter before) es).tokens =
        (piecesFrom before es).filterMap Piece.token? ∧
      (scanFrom (byteLength before) (lineAfter before) es).diagnostics =
        (piecesFrom before es).flatMap Piece.diagnostics := by
  induction es generalizing before with
  | nil => exact ⟨rfl, rfl⟩
  | cons e rest ih =>
    have hposition : byteLength before + e.byteCount = byteLength (before ++ e.text) :=
      (byteLength_append _ _).symm
    have hline : lineAfter before + e.lineEnds = lineAfter (before ++ e.text) := by
      rw [lineAfter, lineAfter, List.count_append, Element.lineEnds, Nat.add_assoc]
    obtain ⟨htokens, hdiagnostics⟩ := ih (before ++ e.text)
    simp only [scanFrom, hposition, hline, htokens, hdiagnostics, piecesFrom, List.flatMap_cons]
    refine ⟨?_, rfl⟩
    cases htoken : (⟨before, e⟩ : Piece).token? with
    | none =>
      rw [List.filterMap_cons_none htoken]
      rw [Piece.token?] at htoken
      rw [htoken]
      rfl
    | some t =>
      rw [List.filterMap_cons_some htoken]
      rw [Piece.token?] at htoken
      rw [htoken]
      rfl

theorem tokens_scan (source : List Char) :
    (scan source).tokens = (pieces source).filterMap Piece.token? :=
  (scanFrom_eq_pieces [] (elements source)).1

theorem diagnostics_scan (source : List Char) :
    (scan source).diagnostics = (pieces source).flatMap Piece.diagnostics :=
  (scanFrom_eq_pieces [] (elements source)).2

theorem exists_first_of_mem_pieces {before rest : List Char} {x : Piece}
    (h : x ∈ piecesFrom before (elements rest)) :
    ∃ after, before ++ rest = x.upTo ++ after ∧ x.element.Reads after ∧ x.element.text ≠ [] := by
  fun_induction elements rest generalizing before with
  | case1 => cases h
  | case2 c rest ih =>
    have happend := Element.first_text_append c rest
    rcases List.mem_cons.1 h with rfl | h
    · refine ⟨(Element.first c rest).2, ?_, Element.reads_first c rest,
        Element.first_text_ne_nil c rest⟩
      rw [Piece.upTo, List.append_assoc, happend]
    · obtain ⟨after, hsource, hreads⟩ := ih h
      refine ⟨after, ?_, hreads⟩
      rw [← hsource, List.append_assoc, happend]

theorem prefix_of_mem_piecesFrom {before : List Char} {es : List Element} {x : Piece}
    (h : x ∈ piecesFrom before es) : before <+: x.before := by
  induction es generalizing before with
  | nil => cases h
  | cons e rest ih =>
    rcases List.mem_cons.1 h with rfl | h
    · exact List.prefix_rfl
    · exact (List.prefix_append _ _).trans (ih h)

theorem pairwise_piecesFrom (before : List Char) (es : List Element) :
    (piecesFrom before es).Pairwise fun x y => x.upTo <+: y.before := by
  induction es generalizing before with
  | nil => exact .nil
  | cons e rest ih => exact .cons (fun y hy => prefix_of_mem_piecesFrom hy) (ih _)

theorem exists_covers_piecesFrom {before : List Char} {es : List Element} {p : SourceChar}
    (hbefore : before.length ≤ p.before.length)
    (hafter : p.before.length < before.length + (es.flatMap Element.text).length) :
    ∃ x ∈ piecesFrom before es, x.Covers p := by
  induction es generalizing before with
  | nil =>
    rw [List.flatMap_nil, List.length_nil] at hafter
    omega
  | cons e rest ih =>
    rw [List.flatMap_cons, List.length_append] at hafter
    by_cases hfirst : p.before.length < (before ++ e.text).length
    · exact ⟨_, List.mem_cons_self, hbefore, hfirst⟩
    · have hlength : (before ++ e.text).length = before.length + e.text.length := List.length_append
      obtain ⟨x, hx, hcovers⟩ := @ih (before ++ e.text) (by omega) (by omega)
      exact ⟨x, List.mem_cons_of_mem _ hx, hcovers⟩

namespace Piece

variable {source : List Char} {x y : Piece} {p : SourceChar} {t : Token}

theorem exists_after (hx : x ∈ pieces source) :
    ∃ after, source = x.upTo ++ after ∧ x.element.Reads after ∧ x.element.text ≠ [] :=
  exists_first_of_mem_pieces hx

theorem upTo_prefix (hx : x ∈ pieces source) : x.upTo <+: source := by
  obtain ⟨after, hsource, -⟩ := exists_after hx
  exact ⟨after, hsource.symm⟩

theorem length_before_lt (hx : x ∈ pieces source) : x.before.length < x.upTo.length := by
  obtain ⟨-, -, -, hne⟩ := exists_after hx
  have hpos := List.length_pos_iff.2 hne
  rw [upTo, List.length_append]
  omega

theorem eq_or_prefix (hx : x ∈ pieces source) (hy : y ∈ pieces source) :
    x = y ∨ x.upTo <+: y.before ∨ y.upTo <+: x.before := by
  have hpairwise := pairwise_piecesFrom [] (elements source)
  exact List.Pairwise.forall_of_forall_of_flip
    (R := fun x y => x = y ∨ x.upTo <+: y.before ∨ y.upTo <+: x.before) (fun _ _ => .inl rfl)
    (hpairwise.imp fun h => .inr (.inl h)) (hpairwise.imp fun h => .inr (.inr h)) hx hy

theorem eq_of_covers (hx : x ∈ pieces source) (hy : y ∈ pieces source) (hxp : x.Covers p)
    (hyp : y.Covers p) : x = y := by
  obtain ⟨hx₁, hx₂⟩ := hxp
  obtain ⟨hy₁, hy₂⟩ := hyp
  rcases eq_or_prefix hx hy with h | h | h
  · exact h
  · have := h.length_le
    omega
  · have := h.length_le
    omega

theorem token?_eq_some (h : x.token? = some t) :
    t.span = ⟨byteLength x.before, byteLength x.upTo⟩ ∧ t.line = lineAfter x.before := by
  obtain ⟨shape, -, rfl⟩ := Option.map_eq_some_iff.1 h
  rw [upTo, byteLength_append]
  exact ⟨rfl, rfl⟩

theorem exists_token {shape : Shape} (hx : x ∈ pieces source) (h : x.element.shape = some shape) :
    ∃ t ∈ (scan source).tokens, x.token? = some t := by
  have htoken : x.token? = some ⟨shape, ⟨byteLength x.before,
      byteLength x.before + x.element.byteCount⟩, lineAfter x.before⟩ := by
    rw [token?, Element.token?, h]
    rfl
  refine ⟨_, ?_, htoken⟩
  rw [tokens_scan]
  exact List.mem_filterMap.2 ⟨x, hx, htoken⟩

theorem outside (hx : x ∈ pieces source) (hshape : x.element.shape = none)
    (ht : t ∈ (scan source).tokens) :
    t.span.stop ≤ byteLength x.before ∨ byteLength x.upTo ≤ t.span.start := by
  rw [tokens_scan] at ht
  obtain ⟨y, hy, htoken⟩ := List.mem_filterMap.1 ht
  rw [(token?_eq_some htoken).1]
  rcases eq_or_prefix hx hy with rfl | h | h
  · rw [token?, Element.token?, hshape] at htoken
    cases htoken
  · exact .inr (byteLength_le_of_isPrefix h)
  · exact .inl (byteLength_le_of_isPrefix h)

section

variable (hp : p.source = source)
include hp

theorem exists_covers : ∃ x ∈ pieces source, x.Covers p := by
  refine exists_covers_piecesFrom (Nat.zero_le _) ?_
  rw [flatMap_text_elements, ← hp, SourceChar.source, List.length_append, List.length_cons]
  omega

theorem covers_iff_position (hx : x ∈ pieces source) :
    x.Covers p ↔ byteLength x.before ≤ p.position ∧ p.position < byteLength x.upTo := by
  have hbefore : p.before <+: source := ⟨_, hp⟩
  have hupTo := upTo_prefix hx
  have hstart : x.before <+: source := (List.prefix_append _ _).trans hupTo
  exact and_congr (byteLength_le_iff hstart hbefore).symm (byteLength_lt_iff hbefore hupTo).symm

theorem covers_token (hx : x ∈ pieces source) (ht : x.token? = some t) (h : x.Covers p) :
    t.Covers p := by
  rw [Token.Covers, (token?_eq_some ht).1]
  exact (covers_iff_position hp hx).1 h

theorem char_mem_text (hx : x ∈ pieces source) (h : x.Covers p) : p.char ∈ x.element.text := by
  obtain ⟨after, hsource, -⟩ := exists_after hx
  obtain ⟨hstart, hstop⟩ := h
  have hchar : source[p.before.length]? = some p.char := by
    rw [← hp, SourceChar.source]
    simp
  rw [hsource, List.getElem?_append_left hstop, upTo, List.getElem?_append_right hstart] at hchar
  exact List.mem_of_getElem? hchar

theorem exists_covers_of_inComment (h : p.InComment (scan source).tokens) :
    ∃ x ∈ pieces source, x.Covers p ∧ x.element.problems = [] := by
  obtain ⟨before, comment, after, hcomment, hisComment, hstart, hstop⟩ := h
  rw [hp] at hcomment
  obtain ⟨more, rfl⟩ := hisComment.slashes
  -- The first slash lies in a piece that spells no token, and slashes are neither blank nor stray.
  obtain ⟨slash, rfl, hchar, hslash⟩ :
      ∃ q : SourceChar, q.before = before ∧ q.char = '/' ∧ q.source = source :=
    ⟨⟨before, '/', '/' :: more ++ after⟩, rfl, rfl, by rw [hcomment, SourceChar.source]; simp⟩
  obtain ⟨x, hx, hcovers⟩ := exists_covers hslash
  have hmem := char_mem_text hslash hx hcovers
  obtain ⟨rest, hsource, hreads, -⟩ := exists_after hx
  rw [hchar] at hmem
  refine ⟨x, hx, ?_⟩
  generalize helement : x.element = e at hreads hmem
  cases hreads with
  | token hshape _ =>
    rw [← helement] at hshape
    obtain ⟨t, ht, htoken⟩ := exists_token hx hshape
    obtain ⟨hstart, hstop⟩ := covers_token hslash hx htoken hcovers
    rw [SourceChar.position] at hstart hstop
    rcases hisComment.outside t ht with h | h
    · omega
    · have := Char.utf8Size_pos '/'
      simp only [List.cons_append, byteLength_cons] at h
      omega
  | blank hblank => exact absurd (hblank _ hmem) (by decide)
  | comment hslashes hline hruns =>
    refine ⟨⟨hcovers.1.trans hstart, ?_⟩, rfl⟩
    -- Otherwise the line end that comes after the piece would belong to the comment.
    by_contra hbeyond
    have hnext : source[x.upTo.length]? = some '\n' := by
      rw [hsource, List.getElem?_append_right (Nat.le_refl _), Nat.sub_self]
      cases rest with
      | nil =>
        have := congrArg List.length (hp.trans hsource)
        rw [SourceChar.source, List.length_append, List.length_cons, List.append_nil] at this
        omega
      | cons c rest =>
        rw [hruns c rfl]
        rfl
    have hlt := hcovers.2
    rw [hcomment, List.getElem?_append_left (by rw [List.length_append]; omega),
      List.getElem?_append_right hlt.le] at hnext
    exact hisComment.oneLine (List.mem_of_getElem? hnext)
  | stray _ hstray =>
    obtain rfl := List.mem_singleton.1 hmem
    exact absurd (.inr (.inr (.inr ⟨.slash, rfl⟩))) hstray

end

/-! ## Stray characters -/

/-- The character of a piece that belongs to no token. -/
def stray? (source : List Char) (x : Piece) : Option SourceChar :=
  match x.element.problems with
  | [.unexpectedCharacter c] => some ⟨x.before, c, source.drop (x.before.length + 1)⟩
  | _ => none

theorem stray?_of_reads {after : List Char} (hsource : source = x.upTo ++ after)
    (h : x.element.Reads after) :
    (x.stray? source = none ∧ ∀ problem ∈ x.element.problems, problem.isCharacter = false) ∨
      ∃ c, x.element = ⟨[c], none, [.unexpectedCharacter c]⟩ ∧ Text.isBlank c = false ∧
        ¬StartsToken c ∧ x.stray? source = some ⟨x.before, c, after⟩ := by
  unfold stray?
  generalize helement : x.element = e at h
  cases h with
  | token hshape hproblems =>
    refine .inl ⟨?_, hproblems⟩
    split
    · next c hc =>
      rw [hc] at hproblems
      exact absurd (hproblems _ List.mem_cons_self) (by simp [ScanProblem.isCharacter])
    · rfl
  | blank => exact .inl ⟨rfl, by simp⟩
  | comment => exact .inl ⟨rfl, by simp⟩
  | @stray c _ hblank hstart =>
    refine .inr ⟨c, rfl, hblank, hstart, ?_⟩
    rw [hsource, upTo, helement]
    simp

theorem stray?_of_covers (hp : p.source = source) (hx : x ∈ pieces source) (hcovers : x.Covers p)
    (htokens : ∀ t ∈ (scan source).tokens, ¬t.Covers p) (hblank : Text.isBlank p.char = false)
    (hcomment : ¬p.InComment (scan source).tokens) : x.stray? source = some p := by
  have hmem := char_mem_text hp hx hcovers
  obtain ⟨after, hsource, hreads, -⟩ := exists_after hx
  rcases stray?_of_reads hsource hreads with ⟨-, hproblems⟩ | ⟨c, helement, -, -, hsome⟩
  · exfalso
    generalize helement : x.element = e at hreads hmem hproblems
    cases hreads with
    | token hshape _ =>
      rw [← helement] at hshape
      obtain ⟨t, ht, htoken⟩ := exists_token hx hshape
      exact htokens t ht (covers_token hp hx htoken hcovers)
    | blank hall =>
      rw [hall _ hmem] at hblank
      cases hblank
    | @comment text _ hslashes hline hruns =>
      have htext : x.element.text = text := by rw [helement]
      refine hcomment ⟨x.before, text, after, ?_, ⟨hslashes, hline, hruns, fun t ht => ?_⟩,
        hcovers.1, ?_⟩
      · rw [hp, hsource, upTo, htext]
      · rw [← byteLength_append, ← htext]
        exact outside hx (by rw [helement]) ht
      · rw [← List.length_append, ← htext]
        exact hcovers.2
    | stray => exact absurd (hproblems _ List.mem_cons_self) (by simp [ScanProblem.isCharacter])
  · have hupTo : x.upTo = x.before ++ [c] := by rw [upTo, helement]
    obtain ⟨hstart, hstop⟩ := hcovers
    rw [hupTo, List.length_append, List.length_singleton] at hstop
    have heq : p.before ++ p.char :: p.after = x.before ++ c :: after := by
      rw [← SourceChar.source, hp, hsource, hupTo]
      simp
    obtain ⟨hbefore, hrest⟩ := List.append_inj heq (by omega)
    obtain ⟨hchar, hafter⟩ := List.cons.inj hrest
    rw [hsome, ← hbefore, ← hchar, ← hafter]

theorem filter_diagnostics (hx : x ∈ pieces source) :
    x.diagnostics.filter Diagnostic.reportsCharacter =
      (x.stray? source).toList.map SourceChar.report := by
  obtain ⟨after, hsource, hreads, -⟩ := exists_after hx
  rcases stray?_of_reads hsource hreads with ⟨hnone, hproblems⟩ | ⟨c, helement, -, -, hsome⟩
  · rw [hnone, Option.toList_none, List.map_nil, List.filter_eq_nil_iff]
    intro d hd
    obtain ⟨problem, hproblem, rfl⟩ := List.mem_map.1 hd
    rw [ScanProblem.reportsCharacter_onLine, hproblems problem hproblem]
    exact Bool.false_ne_true
  · rw [hsome, diagnostics, Element.diagnostics, helement, List.map_singleton,
      List.filter_cons_of_pos (ScanProblem.reportsCharacter_onLine _ _)]
    rfl

theorem stray?_eq_some (hx : x ∈ pieces source) (h : x.stray? source = some p) :
    p.source = source ∧ x.Covers p ∧ p.before = x.before ∧ Text.isBlank p.char = false ∧
      ¬StartsToken p.char ∧ x.element.shape = none ∧ x.element.problems ≠ [] := by
  obtain ⟨after, hsource, hreads, -⟩ := exists_after hx
  rcases stray?_of_reads hsource hreads with ⟨hnone, -⟩ | ⟨c, helement, hblank, hstart, hsome⟩
  · rw [hnone] at h
    cases h
  · rw [hsome] at h
    cases h
    rw [Covers, hsource, SourceChar.source, upTo, helement]
    exact ⟨by simp, by simp, rfl, hblank, hstart, rfl, List.cons_ne_nil _ _⟩

end Piece

/-- The characters of a source text that belong to no token, blank or comment. -/
def strays (source : List Char) : List SourceChar := (pieces source).filterMap (Piece.stray? source)

theorem filter_diagnostics_scan (source : List Char) :
    (scan source).diagnostics.filter Diagnostic.reportsCharacter =
      (strays source).map SourceChar.report := by
  rw [diagnostics_scan, List.filter_flatMap, strays, List.filterMap_eq_flatMap_toList,
    List.map_flatMap]
  exact List.flatMap_congr fun x hx => Piece.filter_diagnostics hx

theorem pairwise_strays (source : List Char) :
    (strays source).Pairwise fun p q => p.position < q.position := by
  rw [strays, List.pairwise_filterMap]
  refine (pairwise_piecesFrom [] (elements source)).imp_of_mem fun {x y} hx hy hxy p hp q hq => ?_
  obtain ⟨hpsource, -, hpbefore, -⟩ := Piece.stray?_eq_some hx hp
  obtain ⟨hqsource, -, hqbefore, -⟩ := Piece.stray?_eq_some hy hq
  rw [SourceChar.position, SourceChar.position, byteLength_lt_iff ⟨_, hpsource⟩ ⟨_, hqsource⟩,
    hpbefore, hqbefore]
  exact (Piece.length_before_lt hx).trans_le hxy.length_le

theorem mem_strays_iff {source : List Char} {p : SourceChar} :
    p ∈ strays source ↔ p.source = source ∧ (∀ t ∈ (scan source).tokens, ¬t.Covers p) ∧
      Text.isBlank p.char = false ∧ ¬p.InComment (scan source).tokens := by
  rw [strays, List.mem_filterMap]
  constructor
  · rintro ⟨x, hx, hstray⟩
    obtain ⟨hp, hcovers, -, hblank, -, hshape, hproblems⟩ := Piece.stray?_eq_some hx hstray
    refine ⟨hp, fun t ht htp => ?_, hblank, fun hcomment => ?_⟩
    · have hposition := (Piece.covers_iff_position hp hx).1 hcovers
      have houtside := Piece.outside hx hshape ht
      rw [Token.Covers] at htp
      omega
    · obtain ⟨y, hy, hycovers, hnone⟩ := Piece.exists_covers_of_inComment hp hcomment
      obtain rfl := Piece.eq_of_covers hx hy hcovers hycovers
      exact hproblems hnone
  · rintro ⟨hp, htokens, hblank, hcomment⟩
    obtain ⟨x, hx, hcovers⟩ := Piece.exists_covers hp
    exact ⟨x, hx, Piece.stray?_of_covers hp hx hcovers htokens hblank hcomment⟩

theorem liesIn_of_mem_tokens {source : List Char} {t : Token} (h : t ∈ (scan source).tokens) :
    t.LiesIn source := by
  rw [tokens_scan] at h
  obtain ⟨x, hx, htoken⟩ := List.mem_filterMap.1 h
  obtain ⟨hspan, hline⟩ := Piece.token?_eq_some htoken
  obtain ⟨after, hsource, -, -⟩ := Piece.exists_after hx
  have hupTo := Piece.upTo_prefix hx
  refine ⟨x.before, x.element.text, after, hsource, ?_, ?_, hline⟩
  · rw [hspan, Piece.upTo, byteLength_append]
  · rw [hspan, byteLength_lt_iff ((List.prefix_append _ _).trans hupTo) hupTo]
    exact Piece.length_before_lt hx

theorem pairwise_tokens (source : List Char) :
    (scan source).tokens.Pairwise fun t u => t.span.stop ≤ u.span.start := by
  rw [tokens_scan, List.pairwise_filterMap]
  refine (pairwise_piecesFrom [] (elements source)).imp fun {x y} hxy t ht u hu => ?_
  rw [(Piece.token?_eq_some ht).1, (Piece.token?_eq_some hu).1]
  exact byteLength_le_of_isPrefix hxy

/-- The tokens of a source text cover separate stretches of it, first to last, each on the line of
its first character. There is one report for every character between them that is not blank and
belongs to no comment, on the line of the character and in the order of the text; no token starts
with such a character. -/
theorem scan_tiles (source : List Char) :
    (∀ t ∈ (scan source).tokens, t.LiesIn source) ∧
    ((scan source).tokens.Pairwise fun t u => t.span.stop ≤ u.span.start) ∧
    ∃ strays : List SourceChar,
      (strays.Pairwise fun p q => p.position < q.position) ∧
      (∀ p, p ∈ strays ↔ p.source = source ∧ (∀ t ∈ (scan source).tokens, ¬t.Covers p) ∧
        Text.isBlank p.char = false ∧ ¬p.InComment (scan source).tokens) ∧
      (∀ p ∈ strays, ¬StartsToken p.char) ∧
      (scan source).diagnostics.filter Diagnostic.reportsCharacter =
        strays.map SourceChar.report := by
  refine ⟨fun t => liesIn_of_mem_tokens, pairwise_tokens source, strays source,
    pairwise_strays source, fun p => mem_strays_iff, fun p hp => ?_, filter_diagnostics_scan source⟩
  obtain ⟨x, hx, hstray⟩ := List.mem_filterMap.1 hp
  obtain ⟨-, -, -, -, hstart, -⟩ := Piece.stray?_eq_some hx hstray
  exact hstart

end WordLang
