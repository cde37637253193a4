import WordLang.Proofs.Tree.Progress
import WordLang.Token.Stream

/-!
# Lookahead

Looking ahead in a token stream does not disturb it. However the calls of a stream are mixed, the
tokens that are taken are the first ones of the source text, and the problems that are taken are its
first ones, all of them once the end was seen.

## Main definitions

* `TokenStream.Call`, `TokenStream.Reply`, `TokenStream.replies`: what can be asked of a stream, and
  what it answers
* `TokenStream.ahead`, `TokenStream.found`: the tokens and the problems that are still to come

## Main results

* `TokenStream.call_meets`, `TokenStream.exists_of_replies_eq`: one call, and calls up to a reply
* `Module.reported_of_ofSource?`: the problems of elements among those of a source text
* `TokenStream.replies_ofSource`: every sequence of calls
-/

namespace WordLang

namespace TokenStream

/-- A call of a token stream. -/
inductive Call where
  | peek
  | next
  | line
  | takeDiagnostics
deriving Repr, DecidableEq

/-- What a call of a token stream gives. -/
inductive Reply where
  | peeked (token : Option Token)
  | taken (token : Option Token)
  | line (line : Nat)
  | problems (list : List Diagnostic)
deriving Repr, DecidableEq

namespace Reply

/-- The answer to `next`. -/
def taken? : Reply → Option (Option Token)
  | .taken token => some token
  | _ => none

/-- The problems that were taken. -/
def drained : Reply → List Diagnostic
  | .problems list => list
  | _ => []

/-- No token is left. -/
def AtEnd (r : Reply) : Prop := r = .peeked none ∨ r = .taken none

end Reply

/-- One call. -/
def call (s : TokenStream) : Call → Reply × TokenStream
  | .peek => (.peeked s.peek.1, s.peek.2)
  | .next => (.taken s.next.1, s.next.2)
  | .line => (.line s.line, s)
  | .takeDiagnostics => (.problems s.takeDiagnostics.1, s.takeDiagnostics.2)

/-- What calls give, one after the other. -/
def replies (s : TokenStream) : List Call → List Reply
  | [] => []
  | c :: cs => (s.call c).1 :: (s.call c).2.replies cs

/-! ## What is still to come -/

/-- The scan of the elements that are not read yet. -/
def unread (s : TokenStream) : Scan := scanFrom s.position s.line s.elements

/-- The tokens that are not taken yet. -/
def ahead (s : TokenStream) : List Token := s.pending.toList ++ s.unread.tokens

/-- The problems that are not taken yet. -/
def found (s : TokenStream) : List Diagnostic := s.diagnostics ++ s.unread.diagnostics

/-- Nothing is left to read. -/
def Exhausted (s : TokenStream) : Prop := s.elements = [] ∧ s.pending = none

variable {s : TokenStream}

theorem Exhausted.found_eq (h : s.Exhausted) : s.found = s.diagnostics := by
  rw [found, unread, h.1, scanFrom, List.append_nil]

theorem readFrom_meets (s : TokenStream) (es : List Element) :
    (s.readFrom es).1 = (scanFrom s.position s.line es).tokens.head? ∧
      (s.readFrom es).2.unread.tokens = (scanFrom s.position s.line es).tokens.tail ∧
      (s.readFrom es).2.found = s.diagnostics ++ (scanFrom s.position s.line es).diagnostics ∧
      (s.readFrom es).2.pending = s.pending ∧
      ((s.readFrom es).1 = none → (s.readFrom es).2.elements = []) := by
  induction es generalizing s with
  | nil => simp [readFrom, scanFrom, unread, found]
  | cons e rest ih =>
    cases htoken : e.token? s.position s.line with
    | some token => simp [readFrom, htoken, scanFrom, unread, found, skip]
    | none =>
      obtain ⟨htoken', htokens, hfound, hpending, hend⟩ := ih (s.skip e rest)
      simp only [readFrom, htoken, scanFrom, Option.toList_none, List.nil_append]
      refine ⟨htoken', htokens, ?_, hpending, hend⟩
      rw [hfound, skip, List.append_assoc]

/-- What a reply says about the tokens before and after the call. -/
def Reply.Tells (tokens tokens' : List Token) : Reply → Prop
  | .peeked token => token = tokens.head? ∧ tokens' = tokens
  | .taken token => token = tokens.head? ∧ tokens' = tokens.tail
  | _ => tokens' = tokens

theorem call_meets (s : TokenStream) (c : Call) :
    (s.call c).1.Tells s.ahead (s.call c).2.ahead ∧
      s.found = (s.call c).1.drained ++ (s.call c).2.found ∧
      ((s.call c).1.AtEnd ∨ s.Exhausted → (s.call c).2.Exhausted) := by
  obtain ⟨htoken, htokens, hfound, hpending, hend⟩ := s.readFrom_meets s.elements
  have hnone (h : s.Exhausted) : s.read.1 = none := by rw [read, h.1, readFrom]
  -- What was looked at before is still there, or the elements have to be read.
  cases c with
  | peek =>
    cases hlooked : s.pending with
    | some token =>
      simp [call, peek, hlooked, Reply.Tells, Reply.drained, Reply.AtEnd, Exhausted, ahead]
    | none =>
      have hpeek : s.peek = (s.read.1, { s.read.2 with pending := s.read.1 }) := by
        rw [peek, hlooked]
      rw [call, hpeek]
      refine ⟨⟨?_, ?_⟩, hfound.symm, fun h => ?_⟩
      · rw [ahead, hlooked]
        exact htoken
      · change s.read.1.toList ++ s.read.2.unread.tokens = s.pending.toList ++ s.unread.tokens
        rw [hlooked, show s.read.1 = _ from htoken, show s.read.2.unread.tokens = _ from htokens]
        change _ = s.unread.tokens
        rw [unread]
        cases (scanFrom s.position s.line s.elements).tokens <;> rfl
      · have hread : s.read.1 = none := h.elim (fun h => by simpa [Reply.AtEnd] using h) hnone
        exact ⟨hend hread, hread⟩
  | next =>
    cases hlooked : s.pending with
    | some token =>
      simp [call, next, hlooked, Reply.Tells, Reply.drained, Reply.AtEnd, Exhausted, ahead, found,
        unread]
    | none =>
      have hnext : s.next = s.read := by rw [next, hlooked]
      rw [call, hnext]
      refine ⟨⟨?_, ?_⟩, hfound.symm, fun h => ?_⟩
      · rw [ahead, hlooked]
        exact htoken
      · rw [ahead, ahead, read, hpending, hlooked]
        exact htokens
      · have hread : s.read.1 = none := h.elim (fun h => by simpa [Reply.AtEnd] using h) hnone
        exact ⟨hend hread, hpending.trans hlooked⟩
  | line => simp [call, Reply.Tells, Reply.drained, Reply.AtEnd]
  | takeDiagnostics =>
    simp [call, takeDiagnostics, Reply.Tells, Reply.drained, Reply.AtEnd, Exhausted, ahead, found,
      unread]

/-! ## Sequences of calls -/

theorem taken_replies (s : TokenStream) (calls : List Call) :
    (s.replies calls).filterMap Reply.taken? =
      (s.ahead.take (calls.count .next)).map some ++
        List.replicate (calls.count .next - s.ahead.length) none := by
  induction calls generalizing s with
  | nil => simp [replies]
  | cons c cs ih =>
    have htells := (s.call_meets c).1
    have hrest := ih (s.call c).2
    rw [replies]
    cases c with
    | next =>
      obtain ⟨htoken, htail⟩ := htells
      rw [htail] at hrest
      change s.next.1 :: List.filterMap _ _ = _
      rw [hrest, htoken, List.count_cons_self]
      cases s.ahead with
      | nil => simp [List.replicate_succ]
      | cons token tokens => simp
    | peek =>
      rw [htells.2] at hrest
      rwa [List.filterMap_cons_none rfl, List.count_cons_of_ne (by decide)]
    | line | takeDiagnostics =>
      rw [show _ = s.ahead from htells] at hrest
      rwa [List.filterMap_cons_none rfl, List.count_cons_of_ne (by decide)]

theorem eq_head?_of_taken {calls : List Call} {token : Option Token}
    (h : token ∈ ((s.replies calls).filterMap Reply.taken?).head?) : token = s.ahead.head? := by
  rw [taken_replies] at h
  cases hn : calls.count .next <;> cases hahead : s.ahead <;> simp_all [List.replicate_succ]

/-- The calls up to a reply: the tokens and the problems taken before it were the first ones. -/
theorem exists_of_replies_eq {calls : List Call} {before after : List Reply} {r : Reply}
    (h : s.replies calls = before ++ r :: after) :
    ∃ (s' : TokenStream) (c : Call) (cs : List Call), r = (s'.call c).1 ∧
      after = (s'.call c).2.replies cs ∧
      s'.ahead = s.ahead.drop (before.filterMap Reply.taken?).length ∧
      s.found = before.flatMap Reply.drained ++ s'.found := by
  induction before generalizing s calls with
  | nil =>
    cases calls with
    | nil => cases h
    | cons c cs =>
      rw [replies, List.nil_append, List.cons.injEq] at h
      exact ⟨s, c, cs, h.1.symm, h.2.symm, rfl, rfl⟩
  | cons first before ih =>
    cases calls with
    | nil => cases h
    | cons c cs =>
      rw [replies, List.cons_append, List.cons.injEq] at h
      obtain ⟨rfl, h⟩ := h
      obtain ⟨s', c', cs', hr, hafter, hahead, hfound⟩ := ih h
      obtain ⟨htells, hdrained, -⟩ := s.call_meets c
      refine ⟨s', c', cs', hr, hafter, hahead.trans ?_, ?_⟩
      · cases c with
        | next =>
          change _ = s.ahead.drop ((before.filterMap Reply.taken?).length + 1)
          rw [htells.2, ← List.drop_one, List.drop_drop, Nat.add_comm]
        | peek => rw [htells.2, List.filterMap_cons_none rfl]
        | line | takeDiagnostics => rw [show _ = s.ahead from htells, List.filterMap_cons_none rfl]
      · rw [hdrained, hfound, List.flatMap_cons, List.append_assoc]

theorem drained_prefix_found (s : TokenStream) (calls : List Call) :
    (s.replies calls).flatMap Reply.drained <+: s.found := by
  induction calls generalizing s with
  | nil => exact List.nil_prefix
  | cons c cs ih =>
    rw [replies, List.flatMap_cons, (s.call_meets c).2.1]
    exact (List.prefix_append_right_inj _).2 (ih _)

/-- Once nothing is left to read, all problems are taken at once. -/
theorem Exhausted.drained_eq {calls : List Call} (h : s.Exhausted)
    (hcalls : ∃ list, .problems list ∈ s.replies calls) :
    (s.replies calls).flatMap Reply.drained = s.found := by
  induction calls generalizing s with
  | nil => simp [replies] at hcalls
  | cons c cs ih =>
    obtain ⟨htells, hfound, hend⟩ := s.call_meets c
    have hrest := ih (hend (.inr h))
    rw [replies, List.flatMap_cons]
    cases c with
    | takeDiagnostics =>
      have hnil : (s.call .takeDiagnostics).2.found = [] := (hend (.inr h)).found_eq
      have := (s.call .takeDiagnostics).2.drained_prefix_found cs
      rw [hnil, List.prefix_nil] at this
      rw [this, hfound, hnil]
    | peek | next | line =>
      rw [hfound, hrest]
      simpa [replies, call] using hcalls

end TokenStream

/-! ## Source texts -/

theorem stage_of_mem_scanFrom {position line : Nat} {es : List Element} {d : Diagnostic}
    (h : d ∈ (scanFrom position line es).diagnostics) : d.stage = .lexer := by
  induction es generalizing position line with
  | nil => cases h
  | cons e rest ih =>
    rcases List.mem_append.1 h with h | h
    · obtain ⟨problem, -, rfl⟩ := List.mem_map.1 h
      rfl
    · exact ih h

/-- The report on a source text that cannot be read has each problem of its elements once. -/
theorem Module.reported_of_ofSource? {source : List Char} {e : Failure}
    (he : Module.ofSource? source = .error e) : ∃ problems, e = .unreadable problems ∧
      (problems.filter fun d => d.stage = .lexer).Perm (scan source).diagnostics := by
  obtain ⟨list, σ, hrun, -, hadvances, -⟩ := Parse.items_runs
    { tokens := (scan source).tokens, lastLine := (scan source).lastLine }
  obtain ⟨ds, hds, hproblems⟩ := hadvances.problems
  have hsort := List.mergeSort_perm ((scan source).diagnostics ++ σ.problems)
    fun a b => decide (a.line ≤ b.line)
  have hlexer : (scan source).diagnostics.filter (fun d => d.stage = .lexer) = _ :=
    List.filter_eq_self.2 fun d hd => decide_eq_true (stage_of_mem_scanFrom hd)
  have hparser : σ.problems.filter (fun d => d.stage = .lexer) = [] := by
    rw [hproblems, List.nil_append]
    exact List.filter_eq_nil_iff.2 fun d hd => by rw [hds d hd]; decide
  rw [Module.ofSource?, show Parse.items.run _ = _ from hrun] at he
  dsimp only at he
  split at he
  · cases he
  · cases he
    refine ⟨_, rfl, (hsort.filter _).trans (.of_eq ?_)⟩
    rw [List.filter_append, hlexer, hparser, List.append_nil]

/-- However the calls of the stream of a source text are mixed, the answers to `next` are the tokens
of the text and then no tokens, and each answer to `peek` is the one that the following `next`
gives. The problems that are taken are the first ones of the text, and all of them if they are taken
after no token was left; what is reported about the text has each of them once. -/
theorem TokenStream.replies_ofSource (source : List Char) (calls : List TokenStream.Call) :
    ((ofSource source).replies calls).filterMap Reply.taken? =
      ((scan source).tokens.take (calls.count .next)).map some ++
        List.replicate (calls.count .next - (scan source).tokens.length) none ∧
    (∀ before token after, (ofSource source).replies calls = before ++ .peeked token :: after →
      token = (scan source).tokens[(before.filterMap Reply.taken?).length]? ∧
        ∀ token' ∈ (after.filterMap Reply.taken?).head?, token' = token) ∧
    ((ofSource source).replies calls).flatMap Reply.drained <+: (scan source).diagnostics ∧
    (∀ before r after, (ofSource source).replies calls = before ++ r :: after → r.AtEnd →
      (∃ list, .problems list ∈ after) →
      ((ofSource source).replies calls).flatMap Reply.drained = (scan source).diagnostics) ∧
    (∀ m, Module.ofSource? source = .ok m → (scan source).diagnostics = []) ∧
    ∀ e, Module.ofSource? source = .error e → ∃ problems, e = .unreadable problems ∧
      (problems.filter fun d => d.stage = .lexer).Perm (scan source).diagnostics := by
  refine ⟨taken_replies _ _, fun before token after h => ?_, drained_prefix_found _ _,
    fun before r after h hr hlist => ?_, fun _ hm => (Module.ofSource?_eq_ok.1 hm).1,
    fun _ => Module.reported_of_ofSource?⟩
  · obtain ⟨s, c, cs, hr, rfl, hahead, -⟩ := exists_of_replies_eq h
    have htells := (s.call_meets c).1
    rw [← hr] at htells
    refine ⟨?_, fun token' htoken' => ?_⟩
    · rw [htells.1, hahead, List.head?_drop]
      rfl
    · rw [htells.1, ← htells.2]
      exact eq_head?_of_taken htoken'
  · obtain ⟨s, c, cs, rfl, rfl, -, hfound⟩ := exists_of_replies_eq h
    obtain ⟨-, hdrained, hend⟩ := s.call_meets c
    rw [h, List.flatMap_append, List.flatMap_cons, (hend (.inl hr)).drained_eq hlist, ← hdrained]
    exact hfound.symm

/-- A word and a character that belongs to nothing. -/
def wordAndStray : List Char := "a $".toList

/-- Looking beyond the word finds the character, which is reported when problems are taken. -/
theorem TokenStream.replies_wordAndStray :
    ((ofSource wordAndStray).replies [.next, .peek, .takeDiagnostics]).flatMap Reply.drained =
      (scan wordAndStray).diagnostics ∧ (scan wordAndStray).diagnostics ≠ [] := by
  have hreplies : (ofSource wordAndStray).replies [.next, .peek, .takeDiagnostics] =
      [.taken (some ⟨.identifier "a", ⟨0, 1⟩, 1⟩)] ++ .peeked none ::
        [.problems [ScanProblem.onLine (.unexpectedCharacter '$') 1]] := by
    decide +kernel
  obtain ⟨-, -, -, hall, -⟩ := replies_ofSource wordAndStray [.next, .peek, .takeDiagnostics]
  exact ⟨hall _ _ _ hreplies (.inl rfl) ⟨_, List.mem_singleton_self _⟩, by decide +kernel⟩

end WordLang
