import Mathlib.Data.List.TakeWhile
import WordLang.Proofs.Tree.Acceptance

/-!
# Names of functions

A function is named by an identifier of the source text, so its name has letters, digits and
underscores only.

## Main results

* `isWordPart_of_identifier`: the characters of identifiers
* `Grammar.Stmts.identifier_of_function`: functions are named by tokens that spell them
* `Module.isWordPart_of_function`: the characters of the names of functions
-/

namespace WordLang

/-! ## Identifiers -/

theorem Element.isWordPart_of_first {c : Char} {rest : List Char} {name : String}
    (h : (Element.first c rest).1.shape = some (.identifier name)) :
    ∀ d ∈ name.toList, isWordPart d = true := by
  unfold Element.first at h
  split at h
  · cases h
  split at h
  · cases h
  split at h
  · cases h
  split at h
  · unfold numberElement at h
    dsimp only at h
    split at h <;> cases h
  split at h
  · next hstart =>
    simp only [wordShape, Option.some.injEq] at h
    split at h <;> cases h
    rw [String.toList_ofList, List.forall_mem_cons]
    refine ⟨?_, fun d hd => List.mem_takeWhile_imp hd⟩
    rw [isWordStart, Bool.or_eq_true] at hstart
    rw [isWordPart, Char.isAlphanum, Bool.or_eq_true, Bool.or_eq_true]
    exact hstart.imp_left .inl
  have hsign : (signElement c).shape ≠ some (.identifier name) := by
    unfold signElement
    split <;> simp
  split at h
  · exact absurd h hsign
  split at h
  · cases h
  · exact absurd h hsign

theorem exists_element_of_mem_scanFrom {position line : Nat} {es : List Element} {t : Token}
    (h : t ∈ (scanFrom position line es).tokens) : ∃ e ∈ es, e.shape = some t.shape := by
  induction es generalizing position line with
  | nil => cases h
  | cons e es ih =>
    rcases List.mem_append.1 h with h | h
    · obtain ⟨shape, hshape, rfl⟩ := Option.map_eq_some_iff.1 (Option.mem_toList.1 h)
      exact ⟨e, List.mem_cons_self, hshape⟩
    · obtain ⟨e', he', hshape⟩ := ih h
      exact ⟨e', List.mem_cons_of_mem e he', hshape⟩

/-- An identifier has letters, digits and underscores only. -/
theorem isWordPart_of_identifier {source : List Char} {name : String}
    (h : Shape.identifier name ∈ (scan source).tokens.map Token.shape) :
    ∀ d ∈ name.toList, isWordPart d = true := by
  obtain ⟨t, ht, hshape⟩ := List.mem_map.1 h
  obtain ⟨e, he, hshape'⟩ := exists_element_of_mem_scanFrom ht
  rw [hshape] at hshape'
  clear h ht
  fun_induction elements source with
  | case1 => cases he
  | case2 c rest ih =>
    rcases List.mem_cons.1 he with rfl | he
    · exact Element.isWordPart_of_first hshape'
    · exact ih he

/-! ## Functions -/

namespace Stmt

mutual

theorem all_plain : ∀ s : Stmt, s.plain.all = s.all.map Stmt.plain
  | .function tag decl => by rw [Stmt.plain, all, all, List.map_cons, allOfBody_plain decl, Stmt.plain]
  | .loop tag body => by rw [Stmt.plain, all, all, List.map_cons, allOfBlock_plain body, Stmt.plain]
  | .while tag condition body => by
    rw [Stmt.plain, all, all, List.map_cons, allOfBlock_plain body, Stmt.plain]
  | .choose tag condition truthy falsy => by
    rw [Stmt.plain, all, all, List.cons_append, List.cons_append, List.map_cons, List.map_append,
      allOfBlock_plain truthy, allOfOption_plain falsy, Stmt.plain]
  | .error _ | .declare .. | .return .. | .break _ | .assign .. | .eval .. => rfl

theorem allOfBody_plain : ∀ decl : FnDecl, allOfBody decl.plain = (allOfBody decl).map Stmt.plain
  | ⟨_, _, _, _, body⟩ => allOfOption_plain body

theorem allOfOption_plain : ∀ b : Option Block,
    allOfOption (Block.plainOption b) = (allOfOption b).map Stmt.plain
  | none => rfl
  | some block => allOfBlock_plain block

theorem allOfBlock_plain : ∀ b : Block, allOfBlock b.plain = (allOfBlock b).map Stmt.plain
  | ⟨_, list⟩ => allOfList_plain list

theorem allOfList_plain : ∀ list : List Stmt,
    allOfList (plainList list) = (allOfList list).map Stmt.plain
  | [] => rfl
  | s :: rest => by
    rw [plainList, allOfList, allOfList, List.map_append, all_plain s, allOfList_plain rest]

end

end Stmt

namespace Grammar

/-- The statements within what is spelled. -/
def Clause.all : Clause → List Stmt
  | .statement s => s.all
  | .choice s => s.all
  | .alternative b => Stmt.allOfOption b
  | .body b => Stmt.allOfOption b
  | .block b => Stmt.allOfBlock b
  | .statements list => Stmt.allOfList list

theorem Stmts.identifier_of_function {clause : Clause} {ts : List Shape} (h : Stmts clause ts)
    {tag : Tag} {decl : FnDecl} (hmem : Stmt.function tag decl ∈ clause.all) :
    Shape.identifier decl.ident.name ∈ ts := by
  induction h with
  | function _ _ _ _ ih =>
    rcases List.mem_cons.1 hmem with hmem | hmem
    · cases hmem
      simp [Ident.bare]
    · simp [ih hmem]
  | loop _ ih =>
    rcases List.mem_cons.1 hmem with hmem | hmem
    · cases hmem
    · exact List.mem_cons_of_mem _ (ih hmem)
  | «while» _ _ ih =>
    rcases List.mem_cons.1 hmem with hmem | hmem
    · cases hmem
    · simp [ih hmem]
  | choose _ _ _ ih ih' =>
    rcases List.mem_cons.1 hmem with hmem | hmem
    · cases hmem
    · rcases List.mem_append.1 hmem with hmem | hmem
      · simp [ih hmem]
      · simp [ih' hmem]
  | choice _ ih => exact ih hmem
  | otherwise _ ih => exact List.mem_cons_of_mem _ (ih hmem)
  | otherwiseIf _ ih =>
    rw [Clause.all, Stmt.allOfOption, Stmt.allOfBlock, Stmt.allOfList, Stmt.allOfList,
      List.append_nil] at hmem
    exact List.mem_cons_of_mem _ (ih hmem)
  | body _ ih => exact ih hmem
  | block _ ih => simp [ih hmem]
  | cons _ _ ih ih' =>
    rcases List.mem_append.1 hmem with hmem | hmem
    · exact List.mem_append_left _ (ih hmem)
    · exact List.mem_append_right _ (ih' hmem)
  | _ => simp [Clause.all, Stmt.all, Stmt.allOfOption, Stmt.allOfList] at hmem

end Grammar

/-- The name of a function has letters, digits and underscores only. -/
theorem Module.isWordPart_of_function {source : List Char} {m : Module}
    (h : Module.ofSource? source = .ok m) {tag : Tag} {decl : FnDecl}
    (hmem : Stmt.function tag decl ∈ m.statements) :
    ∀ d ∈ decl.ident.name.toList, isWordPart d = true := by
  obtain ⟨ident, attrs, params, result, body⟩ := decl
  have hplain : Stmt.plain (.function tag ⟨ident, attrs, params, result, body⟩) ∈
      (Grammar.Clause.statements m.plain.items).all := by
    rw [Grammar.Clause.all, Module.plain, Stmt.allOfList_plain]
    exact List.mem_map_of_mem hmem
  rw [Stmt.plain, FnDecl.plain] at hplain
  have hname := (Module.spells_of_ofSource? h).2.identifier_of_function hplain
  exact isWordPart_of_identifier hname

end WordLang
