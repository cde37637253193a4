import WordLang.Proofs.Ensures
import WordLang.Proofs.Scope.Scoped
import WordLang.Proofs.Table

/-!
# What resolution notes

Resolution notes entries in tables, each under the identifier of a node. As long as it is going
on, the entries are followed as lists; the identifiers of a module are distinct, so in the end
every entry is found in its table.

## Main definitions

* `Notes`: entries in the order in which they were made
* `Notes.Covers`: notes for exactly given names, `break`s and statements

## Main results

* `find?_ofList_iff_mem`: a table of notes gives what is expected to be noted
-/

namespace WordLang

/-- What resolution noted, in the order in which it did. -/
structure Notes where
  bindings : List (ExprId × Binding) := []
  ends : List (StmtId × StmtId) := []
  declarations : List (StmtId × Stmt) := []
  functions : List StmtId := []

namespace Notes

instance : Append Notes where
  append a b := ⟨a.bindings ++ b.bindings, a.ends ++ b.ends, a.declarations ++ b.declarations,
    a.functions ++ b.functions⟩

variable {a b : Notes}

@[simp] theorem bindings_append : (a ++ b).bindings = a.bindings ++ b.bindings := rfl

@[simp] theorem ends_append : (a ++ b).ends = a.ends ++ b.ends := rfl

@[simp] theorem declarations_append : (a ++ b).declarations = a.declarations ++ b.declarations := rfl

@[simp] theorem functions_append : (a ++ b).functions = a.functions ++ b.functions := rfl

@[ext] theorem ext (hb : a.bindings = b.bindings) (he : a.ends = b.ends)
    (hd : a.declarations = b.declarations) (hf : a.functions = b.functions) : a = b := by
  obtain ⟨_, _, _, _⟩ := a
  cases hb
  cases he
  cases hd
  cases hf
  rfl

@[simp] theorem append_empty : a ++ ({} : Notes) = a := by
  ext <;> simp

theorem append_assoc (c : Notes) : a ++ b ++ c = a ++ (b ++ c) := by
  ext <;> simp

/-- The tables of what was noted. -/
def resolutions (notes : Notes) : Resolutions where
  bindings := .ofList notes.bindings
  breakTargets := .ofList notes.ends
  declarations := .ofList notes.declarations
  functions := notes.functions

end Notes

/-! ## Notes for what there is -/

/-- What was noted is given names, `break`s, declarations and functions, in some order. -/
structure Notes.Covers (notes : Notes) (uses : List (ExprId × Option Binding))
    (ends : List (StmtId × Option StmtId)) (declarations : List (StmtId × Stmt))
    (functions : List StmtId) : Prop where
  bindings : (notes.bindings.map (Prod.map id some)).Perm uses
  ends : (notes.ends.map (Prod.map id some)).Perm ends
  declarations : notes.declarations.Perm declarations
  functions : notes.functions.Perm functions

namespace Notes.Covers

variable {a b : Notes} {us us' : List (ExprId × Option Binding)} {es es' : List (StmtId × Option StmtId)}
  {ds ds' : List (StmtId × Stmt)} {fs fs' : List StmtId}

theorem empty : Covers {} [] [] [] [] := ⟨.nil, .nil, .nil, .nil⟩

theorem append (ha : a.Covers us es ds fs) (hb : b.Covers us' es' ds' fs') :
    (a ++ b).Covers (us ++ us') (es ++ es') (ds ++ ds') (fs ++ fs') where
  bindings := by
    rw [bindings_append, List.map_append]
    exact ha.bindings.append hb.bindings
  ends := by
    rw [ends_append, List.map_append]
    exact ha.ends.append hb.ends
  declarations := ha.declarations.append hb.declarations
  functions := ha.functions.append hb.functions

theorem perm (h : a.Covers us es ds fs) (hu : us.Perm us') (he : es.Perm es') (hd : ds.Perm ds')
    (hf : fs.Perm fs') : a.Covers us' es' ds' fs' where
  bindings := h.bindings.trans hu
  ends := h.ends.trans he
  declarations := h.declarations.trans hd
  functions := h.functions.trans hf

end Notes.Covers

section

variable {β : Type} {entries : List (Nat × β)} {expected : List (Nat × Option β)}

theorem exists_eq_some_of_mem (h : (entries.map (Prod.map id some)).Perm expected) {k : Nat}
    {o : Option β} (hmem : (k, o) ∈ expected) : ∃ v, o = some v := by
  obtain ⟨⟨k', v⟩, -, heq⟩ := List.mem_map.1 (h.mem_iff.2 hmem)
  cases heq
  exact ⟨v, rfl⟩

theorem find?_ofList_iff_mem (h : (entries.map (Prod.map id some)).Perm expected)
    (hnodup : (expected.map Prod.fst).Nodup) {k : Nat} {v : β} :
    (Table.ofList entries).find? k = some v ↔ (k, some v) ∈ expected := by
  have hkeys : (entries.map Prod.fst).Nodup := by
    refine (List.Perm.nodup_iff ?_).1 hnodup
    have hfst := (h.map Prod.fst).symm
    rwa [List.map_map] at hfst
  rw [← h.mem_iff, List.mem_map]
  constructor
  · intro hfind
    exact ⟨(k, v), Table.mem_of_find?_ofList hfind, rfl⟩
  · rintro ⟨⟨k', v'⟩, hmem, heq⟩
    cases heq
    exact Table.find?_ofList_of_mem hkeys hmem

end

end WordLang
