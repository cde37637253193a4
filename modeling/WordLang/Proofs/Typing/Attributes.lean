import Mathlib.Data.List.Nodup
import WordLang.Linkage
import WordLang.Proofs.Ensures

/-!
# Attributes of functions

The attributes of a function state its foreign names: `c_function` the one that it stands for,
`c_export` the one under which foreign code calls it. Each of them may be stated once, with a text
as its only argument, and there are no other attributes.

## Main definitions

* `Attr.Valid`, `Attr.AllValid`: attributes that state foreign names
* `Attr.Named`: whether there is an attribute of a given name

## Main results

* `FnDecl.linkage_ok_iff`: functions have a linkage exactly if their attributes are valid
* `FnDecl.foreign_iff`, `FnDecl.exported_iff`: what the linkage says
-/

namespace WordLang

structure Attr.Valid (attr : Attr) : Prop where
  known : attr.ident.name = "c_function" ∨ attr.ident.name = "c_export"
  text : ∃ tag text, attr.args = [.string tag text]

/-- There is an attribute of this name. -/
def Attr.Named (attrs : List Attr) (name : String) : Prop := ∃ attr ∈ attrs, attr.ident.name = name

/-- Attributes that state foreign names, each kind of name once. -/
structure Attr.AllValid (attrs : List Attr) : Prop where
  valid : ∀ attr ∈ attrs, attr.Valid
  once : (attrs.map fun attr => attr.ident.name).Nodup

theorem Attr.named_cons {attr : Attr} {attrs : List Attr} {name : String} :
    Attr.Named (attr :: attrs) name ↔ attr.ident.name = name ∨ Attr.Named attrs name := by
  simp [Attr.Named]

theorem Attr.allValid_cons {attr : Attr} {attrs : List Attr} : Attr.AllValid (attr :: attrs) ↔
    attr.Valid ∧ ¬Attr.Named attrs attr.ident.name ∧ Attr.AllValid attrs := by
  constructor
  · rintro ⟨hvalid, honce⟩
    obtain ⟨hfirst, honce⟩ := List.nodup_cons.1 honce
    refine ⟨hvalid attr List.mem_cons_self, ?_, fun a ha => hvalid a (List.mem_cons_of_mem _ ha), honce⟩
    rintro ⟨a, ha, hname⟩
    exact hfirst (List.mem_map.2 ⟨a, ha, hname⟩)
  · rintro ⟨hattr, hfirst, hvalid, honce⟩
    refine ⟨List.forall_mem_cons.2 ⟨hattr, hvalid⟩, List.nodup_cons.2 ⟨fun hmem => ?_, honce⟩⟩
    obtain ⟨a, ha, hname⟩ := List.mem_map.1 hmem
    exact hfirst ⟨a, ha, hname⟩

theorem Attr.text_eq_ok_iff {attr : Attr} {text : String} :
    attr.text = .ok text ↔ ∃ tag, attr.args = [.string tag text] := by
  unfold Attr.text
  split
  · next tag text' hargs => simp [hargs]
  · next e hne hargs =>
    rw [hargs]
    constructor
    · rintro ⟨⟩
    · rintro ⟨tag, heq⟩
      cases heq
      exact (hne tag text rfl).elim
  · next args hne hne' =>
    constructor
    · rintro ⟨⟩
    · rintro ⟨tag, heq⟩
      exact (hne tag text heq).elim

namespace Linkage

variable {linkage linkage' : Linkage} {attr : Attr} {attrs : List Attr}

theorem state_eq_ok_iff {state : String → Linkage} :
    (do return state (← attr.text) : Except Failure Linkage) = .ok linkage ↔
      ∃ tag text, attr.args = [.string tag text] ∧ linkage = state text := by
  cases htext : attr.text with
  | ok text =>
    obtain ⟨tag, hargs⟩ := Attr.text_eq_ok_iff.1 htext
    rw [hargs]
    constructor
    · rintro ⟨⟩
      exact ⟨tag, text, rfl, rfl⟩
    · rintro ⟨tag', text', ⟨⟩, rfl⟩
      rfl
  | error failure =>
    constructor
    · rintro ⟨⟩
    · rintro ⟨tag, text, hargs, -⟩
      rw [Attr.text_eq_ok_iff.2 ⟨tag, hargs⟩] at htext
      cases htext

theorem add_eq_ok_iff : linkage.add attr = .ok linkage' ↔
    (attr.ident.name = "c_function" ∧ linkage.foreign = none ∧
        ∃ tag text, attr.args = [.string tag text] ∧
          linkage' = { linkage with foreign := some text }) ∨
      (attr.ident.name = "c_export" ∧ linkage.exported = none ∧
        ∃ tag text, attr.args = [.string tag text] ∧
          linkage' = { linkage with exported := some text }) := by
  have hne : "c_function" ≠ "c_export" := by decide
  unfold add
  split
  · next hname =>
    rw [hname]
    split
    · next hsome => simp [hne, Option.isSome_iff_ne_none.1 hsome]
    · next hnone =>
      rw [state_eq_ok_iff]
      simp [hne, Option.not_isSome_iff_eq_none.1 hnone]
  · next hname =>
    split
    · next hname' =>
      rw [hname']
      split
      · next hsome => simp [hne.symm, Option.isSome_iff_ne_none.1 hsome]
      · next hnone =>
        rw [state_eq_ok_iff]
        simp [hne.symm, Option.not_isSome_iff_eq_none.1 hnone]
    · next hname' => simp [hname, hname']

theorem addAll_ok_iff (linkage : Linkage) (attrs : List Attr) :
    (∃ linkage', linkage.addAll attrs = .ok linkage') ↔ Attr.AllValid attrs ∧
      (Attr.Named attrs "c_function" → linkage.foreign = none) ∧
      (Attr.Named attrs "c_export" → linkage.exported = none) := by
  induction attrs generalizing linkage with
  | nil =>
    have hvalid : Attr.AllValid [] := ⟨by simp, List.nodup_nil⟩
    simpa [addAll, Attr.Named] using hvalid
  | cons attr attrs ih =>
    have hne : "c_function" ≠ "c_export" := by decide
    rw [Attr.allValid_cons, Attr.named_cons, Attr.named_cons]
    constructor
    · rintro ⟨linkage', h⟩
      obtain ⟨next, hadd, hrest⟩ := exists_of_bind_eq_ok h
      obtain ⟨hvalid, hforeign, hexported⟩ := (ih next).1 ⟨linkage', hrest⟩
      rcases add_eq_ok_iff.1 hadd with
        ⟨hname, hnone, tag, text, hargs, rfl⟩ | ⟨hname, hnone, tag, text, hargs, rfl⟩
      · refine ⟨⟨⟨.inl hname, tag, text, hargs⟩, ?_, hvalid⟩, fun _ => hnone, ?_⟩
        · rw [hname]
          exact fun h => by cases hforeign h
        · rw [hname]
          exact fun h => hexported (h.resolve_left hne)
      · refine ⟨⟨⟨.inr hname, tag, text, hargs⟩, ?_, hvalid⟩, ?_, fun _ => hnone⟩
        · rw [hname]
          exact fun h => by cases hexported h
        · rw [hname]
          exact fun h => hforeign (h.resolve_left hne.symm)
    · rintro ⟨⟨⟨hknown, tag, text, hargs⟩, hfirst, hvalid⟩, hforeign, hexported⟩
      rcases hknown with hname | hname <;> rw [hname] at hfirst
      · have hadd := add_eq_ok_iff.2 (.inl ⟨hname, hforeign (.inl hname), tag, text, hargs, rfl⟩)
        obtain ⟨linkage', hrest⟩ := (ih { linkage with foreign := some text }).2
          ⟨hvalid, fun h => (hfirst h).elim, fun h => hexported (.inr h)⟩
        exact ⟨linkage', by rw [addAll, hadd]; exact hrest⟩
      · have hadd := add_eq_ok_iff.2 (.inr ⟨hname, hexported (.inl hname), tag, text, hargs, rfl⟩)
        obtain ⟨linkage', hrest⟩ := (ih { linkage with exported := some text }).2
          ⟨hvalid, fun h => hforeign (.inr h), fun h => (hfirst h).elim⟩
        exact ⟨linkage', by rw [addAll, hadd]; exact hrest⟩

theorem named_of_addAll (h : linkage.addAll attrs = .ok linkage') :
    (linkage'.foreign.isSome ↔ linkage.foreign.isSome ∨ Attr.Named attrs "c_function") ∧
      (linkage'.exported.isSome ↔ linkage.exported.isSome ∨ Attr.Named attrs "c_export") := by
  induction attrs generalizing linkage with
  | nil =>
    cases h
    simp [Attr.Named]
  | cons attr attrs ih =>
    obtain ⟨next, hadd, hrest⟩ := exists_of_bind_eq_ok h
    rw [(ih hrest).1, (ih hrest).2, Attr.named_cons, Attr.named_cons]
    rcases add_eq_ok_iff.1 hadd with ⟨hname, -, tag, text, -, rfl⟩ | ⟨hname, -, tag, text, -, rfl⟩
    · simp [hname]
    · simp [hname]

end Linkage

namespace FnDecl

variable {decl : FnDecl} {linkage : Linkage}

theorem linkage_ok_iff : (∃ linkage, decl.linkage = .ok linkage) ↔ Attr.AllValid decl.attrs :=
  (Linkage.addAll_ok_iff {} decl.attrs).trans (by simp)

/-- A function is foreign exactly if an attribute says so. -/
theorem foreign_iff (h : decl.linkage = .ok linkage) :
    linkage.foreign.isSome ↔ Attr.Named decl.attrs "c_function" :=
  (Linkage.named_of_addAll h).1.trans (by simp)

/-- A function is exported exactly if an attribute says so. -/
theorem exported_iff (h : decl.linkage = .ok linkage) :
    linkage.exported.isSome ↔ Attr.Named decl.attrs "c_export" :=
  (Linkage.named_of_addAll h).2.trans (by simp)

end FnDecl

end WordLang
