import Mathlib.Data.List.Perm.Basic
import Mathlib.Tactic
import WordLang.Id

/-!
# Laws of identifiers

Identifiers are positions in lists, or are drawn in order from supplies. What is drawn between two
states of a supply is exactly the identifiers from one to the other, each once.

## Main definitions

* `Supply.Gives a b ids`: between the states `a` and `b` a supply handed out `ids`

## Main results

* `exists_idxOf?`, `idxOf?_of_getElem?`, `eq_of_idxOf?`: positions in a list
* `Supply.Gives.append`: identifiers drawn one after another
* `Supply.Gives.nodup`: no identifier is handed out twice
-/

namespace WordLang

/-! ## Positions -/

theorem exists_idxOf? {ids : List Nat} {id : Nat} (h : id ∈ ids) :
    ∃ i, ids.idxOf? id = some i := by
  rw [← Option.isSome_iff_exists, List.isSome_idxOf?]
  exact h

theorem lt_length_of_idxOf? {ids : List Nat} {id i : Nat} (h : ids.idxOf? id = some i) :
    i < ids.length :=
  (List.idxOf?_eq_some_iff.1 h).1

/-- The position of an identifier that is listed once. -/
theorem idxOf?_of_getElem? {ids : List Nat} (hids : ids.Nodup) {id i : Nat} (h : ids[i]? = some id) :
    ids.idxOf? id = some i := by
  obtain ⟨hlt, rfl⟩ := List.getElem?_eq_some_iff.1 h
  refine List.idxOf?_eq_some_iff.2 ⟨hlt, rfl, fun j hj heq => ?_⟩
  exact Nat.ne_of_lt hj (hids.getElem_inj_iff.1 heq)

/-- A position belongs to one identifier. -/
theorem eq_of_idxOf? {ids : List Nat} {a b i : Nat} (ha : ids.idxOf? a = some i)
    (hb : ids.idxOf? b = some i) : a = b := by
  obtain ⟨_, ha, -⟩ := List.idxOf?_eq_some_iff.1 ha
  obtain ⟨_, hb, -⟩ := List.idxOf?_eq_some_iff.1 hb
  exact ha.symm.trans hb

/-! ## Supplies -/

theorem range'_append_sub {a b c : Nat} (hab : a ≤ b) (hbc : b ≤ c) :
    List.range' a (b - a) ++ List.range' b (c - b) = List.range' a (c - a) := by
  have hb : b = a + (b - a) := by omega
  nth_rewrite 2 [hb]
  rw [List.range'_append_1]
  congr 1
  omega

/-- Between two states a supply handed out the given identifiers, in some order. -/
def Supply.Gives (a b : Supply) (ids : List Nat) : Prop :=
  a.next ≤ b.next ∧ ids.Perm (List.range' a.next (b.next - a.next))

namespace Supply.Gives

variable {a b c : Supply} {ids ids' : List Nat}

theorem refl (a : Supply) : a.Gives a [] := by
  refine ⟨le_rfl, ?_⟩
  rw [Nat.sub_self]
  exact .refl _

theorem take (a : Supply) : a.Gives a.take.2 [a.next] := by
  refine ⟨Nat.le_succ _, ?_⟩
  rw [Supply.take_snd_next, Nat.add_sub_cancel_left]
  exact .refl _

theorem append (h : a.Gives b ids) (h' : b.Gives c ids') : a.Gives c (ids ++ ids') := by
  refine ⟨h.1.trans h'.1, ?_⟩
  rw [← range'_append_sub h.1 h'.1]
  exact h.2.append h'.2

theorem perm (h : a.Gives b ids) (hp : ids.Perm ids') : a.Gives b ids' :=
  ⟨h.1, hp.symm.trans h.2⟩

theorem nodup (h : a.Gives b ids) : ids.Nodup := h.2.nodup_iff.2 List.nodup_range'

end Supply.Gives

end WordLang
