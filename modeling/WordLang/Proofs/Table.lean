import Mathlib.Tactic
import WordLang.Table

/-!
# Laws of tables

Tables are equal if look-up is, and a table made from a list of entries has exactly these entries.

## Main results

* `Table.ext_find?`: tables with the same look-up are equal
* `Table.find?_insert`, `Table.find?_erase`: look-up after a change
* `Table.mem_of_find?_ofList`, `Table.find?_ofList_of_mem`: look-up in a table made from a list
-/

namespace WordLang.Table

variable {k : Nat} {β : Type}

theorem find?_insert (t : Table β) (k l : Nat) (v : β) :
    (t.insert k v).find? l = if l = k then some v else t.find? l := by
  split
  · next h => rw [h, find?_insert_self]
  · next h => exact find?_insert_of_ne h t v

theorem find?_erase (t : Table β) (k l : Nat) :
    (t.erase k).find? l = if l = k then none else t.find? l := by
  split
  · next h => rw [h, find?_erase_self]
  · next h => exact find?_erase_of_ne h t

theorem lookup_eq_none_of_lt {es : List (Nat × β)} (h : ∀ i ∈ es.map Prod.fst, k < i) :
    lookup k es = none := by
  induction es with
  | nil => rfl
  | cons e es ih =>
    obtain ⟨j, w⟩ := e
    have hj : k < j := h j (by simp)
    rw [lookup, if_neg (by omega)]
    exact ih fun i hi => h i (by simp [List.mem_map] at hi ⊢; tauto)

theorem eq_of_lookup_eq {es fs : List (Nat × β)} (he : (es.map Prod.fst).Pairwise (· < ·))
    (hf : (fs.map Prod.fst).Pairwise (· < ·)) (h : ∀ k, lookup k es = lookup k fs) : es = fs := by
  induction es generalizing fs with
  | nil =>
    cases fs with
    | nil => rfl
    | cons f fs => simpa [lookup] using h f.1
  | cons e es ih =>
    obtain ⟨i, v⟩ := e
    cases fs with
    | nil => simpa [lookup] using h i
    | cons f fs =>
      obtain ⟨j, w⟩ := f
      rw [List.map_cons, List.pairwise_cons] at he hf
      -- The least identifier of each list has to be found in the other one.
      have hij : i = j := by
        rcases Nat.lt_trichotomy i j with hlt | heq | hgt
        · have hi := h i
          rw [lookup, if_pos rfl, lookup, if_neg (by omega),
            lookup_eq_none_of_lt fun l hl => Nat.lt_trans hlt (hf.1 l hl)] at hi
          cases hi
        · exact heq
        · have hj := h j
          rw [lookup, if_neg (by omega), lookup_eq_none_of_lt fun l hl =>
            Nat.lt_trans hgt (he.1 l hl), lookup, if_pos rfl] at hj
          cases hj
      subst hij
      have hvw := h i
      rw [lookup, if_pos rfl, lookup, if_pos rfl] at hvw
      cases hvw
      rw [ih he.2 hf.2 fun k => ?_]
      by_cases hk : i = k
      · subst hk
        rw [lookup_eq_none_of_lt he.1, lookup_eq_none_of_lt hf.1]
      · have hl := h k
        rwa [lookup, if_neg hk, lookup, if_neg hk] at hl

theorem ext_find? {t u : Table β} (h : ∀ k, t.find? k = u.find? k) : t = u := by
  obtain ⟨es, he⟩ := t
  obtain ⟨fs, hf⟩ := u
  obtain rfl : es = fs := eq_of_lookup_eq he hf h
  rfl

theorem eq_empty_of_find? {t : Table β} (h : ∀ k, t.find? k = none) : t = empty :=
  ext_find? fun k => by rw [h k, find?_empty]

@[simp] theorem keys_empty : (empty : Table β).keys = [] := rfl

/-- Removing an entry that was just added gives the table before. -/
theorem erase_insert {t : Table β} (h : t.find? k = none) (v : β) : (t.insert k v).erase k = t := by
  refine ext_find? fun l => ?_
  rw [find?_erase]
  split
  · next hl => rw [hl, h]
  · next hl => exact find?_insert_of_ne hl t v

/-! ## Tables made from lists -/

theorem ofList_append_singleton (es : List (Nat × β)) (e : Nat × β) :
    ofList (es ++ [e]) = (ofList es).insert e.1 e.2 := by
  simp [ofList]

theorem mem_of_find?_ofList {es : List (Nat × β)} {v : β}
    (h : (ofList es).find? k = some v) : (k, v) ∈ es := by
  induction es using List.reverseRecOn with
  | nil => simp [ofList] at h
  | append_singleton es e ih =>
    rw [ofList_append_singleton, find?_insert] at h
    split at h
    · next hk =>
      cases h
      simp [hk]
    · exact List.mem_append_left _ (ih h)

theorem find?_ofList_isSome {es : List (Nat × β)} (h : k ∈ es.map Prod.fst) :
    ((ofList es).find? k).isSome := by
  induction es using List.reverseRecOn with
  | nil => simp at h
  | append_singleton es e ih =>
    rw [ofList_append_singleton, find?_insert]
    split
    · rfl
    · next hk =>
      refine ih ?_
      rw [List.map_append, List.mem_append] at h
      exact h.resolve_right (by simpa using hk)

/-- If no identifier comes twice in a list, every entry of it is found. -/
theorem find?_ofList_of_mem {es : List (Nat × β)} (hn : (es.map Prod.fst).Nodup) {v : β}
    (h : (k, v) ∈ es) : (ofList es).find? k = some v := by
  obtain ⟨w, hw⟩ := Option.isSome_iff_exists.1 (find?_ofList_isSome (List.mem_map_of_mem h))
  obtain rfl : w = v := by
    have := List.inj_on_of_nodup_map hn (mem_of_find?_ofList hw) h rfl
    cases this
    rfl
  exact hw

end WordLang.Table
