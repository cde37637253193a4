/-!
# Tables

A table maps identifiers to values and lists its entries in ascending order of identifiers, each
identifier once.

## Main definitions

* `Table.find?`, `Table.insert`, `Table.erase`: look-up, insertion (the last one counts), removal

## Main results

* `Table.nodup_keys`, `Table.mem_keys_iff`: every identifier that has a value is listed once
* `Table.find?_insert_self`, `Table.find?_insert_of_ne`: look-up after insertion
* `Table.find?_erase_self`, `Table.find?_erase_of_ne`: look-up after removal
-/

namespace WordLang

/-- A finite map from identifiers to values, as its list of entries. -/
structure Table (β : Type) where
  entries : List (Nat × β) := []
  ascending : (entries.map Prod.fst).Pairwise (· < ·) := by simp
deriving Repr

namespace Table

variable {β : Type}

/-- The table without entries. -/
def empty : Table β := {}

instance : Inhabited (Table β) := ⟨empty⟩

/-- The value of the first entry for `k`. -/
def lookup (k : Nat) : List (Nat × β) → Option β
  | [] => none
  | (j, v) :: rest => if j = k then some v else lookup k rest

/-- The entries with the one for `k` set to `v`, at its place in ascending order. -/
def insertEntry (k : Nat) (v : β) : List (Nat × β) → List (Nat × β)
  | [] => [(k, v)]
  | (j, w) :: rest =>
    if k < j then (k, v) :: (j, w) :: rest
    else if j = k then (k, v) :: rest
    else (j, w) :: insertEntry k v rest

theorem mem_insertEntry {k : Nat} {v : β} {e : Nat × β} {es : List (Nat × β)}
    (h : e ∈ insertEntry k v es) : e = (k, v) ∨ e ∈ es := by
  induction es with
  | nil => simpa [insertEntry] using h
  | cons d es ih =>
    obtain ⟨j, w⟩ := d
    simp only [insertEntry] at h
    split at h
    · simpa using h
    · split at h
      · rcases List.mem_cons.1 h with h | h
        · exact .inl h
        · exact .inr (List.mem_cons_of_mem _ h)
      · rcases List.mem_cons.1 h with h | h
        · exact .inr (h ▸ List.mem_cons_self)
        · exact (ih h).imp_right (List.mem_cons_of_mem _)

/-- Insertion keeps identifiers ascending. -/
theorem ascending_insertEntry (k : Nat) (v : β) {es : List (Nat × β)}
    (h : (es.map Prod.fst).Pairwise (· < ·)) :
    ((insertEntry k v es).map Prod.fst).Pairwise (· < ·) := by
  induction es with
  | nil => simp [insertEntry]
  | cons e es ih =>
    obtain ⟨j, w⟩ := e
    rw [List.map_cons, List.pairwise_cons] at h
    simp only [insertEntry]
    split
    · next hlt =>
      rw [List.map_cons, List.pairwise_cons]
      refine ⟨fun i hi => ?_, List.pairwise_cons.2 h⟩
      rcases List.mem_cons.1 hi with rfl | hi
      · exact hlt
      · exact Nat.lt_trans hlt (h.1 i hi)
    · split
      · next heq => exact List.pairwise_cons.2 ⟨heq ▸ h.1, h.2⟩
      · next hlt hne =>
        refine List.pairwise_cons.2 ⟨fun i hi => ?_, ih h.2⟩
        obtain ⟨e, he, rfl⟩ := List.mem_map.1 hi
        rcases mem_insertEntry he with rfl | he
        · show j < k
          omega
        · exact h.1 _ (List.mem_map_of_mem he)

/-- The value of `k`. -/
def find? (t : Table β) (k : Nat) : Option β := lookup k t.entries

/-- The table with the value of `k` set to `v`. -/
def insert (t : Table β) (k : Nat) (v : β) : Table β :=
  ⟨insertEntry k v t.entries, ascending_insertEntry k v t.ascending⟩

/-- The table without an entry for `k`. -/
def erase (t : Table β) (k : Nat) : Table β :=
  ⟨t.entries.filter fun e => e.1 ≠ k, t.ascending.sublist (List.filter_sublist.map _)⟩

/-- The table of a list of entries; of two entries for one identifier the last one counts. -/
def ofList (entries : List (Nat × β)) : Table β :=
  entries.foldl (fun t e => t.insert e.1 e.2) empty

/-- The identifiers that have a value, ascending. -/
def keys (t : Table β) : List Nat := t.entries.map Prod.fst

/-- The number of entries. -/
def size (t : Table β) : Nat := t.entries.length

theorem nodup_keys (t : Table β) : t.keys.Nodup := t.ascending.imp Nat.ne_of_lt

theorem isSome_lookup_iff {k : Nat} {es : List (Nat × β)} :
    (lookup k es).isSome ↔ k ∈ es.map Prod.fst := by
  induction es with
  | nil => simp [lookup]
  | cons e es ih =>
    obtain ⟨j, w⟩ := e
    simp only [lookup, List.map_cons, List.mem_cons]
    split
    · next h => simp [h]
    · next h => rw [ih, or_iff_right (Ne.symm h)]

theorem mem_keys_iff {t : Table β} {k : Nat} : k ∈ t.keys ↔ (t.find? k).isSome :=
  isSome_lookup_iff.symm

@[simp] theorem find?_empty (k : Nat) : (empty : Table β).find? k = none := rfl

theorem lookup_insertEntry_self (k : Nat) (v : β) (es : List (Nat × β)) :
    lookup k (insertEntry k v es) = some v := by
  induction es with
  | nil => simp [insertEntry, lookup]
  | cons e es ih =>
    obtain ⟨j, w⟩ := e
    simp only [insertEntry]
    split
    · simp [lookup]
    · split <;> simp_all [lookup]

theorem lookup_insertEntry_of_ne {k l : Nat} (h : l ≠ k) (v : β) (es : List (Nat × β)) :
    lookup l (insertEntry k v es) = lookup l es := by
  have h' : ¬k = l := Ne.symm h
  induction es with
  | nil => simp [insertEntry, lookup, h']
  | cons e es ih =>
    obtain ⟨j, w⟩ := e
    simp only [insertEntry]
    split
    · simp [lookup, h']
    · split <;> simp_all [lookup]

@[simp] theorem find?_insert_self (t : Table β) (k : Nat) (v : β) :
    (t.insert k v).find? k = some v :=
  lookup_insertEntry_self k v t.entries

theorem find?_insert_of_ne {k l : Nat} (h : l ≠ k) (t : Table β) (v : β) :
    (t.insert k v).find? l = t.find? l :=
  lookup_insertEntry_of_ne h v t.entries

theorem lookup_filter_self (k : Nat) (es : List (Nat × β)) :
    lookup k (es.filter fun e => e.1 ≠ k) = none := by
  induction es with
  | nil => rfl
  | cons e es ih => by_cases h : e.1 = k <;> simp_all [lookup]

theorem lookup_filter_of_ne {k l : Nat} (h : l ≠ k) (es : List (Nat × β)) :
    lookup l (es.filter fun e => e.1 ≠ k) = lookup l es := by
  induction es with
  | nil => rfl
  | cons e es ih => by_cases hk : e.1 = k <;> simp_all [lookup, Ne.symm h]

@[simp] theorem find?_erase_self (t : Table β) (k : Nat) : (t.erase k).find? k = none :=
  lookup_filter_self k t.entries

theorem find?_erase_of_ne {k l : Nat} (h : l ≠ k) (t : Table β) :
    (t.erase k).find? l = t.find? l :=
  lookup_filter_of_ne h t.entries

end Table

end WordLang
