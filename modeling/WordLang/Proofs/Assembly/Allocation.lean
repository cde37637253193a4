import WordLang.Proofs.Assembly.Steps

/-!
# Uses of the register pool

A pool is used by assigning machine registers to virtual ones and by freeing virtual registers, in
any order and any number of times. Whatever the uses were, no two live registers share a machine
register, a register is live exactly if it was assigned and not freed since, and a machine register
is refused only when all of them are taken.

## Main definitions

* `Assembly.Pool.Use`, `Assembly.Pool.run`: uses of the pool, and the pool after them
* `Assembly.Pool.lastUse?`: the last use of a register that succeeded
* `Assembly.Pool.Exact`: what holds of a pool after uses

## Main results

* `Assembly.Pool.serves_run`: after any uses the machine registers are distinct
* `Assembly.Pool.mem_live_run`: which registers are live, by their last use
* `Assembly.Pool.exact_run`: all of it, for the pool after any uses
-/

namespace WordLang.Assembly.Pool

/-! ## Uses -/

/-- A use of the pool. -/
inductive Use where
  | assign (virtual : RegisterId)
  | free (virtual : RegisterId)
deriving Repr, DecidableEq

/-- The virtual register of a use. -/
def Use.register : Use → RegisterId
  | .assign r => r
  | .free r => r

/-- The pool after a use; an assignment that is refused changes nothing. -/
def after (pool : Pool) : Use → Pool
  | .assign r => ((pool.assign r).map Prod.snd).getD pool
  | .free r => pool.free r

/-- Whether a use succeeds: every use but an assignment that is refused. -/
def succeeds (pool : Pool) : Use → Bool
  | .assign r => (pool.assign r).isSome
  | .free _ => true

/-- The pool after uses, first to last. -/
def afterAll (pool : Pool) (uses : List Use) : Pool := uses.foldl after pool

/-- The uses that succeed, first to last. -/
def successes (pool : Pool) : List Use → List Use
  | [] => []
  | use :: rest =>
    if pool.succeeds use then use :: (pool.after use).successes rest
    else (pool.after use).successes rest

/-- The pool after uses of a new one. -/
def run (uses : List Use) : Pool := afterAll ⟨Table.empty⟩ uses

/-- The last use of a register of a new pool that succeeds. -/
def lastUse? (uses : List Use) (r : RegisterId) : Option Use :=
  (successes ⟨Table.empty⟩ uses).reverse.find? fun use => use.register = r

/-- What holds of a pool after uses. -/
structure Exact (uses : List Use) (pool : Pool) : Prop where
  /-- The live registers are those that have a machine register, which is a preferred one. -/
  machine : ∀ r, r ∈ pool.live ↔ ∃ q ∈ Register.preferred, pool.assigned.find? r = some q
  injective : ∀ r r' q, pool.assigned.find? r = some q → pool.assigned.find? r' = some q → r = r'
  /-- The live registers are those whose last use that succeeded was an assignment. -/
  live_iff : ∀ r, r ∈ pool.live ↔ lastUse? uses r = some (.assign r)
  keeps : ∀ r q later, pool.assigned.find? r = some q → .free r ∉ later →
    (pool.afterAll later).assign r = some (q, pool.afterAll later)
  /-- The machine registers that are taken are those of live registers. -/
  occupied : ∀ q, pool.isOccupied q = true ↔ ∃ r ∈ pool.live, pool.assigned.find? r = some q
  refused : ∀ r, pool.assign r = none ↔ r ∉ pool.live ∧ pool.live.length = 9
  unchanged : ∀ r, pool.assign r = none → pool.after (.assign r) = pool
  /-- A register that becomes live gets the first preferred machine register that is not taken. -/
  first : ∀ r q pool', r ∉ pool.live → pool.assign r = some (q, pool') →
    pool' = ⟨pool.assigned.insert r q⟩ ∧ pool.isOccupied q = false ∧
      ∃ taken rest, Register.preferred = taken ++ q :: rest ∧ ∀ p ∈ taken, pool.isOccupied p = true

/-! ## What one use does -/

section

variable {pool pool' : Pool} {held : Finset RegisterId} {r : RegisterId} {q : Register} {use : Use}

theorem after_assign_of_some (h : pool.assign r = some (q, pool')) :
    pool.after (.assign r) = pool' := by
  rw [after, h]
  rfl

theorem after_assign_of_none (h : pool.assign r = none) : pool.after (.assign r) = pool := by
  rw [after, h]
  rfl

theorem find?_after_of_ne (h : use.register ≠ r) :
    (pool.after use).assigned.find? r = pool.assigned.find? r := by
  cases use with
  | assign r' =>
    cases hassign : pool.assign r' with
    | none => rw [after_assign_of_none hassign]
    | some result => rw [after_assign_of_some hassign, (find?_of_assign hassign).2 r (Ne.symm h)]
  | free r' => exact Table.find?_erase_of_ne (Ne.symm h) pool.assigned

theorem find?_after_of_some (h : pool.assigned.find? r = some q) (hfree : use ≠ .free r) :
    (pool.after use).assigned.find? r = some q := by
  by_cases hr : use.register = r
  · cases use with
    | assign r' =>
      obtain rfl : r' = r := hr
      rw [after_assign_of_some (assign_of_find? h), h]
    | free r' =>
      obtain rfl : r' = r := hr
      exact absurd rfl hfree
  · rw [find?_after_of_ne hr, h]

theorem mem_live_iff_exists : r ∈ pool.live ↔ ∃ q, pool.assigned.find? r = some q :=
  Table.mem_keys_iff.trans Option.isSome_iff_exists

theorem mem_live_after (h : pool.succeeds use = true) :
    use.register ∈ (pool.after use).live ↔ use = .assign use.register := by
  cases use with
  | assign r =>
    obtain ⟨⟨q, pool'⟩, hassign⟩ := Option.isSome_iff_exists.1 h
    rw [after_assign_of_some hassign]
    exact iff_of_true (mem_live_iff_exists.2 ⟨q, (find?_of_assign hassign).1⟩) rfl
  | free r =>
    refine iff_of_false (fun hlive => ?_) Use.noConfusion
    obtain ⟨q, hq⟩ := mem_live_iff_exists.1 hlive
    rw [after, Pool.free, Use.register, Table.find?_erase_self] at hq
    cases hq

theorem after_of_not_succeeds (h : pool.succeeds use = false) : pool.after use = pool := by
  cases use with
  | assign r =>
    have hnone : pool.assign r = none := by simpa [succeeds] using h
    exact after_assign_of_none hnone
  | free r => cases h

/-- A use keeps machine registers distinct. -/
theorem Serves.after (h : pool.Serves held) (use : Use) :
    ∃ held', (pool.after use).Serves held' := by
  cases use with
  | assign r =>
    by_cases hr : r ∈ held
    · obtain ⟨q, hassign⟩ := h.assign_held hr
      exact ⟨held, by rwa [after_assign_of_some hassign]⟩
    · rcases h.assign_new hr with ⟨hnone, -⟩ | ⟨q, pool', hassign, h'⟩
      · exact ⟨held, by rwa [after_assign_of_none hnone]⟩
      · exact ⟨_, by rwa [after_assign_of_some hassign]⟩
  | free r => exact ⟨_, h.free r⟩

end

/-! ## What uses do -/

section

variable {pool : Pool} {r : RegisterId} {q : Register}

theorem afterAll_append_singleton (pool : Pool) (uses : List Use) (use : Use) :
    pool.afterAll (uses ++ [use]) = (pool.afterAll uses).after use := by
  simp [afterAll]

theorem successes_append (pool : Pool) (uses later : List Use) :
    pool.successes (uses ++ later) =
      pool.successes uses ++ (pool.afterAll uses).successes later := by
  induction uses generalizing pool with
  | nil => rfl
  | cons use uses ih =>
    rw [List.cons_append, successes, successes, ih]
    split <;> rfl

/-- A register keeps its machine register through uses that do not free it. -/
theorem find?_afterAll (h : pool.assigned.find? r = some q) {later : List Use}
    (hfree : .free r ∉ later) : (pool.afterAll later).assigned.find? r = some q := by
  induction later generalizing pool with
  | nil => exact h
  | cons use later ih =>
    rw [List.mem_cons, not_or] at hfree
    exact ih (find?_after_of_some h (Ne.symm hfree.1)) hfree.2

theorem serves_run (uses : List Use) : ∃ held, (run uses).Serves held := by
  induction uses using List.reverseRecOn with
  | nil => exact ⟨∅, serves_empty⟩
  | append_singleton uses use ih =>
    obtain ⟨held, h⟩ := ih
    rw [run, afterAll_append_singleton]
    exact h.after use

theorem lastUse?_append_singleton (uses : List Use) (use : Use) (r : RegisterId) :
    lastUse? (uses ++ [use]) r =
      if (run uses).succeeds use = true ∧ use.register = r then some use else lastUse? uses r := by
  rw [lastUse?, successes_append, successes, ← run]
  by_cases hsucceeds : (run uses).succeeds use = true
  · by_cases hr : use.register = r
    · simp [successes, hsucceeds, hr]
    · simp [successes, hsucceeds, hr, lastUse?]
  · simp [successes, hsucceeds, lastUse?]

/-- A register is live exactly if its last use that succeeded was an assignment. -/
theorem mem_live_run (uses : List Use) (r : RegisterId) :
    r ∈ (run uses).live ↔ lastUse? uses r = some (.assign r) := by
  induction uses using List.reverseRecOn with
  | nil => simp [run, afterAll, lastUse?, successes, live, Table.keys, Table.empty]
  | append_singleton uses use ih =>
    rw [lastUse?_append_singleton, run, afterAll_append_singleton, ← run]
    split
    · next h =>
      obtain ⟨hsucceeds, rfl⟩ := h
      rw [mem_live_after hsucceeds, Option.some.injEq]
    · next h =>
      rw [← ih]
      by_cases hsucceeds : (run uses).succeeds use = true
      · rw [mem_live_iff_exists, find?_after_of_ne fun hr => h ⟨hsucceeds, hr⟩, mem_live_iff_exists]
      · rw [after_of_not_succeeds (Bool.not_eq_true _ ▸ hsucceeds)]

end

/-! ## Pools that serve -/

namespace Serves

variable {pool pool' : Pool} {held : Finset RegisterId} {r : RegisterId} {q : Register}
  (h : pool.Serves held)
include h

theorem length_live : pool.live.length = held.card := by
  have hnodup : pool.live.Nodup := Table.nodup_keys _
  rw [← List.toFinset_card_of_nodup hnodup]
  congr 1
  ext r
  rw [List.mem_toFinset, h.mem_live]

/-- A register is refused exactly if it is not live and as many others are as there are machine
registers. -/
theorem assign_eq_none_iff :
    pool.assign r = none ↔ r ∉ pool.live ∧ pool.live.length = poolSize := by
  rw [h.mem_live, h.length_live]
  constructor
  · intro hnone
    have hr : r ∉ held := by
      intro hr
      obtain ⟨q, hassign⟩ := h.assign_held hr
      rw [hassign] at hnone
      cases hnone
    refine ⟨hr, Nat.le_antisymm h.card_le ?_⟩
    rcases h.assign_new hr with ⟨-, hle⟩ | ⟨q, pool', hassign, -⟩
    · exact hle
    · rw [hassign] at hnone
      cases hnone
  · rintro ⟨hr, hcard⟩
    rcases h.assign_new hr with ⟨hnone, -⟩ | ⟨q, pool', -, h'⟩
    · exact hnone
    · -- With one more register there would be more live ones than machine registers.
      have hle := h'.card_le
      rw [Finset.card_insert_of_notMem hr] at hle
      omega

end Serves

section

variable {pool pool' : Pool} {r : RegisterId} {q : Register}

theorem firstFree?_of_assign (hr : r ∉ pool.live) (h : pool.assign r = some (q, pool')) :
    pool.firstFree? = some q ∧ pool' = ⟨pool.assigned.insert r q⟩ := by
  have hnone : pool.assigned.find? r = none := by
    rw [mem_live_iff_exists, not_exists] at hr
    exact Option.eq_none_iff_forall_ne_some.2 hr
  rw [assign, hnone] at h
  obtain ⟨q', hfirst, heq⟩ := Option.map_eq_some_iff.1 h
  cases heq
  exact ⟨hfirst, rfl⟩

theorem firstFree?_eq_some (h : pool.firstFree? = some q) :
    pool.isOccupied q = false ∧ ∃ taken rest, Register.preferred = taken ++ q :: rest ∧
      ∀ p ∈ taken, pool.isOccupied p = true := by
  obtain ⟨hq, taken, rest, hsplit, htaken⟩ := List.find?_eq_some_iff_append.1 h
  refine ⟨by simpa using hq, taken, rest, hsplit, fun p hp => ?_⟩
  simpa using htaken p hp

end

/-- The pool is an exact allocator, whatever its uses were: live registers have distinct machine
registers, which they keep, they are the registers that were assigned and not freed since, and a
register that becomes live gets the first machine register that is free, or none if nine others are
live. -/
theorem exact_run (uses : List Use) : Exact uses (run uses) := by
  obtain ⟨held, h⟩ := serves_run uses
  constructor
  case machine =>
    intro r
    rw [mem_live_iff_exists]
    exact ⟨fun ⟨q, hq⟩ => ⟨q, h.preferred r q hq, hq⟩, fun ⟨q, _, hq⟩ => ⟨q, hq⟩⟩
  case injective => exact h.distinct
  case live_iff => exact mem_live_run uses
  case keeps => exact fun r q later hq hfree => assign_of_find? (find?_afterAll hq hfree)
  case occupied =>
    intro q
    rw [isOccupied_iff]
    exact ⟨fun ⟨r, hr⟩ => ⟨r, mem_live_iff_exists.2 ⟨q, hr⟩, hr⟩, fun ⟨r, _, hr⟩ => ⟨r, hr⟩⟩
  case refused => exact fun r => h.assign_eq_none_iff
  case unchanged => exact fun r hnone => after_assign_of_none hnone
  case first =>
    intro r q pool' hr hassign
    obtain ⟨hfirst, hpool'⟩ := firstFree?_of_assign hr hassign
    exact ⟨hpool', firstFree?_eq_some hfirst⟩

end WordLang.Assembly.Pool
