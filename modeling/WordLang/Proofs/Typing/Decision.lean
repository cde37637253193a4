import WordLang.Proofs.Checked

/-!
# The check decides the typing rules

A program that was read and resolved passes the check exactly if it is well typed. The check asks
for types on demand, keeps what it finds and looks only at functions that resolution lists; the
rules know nothing of this order and are about every function of the tree.

## Main results

* `Checked.Valid.wellTyped`: a program that passed the check is well typed
* `Query.checkProgram_ok_iff`: the check succeeds exactly on well typed programs
-/

namespace WordLang

theorem Checked.Valid.wellTyped {c : Checked} (hc : c.Valid) : c.module.WellTyped c.resolutions :=
  hc.clean.wellTyped hc.resolved hc.items hc.checked

/-- The check of a program that was read and resolved succeeds exactly if the program is well
typed. -/
theorem Query.checkProgram_ok_iff {source : List Char} {m : Module} {r : Resolutions}
    (hm : Module.ofSource? source = .ok m) (hr : m.resolve = .ok r) :
    (∃ answers, (Query.checkProgram r m).run {} = .ok () answers) ↔ m.WellTyped r := by
  have hens := Checked.check_ensures hm hr
  constructor
  · rintro ⟨answers, hrun⟩
    have hvalid : Checked.Valid ⟨m, r, answers⟩ := by
      unfold Ensures at hens
      rw [show Query.checkProgram r m {} = _ from hrun] at hens
      exact hens
    exact hvalid.wellTyped
  · intro htyped
    obtain ⟨_, answers, hrun, -⟩ := (hens.mono (fun _ _ h => h) fun _ h => h.2 htyped).exists_ok
    exact ⟨answers, hrun⟩

/-- What the check says about a source text that can be read and resolved. -/
def verdict? (source : List Char) : Option Bool :=
  (Module.ofSource? source).toOption.bind fun m =>
    m.resolve.toOption.map fun r =>
      ((Query.checkProgram r m).run' ⟨.empty, .empty, .empty, .empty⟩).isSome

theorem verdict?_eq_some {source : List Char} {verdict : Bool} (h : verdict? source = some verdict) :
    ∃ m r, Module.ofSource? source = .ok m ∧ m.resolve = .ok r ∧
      ((∃ answers, (Query.checkProgram r m).run {} = .ok () answers) ↔ verdict = true) := by
  obtain ⟨m, hm, h⟩ := Option.bind_eq_some_iff.1 h
  obtain ⟨r, hr, rfl⟩ := Option.map_eq_some_iff.1 h
  refine ⟨m, r, eq_ok_of_toOption hm, eq_ok_of_toOption hr, ?_⟩
  have hempty : (⟨.empty, .empty, .empty, .empty⟩ : Answers) = {} := rfl
  rw [hempty]
  delta EStateM.run'
  cases (Query.checkProgram r m).run {} with
  | ok _ answers => simp
  | error failure answers => simp

/-- A function that calls itself. -/
def recursiveCall : List Char := "fn f(a: int) -> int { let b = -f(a); return b; }".toList

/-- A function that assigns itself to a word. -/
def functionAsWord : List Char := "fn f(a: int) { let b = a; b = f; }".toList

/-- The rules tell a function that calls itself from one that assigns itself to a word. -/
theorem Query.checkProgram_ok_iff_sample :
    (∃ m r, Module.ofSource? recursiveCall = .ok m ∧ m.resolve = .ok r ∧ m.WellTyped r) ∧
      ∃ m r, Module.ofSource? functionAsWord = .ok m ∧ m.resolve = .ok r ∧ ¬m.WellTyped r := by
  have hgood : verdict? recursiveCall = some true := by decide +kernel
  have hbad : verdict? functionAsWord = some false := by decide +kernel
  constructor
  · obtain ⟨m, r, hm, hr, hcheck⟩ := verdict?_eq_some hgood
    exact ⟨m, r, hm, hr, (Query.checkProgram_ok_iff hm hr).1 (hcheck.2 rfl)⟩
  · obtain ⟨m, r, hm, hr, hcheck⟩ := verdict?_eq_some hbad
    refine ⟨m, r, hm, hr, fun htyped => ?_⟩
    cases hcheck.1 ((Query.checkProgram_ok_iff hm hr).2 htyped)

end WordLang
