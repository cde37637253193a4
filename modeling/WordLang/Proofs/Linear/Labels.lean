import WordLang.Proofs.Linear.Peephole

/-!
# Shortening keeps labels in place

When lines are shortened, a line that is removed hands its labels on to the next line, or to a line
that does nothing at the end. To say where labels end up, the places of the lines that stay are
followed through all rules and rounds: the place of a line is its position before shortening, and
the line at the end has the position after the last one. A line that was fused from several ones has
the place of the first of them.

## Main definitions

* `Linear.Body.places`: the places of the lines of a shortened body
* `Linear.Traced`: lines that come from others by removing some of them and handing labels on

## Main results

* `Linear.Body.traced_optimize`: a shortened body is traced by its places
* `Linear.Body.labels_optimize`: every label is on the first line that stays at or after its own
-/

namespace WordLang.Linear

variable {line : Line} {place : Nat}

/-! ## Places -/

/-- The places of the lines that stay when a pushed register is left in place and the pop that gives
it back is removed. -/
def shadowPlaces (pushed : RegisterId) : List Line → List Nat → List Nat
  | line :: rest, place :: places =>
    match line.instruction with
    | .pop _ => places
    | .kill r =>
      if r = pushed ∧ !(shadow? pushed rest).any Shadow.killed then shadowPlaces pushed rest places
      else place :: shadowPlaces pushed rest places
    | _ => place :: shadowPlaces pushed rest places
  | _, places => places

/-- The places of the lines that stay when a pushed value is left in its register. -/
def placesAfterShadow : List Line → List Nat → List Nat
  | ⟨_, .push pushed⟩ :: rest, _ :: places => shadowPlaces pushed rest places
  | _, places => places

/-- The places of the lines that stay when three lines are fused into one. -/
def placesAfterFusion (_ : List Line) (places : List Nat) : List Nat :=
  places.take 1 ++ places.drop 3

section

variable (rule : Rule) (stay : List Line → List Nat → List Nat) (total : Nat)

/-- The places of lines after a rule was applied to them from the first one to the last, where
`stay` gives the places of the lines that stay when it applies. A line that is new has the place
`total`. The places of the lines already passed come in reverse order. -/
def placesFrom (passed places : List Nat) (lines : List Line) : List Nat :=
  match lines with
  | [] => passed.reverse
  | line :: rest =>
    match _h : rule.fold? (line :: rest) with
    | some fold =>
      placesFrom passed ((stay (line :: rest) places ++ [total]).take fold.lines.length)
        (fold.apply fold.lines)
    | none => placesFrom (places.take 1 ++ passed) (places.drop 1) rest
termination_by lines.length
decreasing_by
  · rw [Fold.length_apply]
    exact rule.shrinks _ _ _h
  · simp

end

def placesRound (total : Nat) (places : List Nat) (lines : List Line) : List Nat :=
  let first := sweep pushKillPop lines
  let second := sweep directCall first
  let third := sweep directStore second
  let places := placesFrom pushKillPop placesAfterShadow total [] places lines
  let places := placesFrom directCall placesAfterFusion total [] places first
  let places := placesFrom directStore placesAfterFusion total [] places second
  placesFrom shadowedPop placesAfterShadow total [] places third

def placesRounds (total : Nat) : Nat → List Nat → Nat → List Nat → List Line → List Nat
  | 0, _, _, places, _ => places
  | n + 1, seen, repeats, places, lines =>
    let next := optimizeRound lines
    let places := placesRound total places lines
    if next.length = lines.length then places
    else if next.length ∈ seen then
      if maxRepeats ≤ repeats + 1 then places
      else placesRounds total n seen (repeats + 1) places next
    else placesRounds total n (next.length :: seen) repeats places next

/-- The places, in a body, of the lines of the shortened body. -/
def Body.places (b : Body) : List Nat :=
  placesRounds b.lines.length maxRounds [b.lines.length] 0 (List.range b.lines.length) b.lines

/-! ## Traced lines -/

/-- An instruction that stays, with other names of registers, or that was fused with the next
ones. -/
inductive Instruction.Stays : Instruction → Instruction → Prop where
  | renamed (i : Instruction) (ρ : RegisterId → RegisterId) : Stays i (i.mapRegisters ρ)
  | call (r : RegisterId) (id : FunctionId) (arguments : Nat) :
    Stays (.moveFunction r id) (.callImmediate id arguments)
  | store (r slot : RegisterId) (value : Int64) :
    Stays (.moveInt r value) (.storeImmediate slot value)

namespace Instruction.Stays

variable {i j : Instruction}

theorem refl (i : Instruction) : i.Stays i := by
  have hid : i.mapRegisters id = i := by cases i <;> rfl
  have h := renamed i id
  rwa [hid] at h

theorem mapRegisters (h : i.Stays j) (ρ : RegisterId → RegisterId) :
    i.Stays (j.mapRegisters ρ) := by
  cases h with
  | renamed _ σ =>
    have hcomp : (i.mapRegisters σ).mapRegisters ρ = i.mapRegisters (ρ ∘ σ) := by cases i <;> rfl
    rw [hcomp]
    exact .renamed i _
  | call r id arguments => exact .call r id arguments
  | store r slot value => exact .store r (ρ slot) value

/-- An instruction that came to move a constant may be fused with the use of the constant. -/
theorem fuse (h : i.Stays j) :
    (∀ r id arguments, j = .moveFunction r id → i.Stays (.callImmediate id arguments)) ∧
      ∀ r value slot, j = .moveInt r value → i.Stays (.storeImmediate slot value) := by
  cases h with
  | renamed _ ρ =>
    constructor <;> intro _ _ _ hj <;> cases i <;> cases hj
    · exact .call _ _ _
    · exact .store _ _ _
  | call r id arguments => exact ⟨nofun, nofun⟩
  | store r slot value => exact ⟨nofun, nofun⟩

end Instruction.Stays

/-- Lines come from others, the first of which has the position `n`: some were removed, and their
labels are on the next line, which stays, or on a line that does nothing at the end. -/
inductive Traced : Nat → List Line → List Nat → List Line → Prop where
  | gone {n : Nat} {source : List Line} (h : source.flatMap Line.labels = []) :
    Traced n source [] []
  | ended (n : Nat) (source : List Line) :
    Traced n source [n + source.length] [⟨source.flatMap Line.labels, .nop⟩]
  | stays {n : Nat} (removed : List Line) {line : Line} {source : List Line} {places : List Nat}
    {lines : List Line} {i : Instruction} (hi : line.instruction.Stays i)
    (h : Traced (n + removed.length + 1) source places lines) :
    Traced n (removed ++ line :: source) ((n + removed.length) :: places)
      (⟨removed.flatMap Line.labels ++ line.labels, i⟩ :: lines)

namespace Traced

variable {n : Nat} {source lines : List Line} {places : List Nat}

theorem refl (n : Nat) (lines : List Line) : Traced n lines (List.range' n lines.length) lines := by
  induction lines generalizing n with
  | nil => exact .gone rfl
  | cons line rest ih => exact .stays [] (.refl _) (ih (n + 1))

theorem length_eq (h : Traced n source places lines) : places.length = lines.length := by
  induction h with
  | gone h => rfl
  | ended n source => rfl
  | stays removed hi h ih => rw [List.length_cons, List.length_cons, ih]

theorem take_append (h : Traced n source places lines) (total : Nat) :
    (places ++ [total]).take lines.length = places := by
  rw [← h.length_eq, List.take_left]

theorem padded (h : Traced n source places lines) (total : Nat) :
    Traced n source ((places ++ [total]).take lines.length) lines := by
  rwa [h.take_append]

theorem mapRegisters (h : Traced n source places lines) (ρ : RegisterId → RegisterId) :
    Traced n source places (lines.map (Line.mapRegisters ρ)) := by
  induction h with
  | gone h => exact .gone h
  | ended n source => exact .ended n source
  | stays removed hi h ih => exact .stays removed (hi.mapRegisters ρ) ih

theorem apply (h : Traced n source places lines) (fold : Fold) :
    Traced n source places (fold.apply lines) := by
  unfold Fold.apply
  cases fold.renamed with
  | none => exact h
  | some names => exact h.mapRegisters _

theorem handOver (removed : List Line) (h : Traced (n + removed.length) source places lines) :
    Traced n (removed ++ source)
      ((places ++ [n + (removed ++ source).length]).take
        (Linear.handOver (removed.flatMap Line.labels) lines).length)
      (Linear.handOver (removed.flatMap Line.labels) lines) := by
  cases h with
  | gone hnone =>
    -- No line is left to take the labels, so if there are any they get a line of their own.
    by_cases hlabels : removed.flatMap Line.labels = []
    · rw [hlabels, handOver_nil]
      exact .gone (by rw [List.flatMap_append, hlabels, hnone]; rfl)
    · have hall : (removed ++ source).flatMap Line.labels = removed.flatMap Line.labels := by
        rw [List.flatMap_append, hnone, List.append_nil]
      have hended := Traced.ended n (removed ++ source)
      rw [hall] at hended
      simpa [Linear.handOver, hlabels] using hended
  | ended =>
    have hended := Traced.ended n (removed ++ source)
    simpa [Linear.handOver, Nat.add_assoc] using hended
  | stays removed' hi h =>
    -- The labels join those of the line that stays, as if all lines before it had gone at once.
    have hstays := Traced.stays (n := n) (removed ++ removed') hi
      (by rwa [List.length_append, ← Nat.add_assoc])
    have hplaces := h.take_append
    simp only [Linear.handOver, List.cons_append, List.length_cons, List.take_succ_cons, hplaces]
    simpa [Nat.add_assoc] using hstays

theorem tail (h : Traced n source (place :: places) (line :: lines)) : Traced n source
      ((places ++ [n + source.length]).take (Linear.handOver line.labels lines).length)
      (Linear.handOver line.labels lines) := by
  cases h with
  | ended =>
    by_cases hlabels : source.flatMap Line.labels = []
    · rw [hlabels]
      exact .gone hlabels
    · simpa [Linear.handOver, hlabels] using Traced.ended n source
  | @stays _ removed first source _ _ _ hi h =>
    -- The line goes the way of those that were removed in front of it.
    have hover := Traced.handOver (n := n) (removed ++ [first])
      (by rwa [List.length_append, List.length_singleton, ← Nat.add_assoc])
    simpa using hover

theorem tail_of_unlabelled
    (h : Traced n source (place :: places) (line :: lines)) (hline : line.labels = []) :
    Traced n source places lines := by
  have htail := h.tail
  have hlength := h.length_eq
  simp only [List.length_cons, Nat.add_right_cancel_iff] at hlength
  rwa [hline, handOver_nil, ← hlength, List.take_left] at htail

theorem cons_of_tail {places' : List Nat} {lines' : List Line}
    (h : Traced n source (place :: places) (line :: lines))
    (hrest : ∀ n' source', n' + source'.length = n + source.length →
    Traced n' source' places lines → Traced n' source' places' lines') (hne : lines ≠ []) :
    Traced n source (place :: places') (line :: lines') := by
  cases h with
  -- The line at the end has none after it.
  | ended => exact absurd rfl hne
  | stays removed hi h =>
    refine .stays removed hi (hrest _ _ ?_ h)
    simp only [List.length_append, List.length_cons]
    omega

theorem exists_cons (h : Traced n source places (line :: lines)) :
    ∃ place places', places = place :: places' :=
  List.exists_cons_of_length_pos (by rw [h.length_eq]; exact Nat.succ_pos _)

/-- Three lines are fused into one, which stands in for the first of them. -/
theorem fuse {labels : List LabelId} {i j second third : Instruction}
    (h : Traced n source places (⟨labels, i⟩ :: ⟨[], second⟩ :: ⟨[], third⟩ :: lines))
    (hj : ∀ k : Instruction, k.Stays i → k.Stays j) :
    Traced n source (placesAfterFusion lines places) (⟨labels, j⟩ :: lines) := by
  cases h with
  | stays removed hi h =>
    obtain ⟨p, places, rfl⟩ := h.exists_cons
    have h := h.tail_of_unlabelled rfl
    obtain ⟨q, places, rfl⟩ := h.exists_cons
    exact .stays removed (hj _ hi) (h.tail_of_unlabelled rfl)

/-- A pop that gives back a pushed register is removed, and so is a `kill` before it. -/
theorem shadow {pushed : RegisterId} {s : Shadow} (h : Traced n source places lines)
    (hs : shadow? pushed lines = some s) :
    Traced n source (shadowPlaces pushed lines places) s.lines := by
  induction lines generalizing n source places s with
  | nil => cases hs
  | cons line rest ih =>
    obtain ⟨place, places, rfl⟩ := h.exists_cons
    obtain ⟨labels, instruction⟩ := line
    simp only [shadow?] at hs
    split at hs
    · cases hs
    next hlabels =>
    obtain rfl : labels = [] := not_not.1 hlabels
    -- A line that is kept has the pop further down, so it is not the last one.
    have hkept : ∀ t, shadow? pushed rest = some t → t.cons ⟨[], instruction⟩ = s →
        Traced n source (place :: shadowPlaces pushed rest places) s.lines := by
      rintro t ht rfl
      have hne : rest ≠ [] := by
        rintro rfl
        cases ht
      exact h.cons_of_tail (fun _ _ _ hrest => ih hrest ht) hne
    cases instruction with
    | pop popped =>
      cases hs
      exact h.tail_of_unlabelled rfl
    | kill r =>
      cases ht : shadow? pushed rest with
      | none =>
        rw [ht] at hs
        cases hs
      | some t =>
        simp only [ht] at hs
        simp only [shadowPlaces, ht, Option.any_some]
        split at hs
        · next hlast =>
          -- The last `kill` before the pop goes with it.
          cases hs
          rw [if_pos hlast]
          have hrest := ih (h.tail_of_unlabelled rfl) ht
          exact hrest
        · next hnot =>
          rw [if_neg hnot]
          exact hkept t ht (Option.some.inj hs)
    | _ =>
      dsimp only at hs
      split at hs
      · cases hs
      · obtain ⟨t, ht, heq⟩ := Option.map_eq_some_iff.1 hs
        exact hkept t ht heq

end Traced

/-! ## Rules -/

theorem exists_shadow_of_fold {lines : List Line} {fold : Fold}
    (h : foldShadowedPop lines = some fold) : ∃ labels pushed rest s,
      lines = ⟨labels, .push pushed⟩ :: rest ∧ shadow? pushed rest = some s ∧
        fold.lines = handOver labels s.lines := by
  simp only [foldShadowedPop] at h
  split at h
  · next labels pushed rest =>
    split at h
    · next s hs =>
      split at h
      · cases h
        exact ⟨labels, pushed, rest, s, rfl, hs, rfl⟩
      · cases h
    · cases h
  · cases h

/-- A rule removes lines and fuses lines as `stay` says. -/
def Rule.Traces (rule : Rule) (stay : List Line → List Nat → List Nat) : Prop :=
  ∀ {n source places lines fold}, rule.fold? lines = some fold → Traced n source places lines →
    Traced n source ((stay lines places ++ [n + source.length]).take fold.lines.length) fold.lines

theorem shadowedPop_traces : shadowedPop.Traces placesAfterShadow := by
  intro n source places lines fold hfold h
  obtain ⟨labels, pushed, rest, s, rfl, hs, hlines⟩ := exists_shadow_of_fold hfold
  have hne : rest ≠ [] := by
    rintro rfl
    cases hs
  obtain ⟨place, places, rfl⟩ := h.exists_cons
  -- First the pop and the `kill` go from behind the push, then the push itself.
  have hpush := h.cons_of_tail (fun _ _ _ hrest => hrest.shadow hs) hne
  rw [hlines]
  exact hpush.tail

theorem pushKillPop_traces : pushKillPop.Traces placesAfterShadow :=
  fun hfold h => shadowedPop_traces (foldShadowedPop_of_foldPushKillPop hfold) h

theorem directCall_traces : directCall.Traces placesAfterFusion := by
  intro n source places lines fold hfold h
  obtain ⟨labels, r, id, arguments, rest, rfl, rfl⟩ := foldDirectCall_eq_some hfold
  exact (h.fuse fun _ hi => hi.fuse.1 r id arguments rfl).padded _

theorem directStore_traces : directStore.Traces placesAfterFusion := by
  intro n source places lines fold hfold h
  obtain ⟨labels, r, value, slot, rest, -, rfl, rfl⟩ := foldDirectStore_eq_some hfold
  exact (h.fuse fun _ hi => hi.fuse.2 r value slot rfl).padded _

/-! ## Rounds -/

theorem Traced.replace {n : Nat} {source before lines lines' : List Line}
    {passed places places' : List Nat} (h : Traced n source (passed ++ places) (before ++ lines))
    (hlength : passed.length = before.length)
    (hrest : ∀ n' source', n' + source'.length = n + source.length →
      Traced n' source' places lines → Traced n' source' places' lines') (hne : lines ≠ []) :
    Traced n source (passed ++ places') (before ++ lines') := by
  induction before generalizing n source passed with
  | nil =>
    obtain rfl := List.length_eq_zero_iff.1 hlength
    exact hrest n source rfl h
  | cons line before ih =>
    obtain ⟨place, passed, rfl⟩ : ∃ p ps, passed = p :: ps :=
      List.exists_cons_of_length_pos (by rw [hlength]; exact Nat.succ_pos _)
    refine Traced.cons_of_tail h (fun n' source' htotal h' => ?_) (by simp [hne])
    exact ih h' (Nat.succ.inj hlength) fun n'' source'' htotal' =>
      hrest n'' source'' (htotal'.trans htotal)

section

variable {rule : Rule} {line : Line} {rest : List Line}
  {stay : List Line → List Nat → List Nat} (total : Nat) (passed places : List Nat)

theorem placesFrom_of_fold {fold : Fold} (h : rule.fold? (line :: rest) = some fold) :
    placesFrom rule stay total passed places (line :: rest) =
      placesFrom rule stay total passed
        ((stay (line :: rest) places ++ [total]).take fold.lines.length)
        (fold.apply fold.lines) := by
  rw [placesFrom]
  split
  · next fold' hfold =>
    cases h.symm.trans hfold
    rfl
  · next hnone => cases h.symm.trans hnone

theorem placesFrom_of_none (h : rule.fold? (line :: rest) = none) :
    placesFrom rule stay total passed places (line :: rest) =
      placesFrom rule stay total (places.take 1 ++ passed) (places.drop 1) rest := by
  rw [placesFrom]
  split
  · next fold' hfold => cases h.symm.trans hfold
  · rfl

end

theorem Rule.Traces.sweepFrom {rule : Rule} {stay : List Line → List Nat → List Nat}
    (hrule : rule.Traces stay) {source passed lines : List Line} {before places : List Nat}
    (hlength : before.length = passed.length)
    (h : Traced 0 source (before.reverse ++ places) (passed.reverse ++ lines)) :
    Traced 0 source (placesFrom rule stay source.length before places lines)
      (Linear.sweepFrom rule passed lines) := by
  have hrest : ∀ {passed lines : List Line} {before places : List Nat},
      before.length = passed.length →
      Traced 0 source (before.reverse ++ places) (passed.reverse ++ lines) →
      places.length = lines.length := by
    intro passed lines before places hlength h
    have hall := h.length_eq
    simp only [List.length_append, List.length_reverse] at hall
    omega
  induction passed, lines using sweepFrom.induct rule generalizing before places with
  | case1 passed =>
    obtain rfl := List.length_eq_zero_iff.1 (hrest hlength h)
    rw [placesFrom, Linear.sweepFrom]
    simpa using h
  | case2 passed line rest fold hfold ih =>
    -- The lines from here on are replaced, and then the new name is used in all lines.
    rw [placesFrom_of_fold _ _ _ hfold, sweepFrom_of_fold hfold]
    have hreplaced := (h.replace (by simpa using hlength) (fun n' source' htotal h' => by
      have htraced := hrule hfold h'
      rwa [htotal, Nat.zero_add] at htraced) (by simp)).apply fold
    rw [Fold.apply_append, Fold.apply_reverse] at hreplaced
    exact ih (by rw [Fold.length_apply, hlength]) hreplaced
  | case3 passed line rest hfold ih =>
    obtain ⟨place, places, rfl⟩ := List.exists_cons_of_length_pos
      (by rw [hrest hlength h]; exact Nat.succ_pos _)
    rw [placesFrom_of_none _ _ _ hfold, sweepFrom_of_none hfold]
    exact ih (by simpa using hlength) (by simpa using h)

namespace Traced

variable {source lines : List Line} {places : List Nat}

theorem sweep (h : Traced 0 source places lines) {rule : Rule}
    {stay : List Line → List Nat → List Nat} (hrule : rule.Traces stay) :
    Traced 0 source (placesFrom rule stay source.length [] places lines)
      (Linear.sweep rule lines) :=
  hrule.sweepFrom rfl h

/-- The places are followed through a round. -/
theorem round (h : Traced 0 source places lines) :
    Traced 0 source (placesRound source.length places lines) (optimizeRound lines) :=
  (((h.sweep pushKillPop_traces).sweep directCall_traces).sweep directStore_traces).sweep
    shadowedPop_traces

/-- The places are followed through rounds, which end in the same way. -/
theorem rounds (h : Traced 0 source places lines) (n : Nat) (seen : List Nat) (repeats : Nat) :
    Traced 0 source (placesRounds source.length n seen repeats places lines)
      (optimizeRounds n seen repeats lines) := by
  induction n generalizing seen repeats places lines with
  | zero => exact h
  | succ n ih =>
    have hround := h.round
    simp only [placesRounds, optimizeRounds]
    split
    · exact hround
    · split
      · split
        · exact hround
        · exact ih hround seen (repeats + 1)
      · exact ih hround _ repeats

end Traced

theorem Body.traced_optimize (b : Body) : Traced 0 b.lines b.places b.optimize.lines := by
  have hrefl := Traced.refl 0 b.lines
  rw [← List.range_eq_range'] at hrefl
  exact hrefl.rounds maxRounds [b.lines.length] 0

/-! ## Where labels are -/

/-- The lines of a body after some were removed or fused, with the places of those that stay: a
label is on the first line that stays at or after the line that it was on. -/
structure Placed (source : List Line) (places : List Nat) (lines : List Line) : Prop where
  length_eq : places.length = lines.length
  ascending : places.Pairwise (· < ·)
  /-- At its place a line has the instruction that stayed; a last line that does nothing may come
  after all places. -/
  instruction : ∀ {k place : Nat} {line : Line}, places[k]? = some place → lines[k]? = some line →
    (∃ first, source[place]? = some first ∧ first.instruction.Stays line.instruction) ∨
      (place = source.length ∧ line.instruction = .nop ∧ k + 1 = lines.length)
  /-- A line has the labels of the lines after the place before, up to its own place. -/
  labels : lines.map Line.labels = List.zipWith
    (fun start place => ((source.take (place + 1)).drop start).flatMap Line.labels)
    (0 :: places.map (· + 1)) places
  first : ∀ {i : Nat} {line : Line} {label : LabelId}, source[i]? = some line →
    label ∈ line.labels → ∃ (k : Nat) (line' : Line) (place : Nat), lines[k]? = some line' ∧
      label ∈ line'.labels ∧ places[k]? = some place ∧ i ≤ place ∧
        ∀ j < k, ∀ earlier, places[j]? = some earlier → earlier < i

namespace Traced

variable {n : Nat} {source lines : List Line} {places : List Nat}

theorem flatMap_labels (h : Traced n source places lines) :
    lines.flatMap Line.labels = source.flatMap Line.labels := by
  induction h with
  | gone h => exact h.symm
  | ended n source => simp
  | stays removed hi h ih => simp [ih]

theorem le_of_mem (h : Traced n source places lines) : ∀ place ∈ places, n ≤ place := by
  induction h with
  | gone h => simp
  | ended n source => simp
  | stays removed hi h ih =>
    refine List.forall_mem_cons.2 ⟨Nat.le_add_right _ _, fun place hplace => ?_⟩
    have hle := ih place hplace
    omega

theorem ascending (h : Traced n source places lines) : places.Pairwise (· < ·) := by
  induction h with
  | gone h => exact .nil
  | ended n source => exact List.pairwise_singleton _ _
  | stays removed hi h ih =>
    exact List.pairwise_cons.2 ⟨fun place hplace => h.le_of_mem place hplace, ih⟩

theorem map_labels (h : Traced n source places lines) (before : List Line)
    (hn : before.length = n) : lines.map Line.labels = List.zipWith
      (fun start place => (((before ++ source).take (place + 1)).drop start).flatMap Line.labels)
      (n :: places.map (· + 1)) places := by
  induction h generalizing before with
  | gone h => rfl
  | ended n source =>
    subst hn
    have htake : (before ++ source).take (before.length + source.length + 1) = before ++ source :=
      List.take_of_length_le (by simp)
    simp [htake]
  | @stays n removed line source places lines i hi h ih =>
    subst hn
    have hrest := ih (before ++ removed ++ [line]) (by simp [Nat.add_assoc])
    simp only [List.append_assoc, List.singleton_append] at hrest
    rw [List.map_cons, hrest, List.map_cons, List.zipWith_cons_cons]
    congr 1
    have htake : (before ++ (removed ++ line :: source)).take (before.length + removed.length + 1) =
        before ++ (removed ++ [line]) := by
      have hall : before ++ (removed ++ line :: source) =
          (before ++ (removed ++ [line])) ++ source := by simp
      rw [hall]
      exact List.take_left' (by simp [Nat.add_assoc])
    rw [htake, List.drop_left]
    simp

theorem instruction (h : Traced n source places lines) (before : List Line)
    (hn : before.length = n) {k place : Nat} (hplace : places[k]? = some place)
    (hline : lines[k]? = some line) : (∃ first, (before ++ source)[place]? = some first ∧
        first.instruction.Stays line.instruction) ∨
      (place = (before ++ source).length ∧ line.instruction = .nop ∧ k + 1 = lines.length) := by
  induction h generalizing before k with
  | gone h => cases hline
  | ended n source =>
    subst hn
    cases k with
    | zero =>
      cases hplace
      cases hline
      exact .inr ⟨by simp, rfl, rfl⟩
    | succ k => cases hline
  | @stays n removed first source places lines i hi h ih =>
    subst hn
    cases k with
    | zero =>
      cases hplace
      cases hline
      exact .inl ⟨first, by simp, hi⟩
    | succ k =>
      have hrest := ih (before ++ removed ++ [first]) (by simp [Nat.add_assoc]) hplace hline
      simpa using hrest

theorem first (h : Traced n source places lines) (before : List Line) (hn : before.length = n)
    {i : Nat} {label : LabelId} (hi : n ≤ i)
    (hline : (before ++ source)[i]? = some line) (hlabel : label ∈ line.labels) :
    ∃ (k : Nat) (line' : Line) (place : Nat), lines[k]? = some line' ∧ label ∈ line'.labels ∧
      places[k]? = some place ∧ i ≤ place ∧
        ∀ j < k, ∀ earlier, places[j]? = some earlier → earlier < i := by
  induction h generalizing before with
  | gone hnone =>
    -- There are no labels, so the label is on no line.
    subst hn
    rw [List.getElem?_append_right hi] at hline
    have hmem := List.mem_flatMap.2 ⟨line, List.mem_of_getElem? hline, hlabel⟩
    rw [hnone] at hmem
    cases hmem
  | ended n source =>
    subst hn
    rw [List.getElem?_append_right hi] at hline
    have hlt := (List.getElem?_eq_some_iff.1 hline).1
    exact ⟨0, _, _, rfl, List.mem_flatMap.2 ⟨line, List.mem_of_getElem? hline, hlabel⟩, rfl,
      by omega, fun j hj => absurd hj (Nat.not_lt_zero j)⟩
  | @stays n removed first source places lines instruction hstays h ih =>
    subst hn
    have hall : before ++ (removed ++ first :: source) =
        (before ++ removed ++ [first]) ++ source := by simp
    by_cases hle : i ≤ before.length + removed.length
    · -- The line was removed in front of the first one that stays, or it is this one.
      have hmem : line ∈ removed ++ [first] := by
        rw [hall, List.getElem?_append_left (by simp; omega), List.append_assoc,
          List.getElem?_append_right hi] at hline
        exact List.mem_of_getElem? hline
      refine ⟨0, _, _, rfl, ?_, rfl, hle, fun j hj => absurd hj (Nat.not_lt_zero j)⟩
      have hlabels := List.mem_flatMap.2 ⟨line, hmem, hlabel⟩
      simpa using hlabels
    · -- The line comes after the first one that stays, whose place is then an earlier one.
      rw [hall] at hline
      obtain ⟨k, line', place, hline', hlabel', hplace, hip, hearlier⟩ :=
        ih (before ++ removed ++ [first]) (by simp [Nat.add_assoc]) (by omega) hline
      refine ⟨k + 1, line', place, hline', hlabel', hplace, hip, fun j hj earlier hj' => ?_⟩
      cases j with
      | zero =>
        cases hj'
        omega
      | succ j => exact hearlier j (Nat.lt_of_succ_lt_succ hj) earlier hj'

theorem placed (h : Traced 0 source places lines) : Placed source places lines where
  length_eq := h.length_eq
  ascending := h.ascending
  instruction := h.instruction [] rfl
  labels := h.map_labels [] rfl
  first := h.first [] rfl (Nat.zero_le _)

end Traced

/-- Shortening keeps the sequence of all labels, and every label is on the first line that stays at
or after the line that it was on; so the same labels can be jumped to. -/
theorem Body.labels_optimize (b : Body) :
    b.optimize.lines.flatMap Line.labels = b.lines.flatMap Line.labels ∧
      Placed b.lines b.places b.optimize.lines ∧
      ∀ label, (∃ line ∈ b.lines, label ∈ line.labels) ↔
        ∃ line ∈ b.optimize.lines, label ∈ line.labels := by
  have htraced := b.traced_optimize
  refine ⟨htraced.flatMap_labels, htraced.placed, fun label => ?_⟩
  rw [← List.mem_flatMap, ← List.mem_flatMap, htraced.flatMap_labels]

end WordLang.Linear
