import WordLang.Proofs.Assembly.Sites

/-!
# Activations on the stack

The activations of linear code lie on the stack of the processor one above the other, the current
one lowest. Each of them takes the words of its operands and the words of its frame; in its frame are
the frame pointer and the place that its caller goes on with. A value of linear code is a word that
means it: a number is itself, and a function is the address of its code.

## Main definitions

* `Assembly.Means`: the words that stand for a value of a kind
* `Assembly.View`: the part of the stack from an activation on
* `Assembly.Segment`: the words of one activation
* `Assembly.Waiting`: the words of the activations that wait for a result
* `Assembly.Stacked`: the words of all activations, in a state of the processor

## Main results

* `Assembly.Stacked.push`, `Assembly.Stacked.pop`: operands
* `Assembly.Stacked.store`, `Assembly.Stacked.read`: slots
-/

namespace WordLang.Assembly

variable {p : Linear.Program} {sig : FunctionId → Option Signature} {comments : Comments}
  {lines : List Line}

section

variable (p) (img : Image lines)

def Means : Kind → Int64 → Word → Prop
  | .word, v, w => w = v.toBitVec
  | .code id, v, w => v = Int64.ofNat id ∧ ∃ f, p.functions[id]? = some f ∧ w = img.symbol f.label
  | .any, _, _ => True

inductive Operands : List Kind → List Int64 → List Word → Prop where
  | nil : Operands [] [] []
  | cons {k : Kind} {v : Int64} {w : Word} {ks : List Kind} {vs : List Int64} {ws : List Word} :
    Means p img k v w → Operands ks vs ws → Operands (k :: ks) (v :: vs) (w :: ws)

/-- The words of the frame of a function, the lowest first: one for each slot, the frame pointer of
the caller, and the place that the caller goes on with. -/
structure FrameWords (S : Site p sig comments lines) (slots : Table Int64) (link back : Word)
    (ws : List Word) : Prop where
  length : ws.length = S.slots + 2
  link : ws[S.slots - S.params]? = some link
  back : ws[S.slots - S.params + 1]? = some back
  slot : ∀ r v, slots.find? r = some v → r < S.slots ∧
    ∃ w, ws[slotIndex S.params S.slots r]? = some w ∧ Means p img (S.kind r) v w

structure View where
  start : Word
  words : List Word
  frame : Word

/-- The words of an activation with operands of some kinds, and the part of the stack after them. -/
structure Segment (S : Site p sig comments lines) (slots : Table Int64) (ks : List Kind)
    (stack : List Int64) (view : View) (below : List Int64) (view' : View) (back : Word) : Prop where
  /-- First the operands, then the frame, then the caller. -/
  split : ∃ vs ws frame, stack = vs ++ below ∧ view.words = ws ++ (frame ++ view'.words) ∧
    Operands p img ks vs ws ∧ FrameWords p img S slots view'.frame back frame ∧
    view.frame = above view.start (ws.length + (S.slots - S.params)) ∧
    view'.start = above view.start (ws.length + frame.length)

/-- Where the processor is to go back to in the end: what was in `rsp` and `rbp`, the address, and
the kind of the result. -/
structure Home where
  rsp : Word
  rbp : Word
  address : Word
  kind : Kind

/-- The part of the stack with the activations that wait for a result of kind `k`, after the frame of
a function with `n` parameters. -/
inductive Waiting (sig : FunctionId → Option Signature) (comments : Comments) (home : Home) :
    Kind → Nat → List Linear.Frame → List Int64 → View → Word → Prop where
  | home (n : Nat) : Waiting sig comments home home.kind n [] []
      ⟨above home.rsp n, [], home.rbp⟩ home.address
  | caller {k : Kind} {n : Nat} {f : Linear.Frame} {callers : List Linear.Frame}
      {S : Site p sig comments lines} {pool : Pool} {i : Nat} {ks : List Kind}
      {stack below : List Int64} {view view' : View} {back : Word} :
    f.label = S.function.label → f.body = S.body →
    S.At f.rest pool (i + (finishCall n).length) → Placed lines i (code (finishCall n)) →
    Linear.LinesKinded S.kind sig f.rest (k :: ks) [] →
    (∀ r ∈ Linear.live f.rest, Linear.OnlyKilled r f.rest) →
    Segment p img S f.slots ks stack view below view' back →
    Waiting sig comments home S.signature.result S.params callers below view' back →
    Waiting sig comments home k n (f :: callers) stack view (img.address i)

/-- The words from the stack pointer on are those of an activation and of those that wait. -/
def Stacked (home : Home) (S : Site p sig comments lines) (slots : Table Int64) (ks : List Kind)
    (stack : List Int64) (callers : List Linear.Frame) (c : Core) : Prop :=
  ∃ ws below view back, c.Holds ws ∧
    Segment p img S slots ks stack ⟨c.registers .rsp, ws, c.registers .rbp⟩ below view back ∧
    Waiting p img sig comments home S.signature.result S.params callers below view back

end

variable {img : Image lines}

/-! ## Operands -/

namespace Operands

variable {ks ks' : List Kind} {vs : List Int64} {ws : List Word}

theorem length_eq (h : Operands p img ks vs ws) : vs.length = ks.length ∧ ws.length = ks.length := by
  induction h with
  | nil => exact ⟨rfl, rfl⟩
  | cons _ _ ih => exact ⟨congrArg (· + 1) ih.1, congrArg (· + 1) ih.2⟩

theorem of_append (h : Operands p img (ks ++ ks') vs ws) : ∃ vs₁ vs₂ ws₁ ws₂,
    vs = vs₁ ++ vs₂ ∧ ws = ws₁ ++ ws₂ ∧ Operands p img ks vs₁ ws₁ ∧ Operands p img ks' vs₂ ws₂ := by
  induction ks generalizing vs ws with
  | nil => exact ⟨[], vs, [], ws, rfl, rfl, .nil, h⟩
  | cons k ks ih =>
    cases h with
    | cons hk h =>
      obtain ⟨vs₁, vs₂, ws₁, ws₂, rfl, rfl, h₁, h₂⟩ := ih h
      exact ⟨_ :: vs₁, vs₂, _ :: ws₁, ws₂, rfl, rfl, .cons hk h₁, h₂⟩

theorem get (h : Operands p img ks vs ws) {i : Nat} {k : Kind} {v : Int64} (hk : ks[i]? = some k)
    (hv : vs[i]? = some v) : ∃ w, ws[i]? = some w ∧ Means p img k v w := by
  induction h generalizing i with
  | nil => cases hk
  | cons hmeans _ ih =>
    cases i with
    | zero =>
      cases hk
      cases hv
      exact ⟨_, rfl, hmeans⟩
    | succ i => exact ih hk hv

end Operands

/-! ## Frames -/

theorem slotIndex_ne_link {params slots r : Nat} (hr : r < slots) (hp : params ≤ slots) :
    slotIndex params slots r ≠ slots - params ∧ slotIndex params slots r ≠ slots - params + 1 := by
  unfold slotIndex
  split <;> omega

namespace FrameWords

variable {S : Site p sig comments lines} {slots : Table Int64} {link back w : Word} {ws : List Word}
  {r : Nat} {v : Int64}

/-- Storing a value in its slot. -/
theorem store (h : FrameWords p img S slots link back ws) (hr : r < S.slots)
    (hmeans : Means p img (S.kind r) v w) :
    FrameWords p img S (slots.insert r v) link back (ws.set (slotIndex S.params S.slots r) w) where
  length := by rw [List.length_set, h.length]
  link := by rw [List.getElem?_set_ne (slotIndex_ne_link hr S.params_le).1, h.link]
  back := by rw [List.getElem?_set_ne (slotIndex_ne_link hr S.params_le).2, h.back]
  slot := by
    intro r' v' hfind
    rw [Table.find?_insert] at hfind
    split at hfind
    · next heq =>
      cases hfind
      subst heq
      refine ⟨hr, w, List.getElem?_set_self ?_, hmeans⟩
      rw [h.length]
      exact slotIndex_lt hr
    · next hne =>
      obtain ⟨hr', w', hget, hmeans'⟩ := h.slot r' v' hfind
      refine ⟨hr', w', ?_, hmeans'⟩
      rw [List.getElem?_set_ne fun heq => hne (slotIndex_inj hr hr' heq).symm, hget]

end FrameWords

/-! ## Activations -/

namespace Segment

variable {S : Site p sig comments lines} {slots : Table Int64} {k : Kind} {ks : List Kind}
  {stack below : List Int64} {view view' : View} {back w : Word} {v : Int64} {r : Nat}

theorem push (h : Segment p img S slots ks stack view below view' back) (hmeans : Means p img k v w)
    {start : Word} (hstart : view.start = above start 1) :
    Segment p img S slots (k :: ks) (v :: stack) ⟨start, w :: view.words, view.frame⟩ below view'
      back := by
  obtain ⟨vs, ws, frame, rfl, hwords, hoperands, hframe, hpointer, hend⟩ := h.split
  refine ⟨v :: vs, w :: ws, frame, rfl, by rw [hwords, List.cons_append], .cons hmeans hoperands,
    hframe, ?_, ?_⟩
  · rw [hpointer, hstart, above_above, List.length_cons]
    congr 1
    omega
  · rw [hend, hstart, above_above, List.length_cons]
    congr 1
    omega

/-- The operands on top, and the words without them. -/
theorem take {ks₁ : List Kind} (h : Segment p img S slots (ks₁ ++ ks) stack view below view' back) :
    ∃ vs stack' ws words, stack = vs ++ stack' ∧ view.words = ws ++ words ∧
      Operands p img ks₁ vs ws ∧
      Segment p img S slots ks stack' ⟨above view.start ws.length, words, view.frame⟩ below view'
        back := by
  obtain ⟨vs, ws, frame, rfl, hwords, hoperands, hframe, hpointer, hend⟩ := h.split
  obtain ⟨vs₁, vs₂, ws₁, ws₂, rfl, rfl, htop, hoperands⟩ := hoperands.of_append
  refine ⟨vs₁, vs₂ ++ below, ws₁, ws₂ ++ (frame ++ view'.words), List.append_assoc .., ?_, htop,
    vs₂, ws₂, frame, rfl, rfl, hoperands, hframe, ?_, ?_⟩
  · rw [hwords, List.append_assoc]
  · rw [hpointer, above_above, List.length_append, Nat.add_assoc]
  · rw [hend, above_above, List.length_append, Nat.add_assoc]

theorem pop (h : Segment p img S slots (k :: ks) stack view below view' back) :
    ∃ v stack' w ws, stack = v :: stack' ∧ view.words = w :: ws ∧ Means p img k v w ∧
      Segment p img S slots ks stack' ⟨above view.start 1, ws, view.frame⟩ below view' back := by
  change Segment p img S slots ([k] ++ ks) stack view below view' back at h
  obtain ⟨vs, stack', ws, words, hstack, hwords, hoperands, hsegment⟩ := h.take
  cases hoperands with
  | cons hmeans hnil =>
    cases hnil
    exact ⟨_, stack', _, words, hstack, hwords, hmeans, hsegment⟩

/-- The word of a slot: its position, its address, and what it stands for. -/
theorem slot (h : Segment p img S slots ks stack view below view' back) (hr : r < S.slots) :
    ∃ i w, view.words[i]? = some w ∧
      view.frame + (slotOffset S.params r).toBitVec = above view.start i ∧
      (∀ v, slots.find? r = some v → Means p img (S.kind r) v w) ∧
      ∀ v w', Means p img (S.kind r) v w' → Segment p img S (slots.insert r v) ks stack
        ⟨view.start, view.words.set i w', view.frame⟩ below view' back := by
  obtain ⟨vs, ws, frame, rfl, hwords, hoperands, hframe, hpointer, hend⟩ := h.split
  have hindex : slotIndex S.params S.slots r < frame.length := by
    rw [hframe.length]
    exact slotIndex_lt hr
  have hget : ∀ {w}, frame[slotIndex S.params S.slots r]? = some w →
      view.words[ws.length + slotIndex S.params S.slots r]? = some w := by
    intro w hw
    rw [hwords, List.getElem?_append_right (Nat.le_add_right ..), Nat.add_sub_cancel_left,
      List.getElem?_append_left hindex, hw]
  refine ⟨_, _, hget (List.getElem?_eq_getElem hindex), ?_, fun v hv => ?_, fun v w' hmeans => ?_⟩
  · rw [hpointer, ← above_above, add_slotOffset hr S.params_le, above_above]
  · obtain ⟨-, w, hw, hmeans⟩ := hframe.slot r v hv
    rw [List.getElem?_eq_getElem hindex, Option.some.injEq] at hw
    rwa [hw]
  · refine ⟨vs, ws, frame.set (slotIndex S.params S.slots r) w', rfl, ?_, hoperands,
      hframe.store hr hmeans, hpointer, ?_⟩
    · rw [hwords, List.set_append_right _ _ (Nat.le_add_right ..), Nat.add_sub_cancel_left,
        List.set_append_left _ _ hindex]
    · rw [hend, List.length_set]

end Segment

namespace Stacked

variable {home : Home} {S : Site p sig comments lines} {slots : Table Int64} {k : Kind}
  {ks : List Kind} {stack : List Int64} {callers : List Linear.Frame} {c c' : Core} {w : Word}
  {v : Int64} {r : Nat}

theorem of_holds (h : Stacked p img home S slots ks stack callers c)
    (hholds : ∀ ws, c.Holds ws → c'.Holds ws) (hrsp : c'.registers .rsp = c.registers .rsp)
    (hrbp : c'.registers .rbp = c.registers .rbp) :
    Stacked p img home S slots ks stack callers c' := by
  obtain ⟨ws, below, view, back, hws, hsegment, hwaiting⟩ := h
  refine ⟨ws, below, view, back, hholds ws hws, ?_, hwaiting⟩
  rwa [hrsp, hrbp]

theorem set (h : Stacked p img home S slots ks stack callers c) {q : Register} (hrsp : q ≠ .rsp)
    (hrbp : q ≠ .rbp) : Stacked p img home S slots ks stack callers (c.set q w) :=
  h.of_holds (fun _ hws => hws.set_of_ne hrsp) (Core.registers_set_of_ne hrsp.symm)
    (Core.registers_set_of_ne hrbp.symm)

theorem push (h : Stacked p img home S slots ks stack callers c) (hmeans : Means p img k v w)
    (hroom : 8 ≤ (c.registers .rsp).toNat) :
    Stacked p img home S slots (k :: ks) (v :: stack) callers (c.push w) := by
  obtain ⟨ws, below, view, back, hws, hsegment, hwaiting⟩ := h
  refine ⟨w :: ws, below, view, back, hws.push hroom, ?_, hwaiting⟩
  rw [Core.registers_push_of_ne (q := .rbp) (by decide), Core.registers_push_rsp]
  refine hsegment.push hmeans ?_
  rw [above_one, BitVec.sub_add_cancel]

theorem pop (h : Stacked p img home S slots (k :: ks) stack callers c) :
    ∃ v stack', stack = v :: stack' ∧ Means p img k v c.top ∧
      Stacked p img home S slots ks stack' callers c.drop ∧
      (c.registers .rsp).toNat ≤ (c.drop.registers .rsp).toNat := by
  obtain ⟨ws, below, view, back, hws, hsegment, hwaiting⟩ := h
  obtain ⟨v, stack', w, ws', rfl, hwords, hmeans, hsegment⟩ := hsegment.pop
  change ws = w :: ws' at hwords
  subst hwords
  refine ⟨v, stack', rfl, hws.top_eq.symm ▸ hmeans, ⟨ws', below, view, back, hws.drop, ?_, hwaiting⟩,
    ?_⟩
  · rw [Core.registers_drop_rsp, Core.registers_drop_of_ne (by decide)]
    exact hsegment
  · have hfits := hws.fits
    rw [List.length_cons] at hfits
    rw [Core.registers_drop_rsp, ← above_one, toNat_above (by omega)]
    exact Nat.le_add_right ..

/-- The word of a slot that was written to stands for its value. -/
theorem read (h : Stacked p img home S slots ks stack callers c) (hr : r < S.slots)
    (hv : slots.find? r = some v) : Means p img (S.kind r) v
      (c.memory.read (c.registers .rbp + (slotOffset S.params r).toBitVec)) := by
  obtain ⟨ws, below, view, back, hws, hsegment, -⟩ := h
  obtain ⟨i, w, hw, haddress, hmeans, -⟩ := hsegment.slot hr
  change c.registers .rbp + _ = above (c.registers .rsp) i at haddress
  rw [haddress, hws.read i w hw]
  exact hmeans v hv

theorem store (h : Stacked p img home S slots ks stack callers c) (hr : r < S.slots)
    (hmeans : Means p img (S.kind r) v w) :
    Stacked p img home S (slots.insert r v) ks stack callers
      (c.store (c.registers .rbp + (slotOffset S.params r).toBitVec) w) := by
  obtain ⟨ws, below, view, back, hws, hsegment, hwaiting⟩ := h
  obtain ⟨i, w', hw, haddress, -, hstore⟩ := hsegment.slot hr
  have hi : i < ws.length := (List.getElem?_eq_some_iff.1 hw).1
  exact ⟨ws.set i w, below, view, back, hws.store hi haddress w, hstore v w hmeans, hwaiting⟩

end Stacked

end WordLang.Assembly
