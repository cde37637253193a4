import WordLang.Proofs.Assembly.Frames

/-!
# Calls and returns on the processor

A call leaves the arguments on the stack, above the place to go back to. The callee saves the frame
pointer and makes room for its other slots; so the arguments become the slots of its parameters. On
the way back the frame is dropped, the frame pointer restored, and the caller replaces the arguments
by the result.

## Main results

* `Assembly.Image.effects_prologue`, `Assembly.Image.effects_finishCall`: the instructions around
  calls
* `Assembly.Stacked.enter`: the stack after a call
* `Assembly.Stacked.reaches_back`: what a return does
-/

namespace WordLang.Assembly

/-! ## Instructions around calls -/

namespace Image

variable {lines : List Line} {img : Image lines} {c : Core} {n : Nat} {ws args : List Word}

variable (img) in
/-- Opening a frame saves the frame pointer and takes in words with whatever was there. -/
theorem effects_prologue (hc : c.Holds ws) (hroom : 8 * (n + 1) ≤ (c.registers .rsp).toNat) :
    ∃ c' junk, img.Effects (prologue (8 * n)) c c' ∧ junk.length = n ∧
      c'.Holds (junk ++ c.registers .rbp :: ws) ∧
      c'.registers .rbp = above (c'.registers .rsp) n ∧
      c.registers .rsp = above (c'.registers .rsp) (n + 1) := by
  let c₁ := c.push (c.registers .rbp)
  let c₂ := c₁.set .rbp (c₁.registers .rsp)
  have hc₂ : c₂.Holds (c.registers .rbp :: ws) := (hc.push (by omega)).set_of_ne (by decide)
  have hfirst : img.Effects [.push .rbp, .mov (.register .rbp) (.register .rsp)] c c₂ :=
    .cons rfl (.single rfl)
  have hrsp₂ : c₂.registers .rsp = c.registers .rsp - 8 := by
    rw [Core.registers_set_of_ne (by decide), Core.registers_push_rsp]
  have hback : c.registers .rsp = above (c.registers .rsp - 8) 1 := by
    rw [above_one, BitVec.sub_add_cancel]
  cases n with
  | zero =>
    refine ⟨c₂, [], hfirst, rfl, hc₂, ?_, ?_⟩
    · rw [Core.registers_set_self, above_zero, hrsp₂]
      exact Core.registers_push_rsp
    · rw [hrsp₂]
      exact hback
  | succ n =>
    have hroom₂ : (c₂.registers .rsp).toNat = (c.registers .rsp).toNat - 8 := by
      rw [hrsp₂]
      exact toNat_sub_words (n := 1) (by omega)
    obtain ⟨junk, hjunk, hc₃⟩ := hc₂.reserve (n := n + 1) (by omega)
    have hsub : img.effect? c₂ (.sub .rsp (.immediate (8 * (n + 1) : Nat))) =
        some (c₂.calculate .rsp (c₂.registers .rsp - BitVec.ofNat 64 (8 * (n + 1)))) := by
      rw [effect?, value, BitVec.ofInt_natCast]
    refine ⟨_, junk, hfirst.append (.single hsub), hjunk, hc₃, ?_, ?_⟩
    · rw [Core.registers_calculate_of_ne (by decide), Core.registers_calculate_self, above_sub_words,
        Core.registers_set_self, hrsp₂]
      exact Core.registers_push_rsp
    · rw [Core.registers_calculate_self, ← above_above, above_sub_words, hrsp₂]
      exact hback

variable (img) in
/-- After a call the arguments are dropped, and the result is pushed. -/
theorem effects_finishCall (hc : c.Holds (args ++ ws)) (hargs : args.length = n) :
    ∃ c' : Core, img.Effects (finishCall n) c (c'.push (c.registers .rax)) ∧ c'.Holds ws ∧
      c'.registers .rsp = above (c.registers .rsp) n ∧ c'.registers .rbp = c.registers .rbp := by
  cases n with
  | zero =>
    rw [List.eq_nil_of_length_eq_zero hargs] at hc
    exact ⟨c, .single rfl, hc, above_zero.symm, rfl⟩
  | succ n =>
    have hadd : img.effect? c (.add .rsp (.immediate ((n + 1 : Nat) * 8))) =
        some (c.calculate .rsp (above (c.registers .rsp) (n + 1))) := by
      have hbytes : ((n + 1 : Nat) * 8 : Int) = (8 * (n + 1) : Nat) := by omega
      rw [effect?, value, hbytes, BitVec.ofInt_natCast]
      rfl
    refine ⟨c.calculate .rsp (above (c.registers .rsp) (n + 1)), .cons hadd (.single rfl), ?_,
      Core.registers_calculate_self, Core.registers_calculate_of_ne (by decide)⟩
    exact hc.release rfl (by rw [Core.registers_calculate_self, hargs])

end Image

variable {p : Linear.Program} {sig : FunctionId → Option Signature} {comments : Comments}
  {lines : List Line} {img : Image lines} {home : Home} {S T : Site p sig comments lines}
  {ks : List Kind} {args stack below : List Int64} {callers : List Linear.Frame} {c : Core}
  {view : View} {back : Word}

/-! ## Entering a function -/

theorem FrameWords.entry {ws junk : List Word} {slots : Table Int64} {link : Word}
    (h : Operands p img T.signature.params.reverse args ws) (hjunk : junk.length = T.slots - T.params)
    (hslots : ∀ r v, slots.find? r = some v → args.reverse[r]? = some v) :
    FrameWords p img T slots link back (junk ++ link :: back :: ws) := by
  obtain ⟨hargs, hws⟩ := h.length_eq
  rw [List.length_reverse] at hargs hws
  change args.length = T.params at hargs
  change ws.length = T.params at hws
  have hparams := T.params_le
  refine ⟨?_, ?_, ?_, fun r v hv => ?_⟩
  · simp only [List.length_append, List.length_cons]
    omega
  · rw [← hjunk, List.getElem?_append_right le_rfl, Nat.sub_self, List.getElem?_cons_zero]
  · rw [← hjunk, List.getElem?_append_right (Nat.le_add_right ..), Nat.add_sub_cancel_left,
      List.getElem?_cons_succ, List.getElem?_cons_zero]
  · -- The last argument lies lowest, right above the place to go back to.
    have hv := hslots r v hv
    have hr : r < T.params := by
      rw [← hargs, ← List.length_reverse]
      exact (List.getElem?_eq_some_iff.1 hv).1
    have hr' : r < T.signature.params.length := hr
    obtain ⟨k, hk⟩ : ∃ k, T.signature.params[r]? = some k := ⟨_, List.getElem?_eq_getElem hr'⟩
    have hk' : T.signature.params.reverse[T.params - 1 - r]? = some k := by
      rw [List.getElem?_reverse (by unfold Site.params; omega), ← hk]
      congr 1
      unfold Site.params
      omega
    rw [List.getElem?_reverse (by omega), hargs] at hv
    obtain ⟨w, hw, hmeans⟩ := h.get hk' hv
    have hindex : slotIndex T.params T.slots r = junk.length + (T.params - 1 - r + 2) := by
      rw [slotIndex, if_pos hr, hjunk]
      omega
    refine ⟨by omega, w, ?_, T.kinded.params r k hk ▸ hmeans⟩
    rw [hindex, List.getElem?_append_right (Nat.le_add_right ..), Nat.add_sub_cancel_left,
      List.getElem?_cons_succ, List.getElem?_cons_succ, hw]

variable (view) in
/-- A function is entered with its arguments on top of the stack. -/
theorem Stacked.entry {ws : List Word} (hc : c.Holds (ws ++ view.words))
    (hoperands : Operands p img T.signature.params.reverse args ws)
    (hstart : view.start = above (c.registers .rsp) ws.length) (hframe : view.frame = c.registers .rbp)
    (hwaiting : Waiting p img sig comments home T.signature.result T.params callers below view back)
    (hroom : 8 * (T.slots - T.params + 2) ≤ (c.registers .rsp).toNat) :
    ∃ c', img.Effects (prologue (8 * (T.slots - T.params))) (c.push back) c' ∧
      c.registers .rsp = above (c'.registers .rsp) (T.slots - T.params + 2) ∧
      ∀ slots : Table Int64, (∀ r v, slots.find? r = some v → args.reverse[r]? = some v) →
        Stacked p img home T slots [] below callers c' := by
  have hrsp := Core.toNat_rsp_push (c := c) (w := back) (by omega)
  obtain ⟨c', junk, heffects, hjunk, hc', hrbp, hrsp'⟩ := img.effects_prologue
    (n := T.slots - T.params) (hc.push (w := back) (by omega)) (by omega)
  rw [Core.registers_push_of_ne (by decide)] at hc'
  have hback : c.registers .rsp = above (c'.registers .rsp) (T.slots - T.params + 2) := by
    rw [Core.registers_push_rsp] at hrsp'
    rw [show T.slots - T.params + 2 = T.slots - T.params + 1 + 1 from rfl, ← above_above, ← hrsp',
      above_one, BitVec.sub_add_cancel]
  have hws : ws.length = T.params := by
    rw [hoperands.length_eq.2, List.length_reverse]
    rfl
  have hparams := T.params_le
  refine ⟨c', heffects, hback, fun slots hslots => ⟨_, below, view, back, hc', ?_, hwaiting⟩⟩
  refine ⟨[], [], junk ++ c.registers .rbp :: back :: ws, rfl, by simp, .nil,
    hframe ▸ FrameWords.entry hoperands hjunk hslots, ?_, ?_⟩
  · rw [hrbp, List.length_nil, Nat.zero_add]
  · rw [hstart, hback, above_above]
    congr 1
    simp only [List.length_append, List.length_cons, List.length_nil]
    omega

/-- The stack after a call from an activation. -/
theorem Stacked.enter {f : Linear.Frame} {pool : Pool} {i : Nat}
    (h : Stacked p img home S f.slots (T.signature.params.reverse ++ ks) stack callers c)
    (hlabel : f.label = S.function.label) (hbody : f.body = S.body)
    (hat : S.At f.rest pool (i + (finishCall T.params).length))
    (hplaced : Placed lines i (code (finishCall T.params)))
    (hkinds : Linear.LinesKinded S.kind sig f.rest (T.signature.result :: ks) [])
    (hdead : ∀ r ∈ Linear.live f.rest, Linear.OnlyKilled r f.rest)
    (hroom : 8 * (T.slots - T.params + 2) ≤ (c.registers .rsp).toNat) :
    ∃ args below, stack = args ++ below ∧ args.length = T.params ∧
      ∃ c', img.Effects (prologue (8 * (T.slots - T.params))) (c.push (img.address i)) c' ∧
        c.registers .rsp = above (c'.registers .rsp) (T.slots - T.params + 2) ∧
        ∀ slots : Table Int64, (∀ r v, slots.find? r = some v → args.reverse[r]? = some v) →
          Stacked p img home T slots [] below (f :: callers) c' := by
  obtain ⟨ws, rest, view, back, hws, hsegment, hwaiting⟩ := h
  obtain ⟨args, below, ws₁, words, rfl, hwords, hoperands, hsegment⟩ := hsegment.take
  change ws = ws₁ ++ words at hwords
  subst hwords
  have hargs : args.length = T.params := by
    rw [hoperands.length_eq.1, List.length_reverse]
    rfl
  refine ⟨args, below, rfl, hargs, ?_⟩
  exact Stacked.entry ⟨above (c.registers .rsp) ws₁.length, words, c.registers .rbp⟩ hws
    hoperands rfl rfl (.caller hlabel hbody hat hplaced hkinds hdead hsegment hwaiting) hroom

/-! ## Leaving a function -/

/-- Without operands on the stack, the frame pointer leads to what a return needs: the frame pointer
of the caller, the place that it goes on with, and the arguments. -/
theorem Stacked.leave {slots : Table Int64} (h : Stacked p img home S slots [] stack callers c) :
    ∃ view back args, Waiting p img sig comments home S.signature.result S.params callers stack view
        back ∧ args.length = S.params ∧
      (c.registers .rsp).toNat ≤ (c.registers .rbp).toNat ∧
      view.start = above (c.registers .rbp) (args.length + 2) ∧
      ∀ c' : Core, c'.memory = c.memory → c'.registers .rsp = c.registers .rbp →
        c'.Holds (view.frame :: back :: (args ++ view.words)) := by
  obtain ⟨ws, below, view, back, hws, hsegment, hwaiting⟩ := h
  obtain ⟨vs, ws', frame, rfl, hwords, hoperands, hframe, hpointer, hend⟩ := hsegment.split
  cases hoperands
  change ws = frame ++ view.words at hwords
  change c.registers .rbp = above (c.registers .rsp) (0 + (S.slots - S.params)) at hpointer
  rw [Nat.zero_add] at hpointer
  have hparams := S.params_le
  have hlength := hframe.length
  obtain ⟨hlt, hlink⟩ := List.getElem?_eq_some_iff.1 hframe.link
  obtain ⟨hlt', hback⟩ := List.getElem?_eq_some_iff.1 hframe.back
  -- The words of the other slots lie below the frame pointer, all others from there on.
  have hsplit : frame = frame.take (S.slots - S.params) ++ (view.frame :: back ::
      frame.drop (S.slots - S.params + 2)) := by
    conv_lhs => rw [← List.take_append_drop (S.slots - S.params) frame,
      List.drop_eq_getElem_cons hlt, hlink, List.drop_eq_getElem_cons hlt', hback]
  refine ⟨view, back, frame.drop (S.slots - S.params + 2), hwaiting, ?_, ?_, ?_,
    fun c' hmemory hrsp => ?_⟩
  · rw [List.length_drop]
    omega
  · have hfits := hws.fits
    rw [hwords, List.length_append] at hfits
    rw [hpointer, toNat_above (by omega)]
    exact Nat.le_add_right ..
  · rw [hend, hpointer, above_above, List.length_drop]
    change above (c.registers .rsp) (0 + frame.length) = _
    congr 1
    omega
  · have htake : (frame.take (S.slots - S.params)).length = S.slots - S.params := by
      rw [List.length_take]
      omega
    rw [hwords, hsplit, List.append_assoc] at hws
    exact hws.release hmemory (by rw [hrsp, hpointer, htake])

/-- A return fetches the result, drops the frame and goes back to the caller. -/
theorem Stacked.reaches_back {slots : Table Int64} (h : Stacked p img home S slots [] stack callers c) :
    ∃ view back args c', Waiting p img sig comments home S.signature.result S.params callers stack view
        back ∧ args.length = S.params ∧
      img.Reaches ⟨img.address (S.bodyStart + S.text.length), c⟩ ⟨back, c'⟩ ∧
      c'.registers .rax =
        c.memory.read (c.registers .rbp + (slotOffset S.params S.body.result).toBitVec) ∧
      c'.registers .rbp = view.frame ∧ view.start = above (c'.registers .rsp) args.length ∧
      c'.Holds (args ++ view.words) ∧ (c.registers .rsp).toNat ≤ (c'.registers .rsp).toNat := by
  obtain ⟨view, back, args, hwaiting, hargs, hle, hstart, hholds⟩ := h.leave
  let result := c.memory.read (c.registers .rbp + (slotOffset S.params S.body.result).toBitVec)
  let c₁ := c.set .rax result
  let c₂ := c₁.set .rsp (c₁.registers .rbp)
  have hrsp₂ : c₂.registers .rsp = c.registers .rbp := by
    rw [Core.registers_set_self]
    exact Core.registers_set_of_ne (by decide)
  have hc₂ : c₂.Holds (view.frame :: back :: (args ++ view.words)) := hholds c₂ rfl hrsp₂
  have hc₃ : (c₂.drop.set .rbp view.frame).Holds (back :: (args ++ view.words)) :=
    hc₂.drop.set_of_ne (by decide)
  have hfetch : img.effect? c (.mov (.register .rax) (.frame (slotOffset S.params S.body.result))) =
      some c₁ := rfl
  have hdrop : img.effect? c₁ (.mov (.register .rsp) (.register .rbp)) = some c₂ := rfl
  have heffects : img.Effects [.mov (.register .rax)
      (.frame (slotOffset S.params S.body.result)), .mov (.register .rsp) (.register .rbp),
      .pop .rbp] c (c₂.drop.set .rbp view.frame) :=
    .cons hfetch (.cons hdrop (.single (Image.effect?_pop hc₂ .rbp)))
  have hclosing := S.placed_closing
  have hreaches := heffects.reaches_ret (i := S.bodyStart + S.text.length + 1) hclosing.tail
  rw [img.weightless _ _ hclosing.head rfl, hc₃.top_eq] at hreaches
  have hrsp : (c₂.drop.set .rbp view.frame).drop.registers .rsp = above (c.registers .rbp) 2 := by
    rw [Core.registers_drop_rsp, Core.registers_set_of_ne (by decide), Core.registers_drop_rsp, hrsp₂]
    exact above_above (n := 1) (k := 1)
  refine ⟨view, back, args, _, hwaiting, hargs, hreaches, ?_, ?_, ?_, hc₃.drop, ?_⟩
  · rw [Core.registers_drop_of_ne (by decide), Core.registers_set_of_ne (by decide),
      Core.registers_drop_of_ne (by decide), Core.registers_set_of_ne (by decide),
      Core.registers_set_self]
  · rw [Core.registers_drop_of_ne (by decide), Core.registers_set_self]
  · rw [hstart, hrsp, above_above, Nat.add_comm]
  · have hfits := hc₂.fits
    rw [hrsp₂] at hfits
    simp only [List.length_cons] at hfits
    rw [hrsp, toNat_above (by omega)]
    omega

end WordLang.Assembly
