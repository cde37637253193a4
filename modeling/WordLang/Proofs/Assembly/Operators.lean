import WordLang.Proofs.Assembly.Stack
import WordLang.Proofs.Assembly.Text

/-!
# Operators on the processor

The instructions of an operator leave its value in the register of the first operand. Comparisons
read the flags of a difference, quotients and remainders come from the routines of the text, which
take their operands from the stack and leave `rax` changed; everything else that may be in use is
left as it was.

## Main definitions

* `Assembly.Condition.compares`: what a condition says about two compared numbers
* `Assembly.Image.Leaves`: what lines that compute a word do
* `Assembly.Image.Picks`: the instructions with which a routine chooses its result

## Main results

* `Assembly.holds_ofComparison`: the flags after a comparison
* `Assembly.divide?_eq_some`: the quotient and the remainder of two words
* `Assembly.Image.reaches_binary`: what the instructions of an operator do
-/

namespace WordLang.Assembly

/-! ## Comparisons -/

/-- The difference of two words is negative, or does not fit, but not both, if the first is less. -/
theorem msb_bne_ssubOverflow (a b : Word) :
    ((a - b).msb != BitVec.ssubOverflow a b) = decide (a.toInt < b.toInt) := by
  have ha := a.toInt_lt
  have ha' := a.le_toInt
  have hb := b.toInt_lt
  have hb' := b.le_toInt
  rw [BitVec.msb_eq_toInt, BitVec.toInt_sub, BitVec.ssubOverflow]
  grind

theorem sub_beq_zero (a b : Word) : (a - b == 0) = decide (a.toInt = b.toInt) := by
  have hsub : a - b = 0 ↔ a.toInt = b.toInt := by
    rw [BitVec.toInt_inj]
    exact ⟨fun h => by bv_omega, fun h => by bv_omega⟩
  rw [Bool.eq_iff_iff, beq_iff_eq, decide_eq_true_iff, hsub]

def Condition.compares (lhs rhs : Int64) : Condition → Bool
  | .less => lhs < rhs
  | .greater => rhs < lhs
  | .lessOrEqual => lhs ≤ rhs
  | .greaterOrEqual => rhs ≤ lhs
  | .equal => lhs = rhs
  | .notEqual => lhs ≠ rhs

/-- The flags after a comparison show how the numbers compare. -/
theorem holds_ofComparison (condition : Condition) (lhs rhs : Int64) :
    condition.holds (.ofComparison lhs.toBitVec rhs.toBitVec) = condition.compares lhs rhs := by
  have hless := msb_bne_ssubOverflow lhs.toBitVec rhs.toBitVec
  have hequal := sub_beq_zero lhs.toBitVec rhs.toBitVec
  change _ = decide (lhs.toInt < rhs.toInt) at hless
  change _ = decide (lhs.toInt = rhs.toInt) at hequal
  have hnot : ∀ x y : Bool, (x == y) = !(x != y) := by decide
  rw [Bool.eq_iff_iff]
  cases condition <;>
    simp only [Condition.holds, Condition.compares, Flags.ofComparison, hnot, hless, hequal,
      Int64.lt_iff_toInt_lt, Int64.le_iff_toInt_le, ne_eq, ← Int64.toInt_inj, Bool.and_eq_true,
      Bool.or_eq_true, Bool.not_eq_true', decide_eq_true_eq, decide_eq_false_iff_not] <;>
    omega

theorem setWidth_lowByte (w : Word) (b : Bool) :
    (((w &&& ~~~255) ||| if b then 1 else 0).setWidth 8).setWidth 64 =
      (BinaryOp.truth b).toBitVec := by
  have hlow : (w &&& ~~~255).setWidth 8 = 0 := by
    rw [BitVec.setWidth_and]
    simp
  rw [BitVec.setWidth_or, hlow]
  cases b <;> rfl

/-! ## Quotients -/

theorem toInt_signWord (w : Word) :
    (if w.msb then (-1 : Word) else 0).toInt * 2 ^ 64 + w.toNat = w.toInt := by
  rw [BitVec.toInt_eq_msb_cond w]
  cases w.msb with
  | true =>
    have hneg : (-1 : Word).toInt = -1 := by decide
    simp only [if_true, hneg]
    omega
  | false =>
    have hzero : (0 : Word).toInt = 0 := by decide
    simp only [Bool.false_eq_true, if_false, hzero]
    omega

theorem divide?_eq_some {lhs rhs : Int64} (h : BinaryOp.divides lhs rhs = true) :
    divide? (if lhs.toBitVec.msb then -1 else 0) lhs.toBitVec rhs.toBitVec =
      some ((lhs / rhs).toBitVec, (lhs % rhs).toBitVec) := by
  simp only [BinaryOp.divides, ne_eq, Bool.and_eq_true, Bool.not_eq_true', decide_eq_true_eq,
    Bool.and_eq_false_iff, decide_eq_false_iff_not] at h
  obtain ⟨hzero, hfits⟩ := h
  have hquotient : (lhs / rhs).toInt = lhs.toInt.tdiv rhs.toInt :=
    hfits.elim (Int64.toInt_div_of_ne_left lhs rhs) (Int64.toInt_div_of_ne_right lhs rhs)
  have hdivisor : rhs.toBitVec ≠ 0 := fun h => hzero (Int64.toBitVec_inj.1 h)
  have hlow := (lhs / rhs).le_toInt
  have hhigh := (lhs / rhs).toInt_lt
  rw [hquotient] at hlow hhigh
  simp only [divide?, toInt_signWord]
  change (if _ ∧ -2 ^ 63 ≤ lhs.toInt.tdiv rhs.toInt ∧ lhs.toInt.tdiv rhs.toInt < 2 ^ 63 then
    some (BitVec.ofInt 64 (lhs.toInt.tdiv rhs.toInt), BitVec.ofInt 64 (lhs.toInt.tmod rhs.toInt))
    else none) = _
  rw [if_pos ⟨hdivisor, hlow, hhigh⟩, ← Int64.toBitVec_ofInt, ← Int64.toBitVec_ofInt,
    Int64.ofInt_tdiv lhs.minValue_le_toInt lhs.toInt_le rhs.minValue_le_toInt rhs.toInt_le,
    Int64.ofInt_tmod lhs.minValue_le_toInt lhs.toInt_le rhs.minValue_le_toInt rhs.toInt_le,
    Int64.ofInt_toInt, Int64.ofInt_toInt]

/-! ## Routines -/

namespace Image

variable {lines : List Line} {img : Image lines} {c : Core} {i : Nat} {ws : List Word}
  {lhs rhs : Int64} {result : List Instr} {pick : Word × Word → Word}

variable (img) in
/-- The `n` lines from the position `i` on leave `w` in the register `d`. The other registers keep what
they hold, `rax` only if it is `kept`, and so does the stack. -/
def Leaves (c : Core) (i n : Nat) (d : Register) (w : Word) (kept : Bool) (ws : List Word) : Prop :=
  ∃ c', img.Reaches ⟨img.address i, c⟩ ⟨img.address (i + n), c'⟩ ∧ c'.registers d = w ∧
    (∀ q, q ≠ d → (q = .rax → kept = true) → c'.registers q = c.registers q) ∧ c'.Holds ws

variable (img) in
/-- Instructions that choose the result of a routine, from the quotient in `rax` and the remainder in
`rdx`. -/
def Picks (result : List Instr) (pick : Word × Word → Word) : Prop :=
  ∀ c : Core, ∃ c', img.Effects result c c' ∧
    c'.registers .rax = pick (c.registers .rax, c.registers .rdx) ∧
    (∀ q ≠ .rax, c'.registers q = c.registers q) ∧ c'.memory = c.memory

theorem picks_quotient : img.Picks [] Prod.fst := fun c =>
  ⟨c, .nil c, rfl, fun _ _ => rfl, rfl⟩

theorem picks_remainder : img.Picks [.mov (.register .rax) (.register .rdx)] Prod.snd := fun c =>
  ⟨c.set .rax (c.registers .rdx), .single rfl, Core.registers_set_self,
    fun _ hq => Core.registers_set_of_ne hq, rfl⟩

variable (img) in
/-- The first instructions of a routine divide the two words that lie below three others. -/
theorem effects_divide {x y z : Word} (hc : c.Holds (x :: y :: z :: rhs.toBitVec :: lhs.toBitVec :: ws))
    (hdivides : BinaryOp.divides lhs rhs = true) :
    ∃ c', img.Effects [.mov (.register .rax) (.stack 32), .mov (.register .rcx) (.stack 24), .cqo,
        .idiv .rcx] c c' ∧
      c'.registers .rax = (lhs / rhs).toBitVec ∧ c'.registers .rdx = (lhs % rhs).toBitVec ∧
      (∀ q, q ≠ .rax → q ≠ .rdx → q ≠ .rcx → c'.registers q = c.registers q) ∧
      c'.memory = c.memory := by
  have hlhs : c.memory.read (c.registers .rsp + BitVec.ofNat 64 32) = lhs.toBitVec := hc.read 4 _ rfl
  have hrhs : c.memory.read (c.registers .rsp + BitVec.ofNat 64 24) = rhs.toBitVec := hc.read 3 _ rfl
  obtain ⟨c₁, hc₁⟩ : ∃ c₁, c₁ = c.set .rax lhs.toBitVec := ⟨_, rfl⟩
  obtain ⟨c₂, hc₂⟩ : ∃ c₂, c₂ = c₁.set .rcx rhs.toBitVec := ⟨_, rfl⟩
  obtain ⟨c₃, hc₃⟩ : ∃ c₃, c₃ = c₂.set .rdx (if lhs.toBitVec.msb then -1 else 0) := ⟨_, rfl⟩
  have hfirst : img.effect? c (.mov (.register .rax) (.stack 32)) = some c₁ := by
    rw [effect?, value, hlhs, hc₁]
  have hrsp : c₁.registers .rsp = c.registers .rsp := by
    rw [hc₁, Core.registers_set_of_ne (by decide)]
  have hsecond : img.effect? c₁ (.mov (.register .rcx) (.stack 24)) = some c₂ := by
    rw [effect?, value, hrsp, hc₂, hc₁, Core.memory_set, hrhs]
  have hrax : c₂.registers .rax = lhs.toBitVec := by
    rw [hc₂, Core.registers_set_of_ne (by decide), hc₁, Core.registers_set_self]
  have hthird : img.effect? c₂ .cqo = some c₃ := by rw [effect?, hrax, hc₃]
  have hrcx : c₃.registers .rcx = rhs.toBitVec := by
    rw [hc₃, Core.registers_set_of_ne (by decide), hc₂, Core.registers_set_self]
  have hdivide : img.effect? c₃ (.idiv .rcx) =
      some ((c₃.set .rax (lhs / rhs).toBitVec).calculate .rdx (lhs % rhs).toBitVec) := by
    rw [effect?, hrcx, hc₃, Core.registers_set_self, Core.registers_set_of_ne (by decide), hrax,
      divide?_eq_some hdivides, Option.map_some]
  refine ⟨(c₃.set .rax (lhs / rhs).toBitVec).calculate .rdx (lhs % rhs).toBitVec,
    .cons hfirst (.cons hsecond (.cons hthird (.single hdivide))), ?_,
    Core.registers_calculate_self, fun q hrax hrdx hrcx => ?_, by rw [hc₃, hc₂, hc₁]; rfl⟩
  · rw [Core.registers_calculate_of_ne (by decide), Core.registers_set_self]
  · rw [Core.registers_calculate_of_ne hrdx, Core.registers_set_of_ne hrax, hc₃,
      Core.registers_set_of_ne hrdx, hc₂, Core.registers_set_of_ne hrcx, hc₁,
      Core.registers_set_of_ne hrax]

theorem reaches_routine {ra : Word} (hresult : img.Picks result pick)
    (h : Placed lines i (code ([.push .rdx, .push .rcx, .mov (.register .rax) (.stack 32),
      .mov (.register .rcx) (.stack 24), .cqo, .idiv .rcx] ++ result ++ [.pop .rcx, .pop .rdx, .ret])))
    (hc : c.Holds (ra :: rhs.toBitVec :: lhs.toBitVec :: ws))
    (hroom : 16 ≤ (c.registers .rsp).toNat) (hdivides : BinaryOp.divides lhs rhs = true) :
    ∃ c', img.Reaches ⟨img.address i, c⟩ ⟨ra, c'⟩ ∧
      c'.registers .rax = pick ((lhs / rhs).toBitVec, (lhs % rhs).toBitVec) ∧
      (∀ q, q ≠ .rax → q ≠ .rsp → c'.registers q = c.registers q) ∧
      c'.registers .rsp = c.registers .rsp + 8 ∧
      c'.Holds (rhs.toBitVec :: lhs.toBitVec :: ws) := by
  -- The two registers that the routine needs are saved on the stack.
  have hroom₁ := Core.toNat_rsp_push (c := c) (w := c.registers .rdx) (by omega)
  have hc₁ := hc.push (w := c.registers .rdx) (by omega)
  have hc₂ := hc₁.push (w := c.registers .rcx) (by omega)
  obtain ⟨c₃, hdivide, hrax, hrdx, hothers, hmemory⟩ := img.effects_divide hc₂ hdivides
  obtain ⟨c₄, hpick, hrax', hothers', hmemory'⟩ := hresult c₃
  -- Afterwards they get back what they held, and only `rax` has changed.
  have hkept : ∀ q, q ≠ .rax → q ≠ .rdx → q ≠ .rcx → c₄.registers q =
      ((c.push (c.registers .rdx)).push (c.registers .rcx)).registers q := fun q hq hq' hq'' => by
    rw [hothers' q hq, hothers q hq hq' hq'']
  have hrsp := hkept .rsp (by decide) (by decide) (by decide)
  have hc₄ := hc₂.of_eq (hmemory'.trans hmemory) hrsp
  have hc₅ := hc₄.drop.set_of_ne (r := .rcx) (w := c.registers .rcx) (by decide)
  have hc₆ := hc₅.drop.set_of_ne (r := .rdx) (w := c.registers .rdx) (by decide)
  have hsave : img.Effects [.push .rdx, .push .rcx] c
      ((c.push (c.registers .rdx)).push (c.registers .rcx)) := .cons rfl (.single rfl)
  have heffects := (hsave.append hdivide).append (hpick.append
    (.cons (effect?_pop hc₄ .rcx) (.single (effect?_pop hc₅ .rdx))))
  have hreaches := heffects.reaches_ret (i := i) (by simpa using h)
  rw [hc₆.top_eq] at hreaches
  refine ⟨_, hreaches, ?_, fun q hq hq' => ?_, ?_, hc₆.drop⟩
  · rw [Core.registers_drop_of_ne (by decide), Core.registers_set_of_ne (by decide),
      Core.registers_drop_of_ne (by decide), Core.registers_set_of_ne (by decide),
      Core.registers_drop_of_ne (by decide), hrax', hrax, hrdx]
  · rw [Core.registers_drop_of_ne hq']
    by_cases hqrdx : q = .rdx
    · rw [hqrdx, Core.registers_set_self]
    · rw [Core.registers_set_of_ne hqrdx, Core.registers_drop_of_ne hq']
      by_cases hqrcx : q = .rcx
      · rw [hqrcx, Core.registers_set_self]
      · rw [Core.registers_set_of_ne hqrcx, Core.registers_drop_of_ne hq', hkept q hq hqrdx hqrcx,
          Core.registers_push_of_ne hq', Core.registers_push_of_ne hq']
  · rw [Core.registers_drop_rsp, Core.registers_set_of_ne (by decide), Core.registers_drop_rsp,
      Core.registers_set_of_ne (by decide), Core.registers_drop_rsp, hrsp, Core.registers_push_rsp,
      Core.registers_push_rsp, BitVec.sub_add_cancel, BitVec.sub_add_cancel]

variable {start : Nat} {name : String} {d s : Register} {saveRax : Bool}

section Division

variable (hsymbols : (definedSymbols lines).Nodup) (hresult : img.Picks result pick)
  (hroutine : Placed lines start (divisionRoutine name result))
  (hdivides : BinaryOp.divides lhs rhs = true)
  (hd : c.registers d = lhs.toBitVec) (hs : c.registers s = rhs.toBitVec) (hs' : s ≠ .rsp)
include hsymbols hresult hroutine hdivides hd hs hs'

theorem reaches_call_routine
    (h : Placed lines i (code [.push d, .push s, .call (.symbol name), .add .rsp (.immediate 16)]))
    (hc : c.Holds ws) (hroom : 40 ≤ (c.registers .rsp).toNat) :
    img.Leaves c i 4 .rax (pick ((lhs / rhs).toBitVec, (lhs % rhs).toBitVec)) true ws := by
  have hroom₁ := Core.toNat_rsp_push (c := c) (w := lhs.toBitVec) (by omega)
  have hroom₂ := Core.toNat_rsp_push (c := c.push lhs.toBitVec) (w := rhs.toBitVec) (by omega)
  have hroom₃ := Core.toNat_rsp_push (c := (c.push lhs.toBitVec).push rhs.toBitVec)
    (w := img.address (i + 3)) (by omega)
  have hc₂ := (hc.push (w := lhs.toBitVec) (by omega)).push (w := rhs.toBitVec) (by omega)
  have hc₃ := hc₂.push (w := img.address (i + 3)) (by omega)
  have hpushes : img.Effects [.push d, .push s] c ((c.push lhs.toBitVec).push rhs.toBitVec) := by
    have hfirst : img.effect? c (.push d) = some (c.push lhs.toBitVec) := by rw [effect?, hd]
    refine .cons hfirst (.single ?_)
    rw [effect?, Core.registers_push_of_ne hs', hs]
  have hcall := img.step_call ((c.push lhs.toBitVec).push rhs.toBitVec) (h.get (j := 2) rfl)
  -- The symbol of the routine is its label, and that takes no bytes.
  have hsymbol : img.symbol name = img.address (start + 1) :=
    (img.symbol_of_placed hsymbols hroutine).trans (img.weightless _ _ hroutine.head rfl).symm
  rw [value, hsymbol] at hcall
  obtain ⟨c₄, hreaches, hrax, hothers, hrsp, hc₄⟩ := reaches_routine hresult hroutine.tail hc₃
    (by omega) hdivides
  have hadd : img.Step ⟨img.address (i + 3), c₄⟩
      ⟨img.address (i + 4), c₄.calculate .rsp (c₄.registers .rsp + 16)⟩ :=
    ⟨i + 3, _, h.get (j := 3) rfl, rfl, rfl⟩
  have hrsp₄ : c₄.registers .rsp = c.registers .rsp - 8 - 8 := by
    rw [hrsp, Core.registers_push_rsp, BitVec.sub_add_cancel, Core.registers_push_rsp,
      Core.registers_push_rsp]
  have hback : c₄.registers .rsp + 16 = c.registers .rsp := by
    rw [hrsp₄]
    bv_omega
  have hplaced : Placed lines i (code [.push d, .push s] ++ code [.call _, .add _ _]) := h
  refine ⟨_, .trans (hpushes.reaches hplaced.left) (.head hcall (hreaches.tail hadd)), ?_,
    fun q hq _ => ?_, ?_⟩
  · rw [Core.registers_calculate_of_ne (by decide), hrax]
  · by_cases hqrsp : q = .rsp
    · rw [hqrsp, Core.registers_calculate_self, hback]
    · rw [Core.registers_calculate_of_ne hqrsp, hothers q hq hqrsp, Core.registers_push_of_ne hqrsp,
        Core.registers_push_of_ne hqrsp, Core.registers_push_of_ne hqrsp]
  · change c₄.Holds ([_, _] ++ ws) at hc₄
    exact hc₄.release rfl Core.registers_calculate_self

theorem reaches_quotient (hd' : d ≠ .rsp)
    (h : Placed lines i (code ([.push d, .push s, .call (.symbol name), .add .rsp (.immediate 16)] ++
      if d ≠ .rax then [.mov (.register d) (.register .rax)] else [])))
    (hc : c.Holds ws) (hroom : 40 ≤ (c.registers .rsp).toNat) :
    img.Leaves c i (if d ≠ .rax then 5 else 4) d (pick ((lhs / rhs).toBitVec, (lhs % rhs).toBitVec))
      false ws := by
  rw [code, List.map_append] at h
  obtain ⟨c₁, hreaches, hrax, hothers, hc₁⟩ := reaches_call_routine hsymbols hresult hroutine
    hdivides hd hs hs' h.left hc hroom
  by_cases hdrax : d = .rax
  · simp only [hdrax, ne_eq, not_true_eq_false, if_false]
    exact ⟨c₁, hreaches, hrax, fun q hq _ => hothers q hq fun _ => rfl, hc₁⟩
  · simp only [hdrax, ne_eq, not_false_eq_true, if_true] at h ⊢
    have hmov : img.Effects [.mov (.register d) (.register .rax)] c₁
        (c₁.set d (c₁.registers .rax)) := .single rfl
    refine ⟨_, hreaches.trans (hmov.reaches h.right), ?_, fun q hq hq' => ?_, hc₁.set_of_ne hd'⟩
    · rw [Core.registers_set_self, hrax]
    · rw [Core.registers_set_of_ne hq, hothers q (fun h => Bool.noConfusion (hq' h)) fun _ => rfl]

/-- What the instructions of a quotient or a remainder do. -/
theorem reaches_division (hd' : d ≠ .rsp) (hsave : saveRax = true → d ≠ .rax)
    (h : Placed lines i (code (division name d s saveRax)))
    (hc : c.Holds ws) (hroom : 48 ≤ (c.registers .rsp).toNat) :
    img.Leaves c i (division name d s saveRax).length d
      (pick ((lhs / rhs).toBitVec, (lhs % rhs).toBitVec)) saveRax ws := by
  unfold division at h ⊢
  cases saveRax with
  | false =>
    simp only [Bool.false_eq_true, if_false, List.nil_append, List.append_nil] at h ⊢
    have hleaves := reaches_quotient hsymbols hresult hroutine hdivides hd hs hs' hd' h hc (by omega)
    convert hleaves using 1
    split <;> rfl
  | true =>
    have hdrax := hsave rfl
    simp only [if_true, if_pos hdrax] at h ⊢
    have hroom₁ := Core.toNat_rsp_push (c := c) (w := c.registers .rax) (by omega)
    have hc₁ := hc.push (w := c.registers .rax) (by omega)
    -- The instructions of the quotient stand between the two that save `rax`.
    change Placed lines i (code [.push .rax] ++ (code [.push d, .push s, .call (.symbol name),
      .add .rsp (.immediate 16), .mov (.register d) (.register .rax)] ++ code [.pop .rax])) at h
    have hplaced : Placed lines (i + 1) (code ([.push d, .push s, .call (.symbol name),
        .add .rsp (.immediate 16)] ++ if d ≠ .rax then [.mov (.register d) (.register .rax)] else [])) := by
      rw [if_pos hdrax]
      exact h.right.left
    obtain ⟨c₂, hreaches, hvalue, hothers, hc₂⟩ := reaches_quotient hsymbols hresult hroutine
      hdivides ((Core.registers_push_of_ne hd').trans hd) ((Core.registers_push_of_ne hs').trans hs)
      hs' hd' hplaced hc₁ (by omega)
    rw [if_pos hdrax] at hreaches
    have hpush : img.Effects [.push .rax] c (c.push (c.registers .rax)) := .single rfl
    have hpop : img.Effects [.pop .rax] c₂ (c₂.drop.set .rax (c.registers .rax)) :=
      .single (effect?_pop hc₂ .rax)
    refine ⟨_, .trans (hpush.reaches h.left) (hreaches.trans (hpop.reaches ?_)), ?_, fun q hq _ => ?_,
      hc₂.drop.set_of_ne (by decide)⟩
    · exact h.right.right
    · rw [Core.registers_set_of_ne hdrax, Core.registers_drop_of_ne hd', hvalue]
    · by_cases hqrax : q = .rax
      · rw [hqrax, Core.registers_set_self]
      · rw [Core.registers_set_of_ne hqrax]
        by_cases hqrsp : q = .rsp
        · rw [hqrsp, Core.registers_drop_rsp, hothers .rsp hd'.symm (fun h => by cases h),
            Core.registers_push_rsp, BitVec.sub_add_cancel]
        · rw [Core.registers_drop_of_ne hqrsp, hothers q hq (absurd · hqrax),
            Core.registers_push_of_ne hqrsp]

end Division

/-! ## Operators -/

theorem reaches_calculate {instr : Instr} {w : Word} (hd' : d ≠ .rsp)
    (heffect : img.effect? c instr = some (c.calculate d w)) (h : Placed lines i (code [instr]))
    (hc : c.Holds ws) : img.Leaves c i 1 d w saveRax ws :=
  ⟨_, (Effects.single heffect).reaches h, Core.registers_calculate_self,
    fun _ hq _ => Core.registers_calculate_of_ne hq, hc.calculate_of_ne hd'⟩

theorem reaches_comparison {condition : Condition} (hd : c.registers d = lhs.toBitVec)
    (hs : c.registers s = rhs.toBitVec) (hd' : d ≠ .rsp)
    (h : Placed lines i (code (comparison condition d s))) (hc : c.Holds ws) :
    img.Leaves c i 3 d (BinaryOp.truth (condition.compares lhs rhs)).toBitVec saveRax ws := by
  let flags := Flags.ofComparison lhs.toBitVec rhs.toBitVec
  let c₁ : Core := { c with flags := some flags }
  let low := (c.registers d &&& ~~~255) ||| if condition.holds flags then 1 else 0
  have hcompare : img.effect? c (.cmp d (.register s)) = some c₁ := by rw [effect?, value, hd, hs]
  have hset : img.effect? c₁ (.setLowByte condition d) = some (c₁.set d low) := rfl
  have hextend : img.effect? (c₁.set d low) (.extendLowByte d) =
      some ((c₁.set d low).set d ((low.setWidth 8).setWidth 64)) := by
    rw [effect?, Core.registers_set_self]
  have heffects := Effects.cons hcompare (.cons hset (.single hextend))
  refine ⟨_, heffects.reaches h, ?_, fun q hq _ => ?_, ?_⟩
  · rw [Core.registers_set_self, setWidth_lowByte, holds_ofComparison]
  · rw [Core.registers_set_of_ne hq, Core.registers_set_of_ne hq]
  · exact Core.Holds.set_of_ne (Core.Holds.set_of_ne (c := c₁) hc hd') hd'

theorem eval?_of_evaluate {op : BinaryOp} {v : Int64} (h : Linear.evaluate op lhs rhs = .ok v) :
    op.eval? lhs rhs = some v := by
  unfold Linear.evaluate at h
  cases heval : op.eval? lhs rhs with
  | some w =>
    simp only [heval, Except.ok.injEq] at h
    rw [h]
  | none =>
    simp only [heval] at h
    cases op <;> cases h

theorem reaches_binary {op : BinaryOp} {v : Int64} (hsymbols : (definedSymbols lines).Nodup)
    (hroutines : routines <:+: lines) (hop : Linear.evaluate op lhs rhs = .ok v)
    (hd : c.registers d = lhs.toBitVec) (hs : c.registers s = rhs.toBitVec) (hd' : d ≠ .rsp)
    (hs' : s ≠ .rsp) (hsave : saveRax = true → d ≠ .rax)
    (h : Placed lines i (code (binary op d s saveRax))) (hc : c.Holds ws)
    (hroom : 48 ≤ (c.registers .rsp).toNat) :
    img.Leaves c i (binary op d s saveRax).length d v.toBitVec saveRax ws := by
  have hvalue := eval?_of_evaluate hop
  obtain ⟨start, hplaced⟩ := exists_placed hroutines
  cases op with
  | add =>
    cases hvalue
    exact reaches_calculate hd' (by rw [effect?, value, hd, hs, Int64.toBitVec_add]) h hc
  | sub =>
    cases hvalue
    exact reaches_calculate hd' (by rw [effect?, value, hd, hs, Int64.toBitVec_sub]) h hc
  | mul =>
    cases hvalue
    exact reaches_calculate hd' (by rw [effect?, hd, hs, Int64.toBitVec_mul]) h hc
  | div =>
    simp only [BinaryOp.eval?, Option.ite_none_right_eq_some, Option.some.injEq] at hvalue
    obtain ⟨hdivides, rfl⟩ := hvalue
    exact reaches_division hsymbols picks_quotient hplaced.left hdivides hd hs hs' hd' hsave h hc hroom
  | mod =>
    simp only [BinaryOp.eval?, Option.ite_none_right_eq_some, Option.some.injEq] at hvalue
    obtain ⟨hdivides, rfl⟩ := hvalue
    exact reaches_division hsymbols picks_remainder hplaced.right hdivides hd hs hs' hd' hsave h hc
      hroom
  | _ =>
    cases hvalue
    exact reaches_comparison hd hs hd' h hc

end Image

end WordLang.Assembly
