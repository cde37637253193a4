import WordLang.Proofs.Assembly.Processor

/-!
# The stack of the processor

The part of memory from the stack pointer up to a fixed address is a list of words, the top of the
stack first. Pushing and popping change the list at its front; storing at an address within it
changes one of its words; and where the stack pointer is moved, words enter or leave the list.

## Main definitions

* `Assembly.above`: the address that is a number of words above another one
* `Assembly.Memory.Holds`: the words from an address on
* `Assembly.Core.Holds`: the words from the stack pointer on
* `Assembly.Core.pushAll`: pushing words one after the other

## Main results

* `Assembly.Memory.Holds.append`, `Assembly.Memory.Holds.set`: lists of words, and storing in them
* `Assembly.Core.Holds.push`, `Assembly.Core.Holds.drop`: pushing and popping
* `Assembly.Core.Holds.reserve`, `Assembly.Core.Holds.release`: moving the stack pointer
-/

namespace WordLang.Assembly

/-! ## Addresses -/

def above (a : Word) (n : Nat) : Word := a + BitVec.ofNat 64 (8 * n)

section

variable {a b w : Word} {n k : Nat}

@[simp] theorem above_zero : above a 0 = a := BitVec.add_zero a

theorem above_one : above a 1 = a + 8 := rfl

theorem above_above : above (above a n) k = above a (n + k) := by
  rw [above, above, above, BitVec.add_assoc, Nat.mul_add, BitVec.ofNat_add]

theorem toNat_above (h : a.toNat + 8 * n < 2 ^ 64) : (above a n).toNat = a.toNat + 8 * n := by
  rw [above, BitVec.toNat_add, BitVec.toNat_ofNat]
  omega

theorem toNat_above_le : (above a n).toNat ≤ a.toNat + 8 * n := by
  rw [above, BitVec.toNat_add, BitVec.toNat_ofNat]
  exact (Nat.mod_le ..).trans (Nat.add_le_add_left (Nat.mod_le ..) _)

theorem toNat_sub_words (h : 8 * n ≤ a.toNat) :
    (a - BitVec.ofNat 64 (8 * n)).toNat = a.toNat - 8 * n := by
  rw [BitVec.toNat_sub, BitVec.toNat_ofNat]
  omega

theorem above_sub_words : above (a - BitVec.ofNat 64 (8 * n)) n = a := BitVec.sub_add_cancel ..

/-! ## Words in memory -/

/-- The words from an address on, which do not reach the end of the memory. -/
structure Memory.Holds (m : Memory) (a : Word) (ws : List Word) : Prop where
  fits : a.toNat + 8 * ws.length < 2 ^ 64
  read : ∀ i w, ws[i]? = some w → m.read (above a i) = w

namespace Memory.Holds

variable {m : Memory} {ws ws' : List Word} {i : Nat}

theorem append (h : m.Holds a ws) (h' : m.Holds (above a ws.length) ws') : m.Holds a (ws ++ ws') where
  fits := by
    have hfits := h'.fits
    rw [toNat_above h.fits] at hfits
    rw [List.length_append]
    omega
  read i w hi := by
    by_cases hlt : i < ws.length
    · rw [List.getElem?_append_left hlt] at hi
      exact h.read i w hi
    · rw [List.getElem?_append_right (Nat.le_of_not_lt hlt)] at hi
      have hread := h'.read _ w hi
      rwa [above_above, Nat.add_sub_cancel' (Nat.le_of_not_lt hlt)] at hread

theorem left (h : m.Holds a (ws ++ ws')) : m.Holds a ws where
  fits := by
    have hfits := h.fits
    rw [List.length_append] at hfits
    omega
  read i w hi :=
    h.read i w (by rwa [List.getElem?_append_left (List.getElem?_eq_some_iff.1 hi).1])

theorem right (h : m.Holds a (ws ++ ws')) : m.Holds (above a ws.length) ws' where
  fits := by
    have hfits := h.fits
    rw [List.length_append] at hfits
    rw [toNat_above h.left.fits]
    omega
  read i w hi := by
    rw [above_above]
    refine h.read _ w ?_
    rwa [List.getElem?_append_right (Nat.le_add_right ..), Nat.add_sub_cancel_left]

theorem cons (hread : m.read a = w) (hfits : a.toNat + 8 < 2 ^ 64) (h : m.Holds (above a 1) ws) :
    m.Holds a (w :: ws) := by
  change m.Holds a ([w] ++ ws)
  refine append ⟨hfits, fun i v hi => ?_⟩ h
  obtain ⟨rfl, rfl⟩ : i = 0 ∧ w = v := by
    obtain ⟨hlt, rfl⟩ := List.getElem?_eq_some_iff.1 hi
    obtain rfl : i = 0 := Nat.lt_one_iff.1 hlt
    exact ⟨rfl, rfl⟩
  rwa [above_zero]

theorem head (h : m.Holds a (w :: ws)) : m.read a = w := by
  have hread := h.read 0 w rfl
  rwa [above_zero] at hread

theorem tail (h : m.Holds a (w :: ws)) : m.Holds (above a 1) ws := by
  change m.Holds a ([w] ++ ws) at h
  exact h.right

theorem write_below (h : m.Holds a ws) (hb : b.toNat + 8 ≤ a.toNat) : (m.write b w).Holds a ws where
  fits := h.fits
  read i v hi := by
    have hlt := (List.getElem?_eq_some_iff.1 hi).1
    have hfits := h.fits
    have hi' : (above a i).toNat = a.toNat + 8 * i := toNat_above (by omega)
    rw [read_write_of_apart (by omega) (by omega) (by omega)]
    exact h.read i v hi

/-- Storing at the place of a word changes that word only. -/
theorem set (h : m.Holds a ws) (hi : i < ws.length) (w : Word) :
    (m.write (above a i) w).Holds a (ws.set i w) where
  fits := by
    rw [List.length_set]
    exact h.fits
  read j v hj := by
    have hfits := h.fits
    have hi' : (above a i).toNat = a.toNat + 8 * i := toNat_above (by omega)
    by_cases heq : i = j
    · subst heq
      rw [List.getElem?_set_self hi] at hj
      cases hj
      exact read_write
    · rw [List.getElem?_set_ne heq] at hj
      have hlt := (List.getElem?_eq_some_iff.1 hj).1
      have hj' : (above a j).toNat = a.toNat + 8 * j := toNat_above (by omega)
      rw [read_write_of_apart (by omega) (by omega) (by omega)]
      exact h.read j v hj

end Memory.Holds

theorem Memory.exists_holds (m : Memory) (h : a.toNat + 8 * n < 2 ^ 64) :
    ∃ ws : List Word, ws.length = n ∧ m.Holds a ws := by
  refine ⟨(List.range n).map fun i => m.read (above a i), by simp, by simpa using h, ?_⟩
  intro i w hi
  obtain ⟨hlt, rfl⟩ := List.getElem?_eq_some_iff.1 hi
  simp

end

/-! ## Registers -/

namespace Core

variable {c : Core} {ws ws' : List Word} {w : Word} {q r : Register} {a : Word} {i n : Nat}

@[simp] theorem registers_set_self : (c.set r w).registers r = w := Function.update_self ..

theorem registers_set_of_ne (h : q ≠ r) : (c.set r w).registers q = c.registers q :=
  Function.update_of_ne h ..

@[simp] theorem memory_set : (c.set r w).memory = c.memory := rfl

@[simp] theorem registers_calculate_self : (c.calculate r w).registers r = w :=
  Function.update_self ..

theorem registers_calculate_of_ne (h : q ≠ r) : (c.calculate r w).registers q = c.registers q :=
  Function.update_of_ne h ..

@[simp] theorem registers_store : (c.store a w).registers = c.registers := rfl

@[simp] theorem registers_push_rsp : (c.push w).registers .rsp = c.registers .rsp - 8 := by
  rw [push, registers_store, registers_set_self]

theorem toNat_rsp_push (h : 8 ≤ (c.registers .rsp).toNat) :
    ((c.push w).registers .rsp).toNat = (c.registers .rsp).toNat - 8 := by
  rw [registers_push_rsp]
  exact toNat_sub_words (n := 1) h

theorem registers_push_of_ne (h : q ≠ .rsp) : (c.push w).registers q = c.registers q :=
  Function.update_of_ne h ..

@[simp] theorem registers_drop_rsp : c.drop.registers .rsp = c.registers .rsp + 8 :=
  registers_set_self

theorem registers_drop_of_ne (h : q ≠ .rsp) : c.drop.registers q = c.registers q :=
  Function.update_of_ne h ..

/-! ## The stack -/

def Holds (c : Core) (ws : List Word) : Prop := c.memory.Holds (c.registers .rsp) ws

namespace Holds

/-- The words on the stack depend on the memory and the stack pointer only. -/
theorem of_eq {c' : Core} (h : c.Holds ws) (hmemory : c'.memory = c.memory)
    (hrsp : c'.registers .rsp = c.registers .rsp) : c'.Holds ws := by
  rw [Holds, hmemory, hrsp]
  exact h

theorem set_of_ne (h : c.Holds ws) (hr : r ≠ .rsp) : (c.set r w).Holds ws :=
  h.of_eq rfl (registers_set_of_ne hr.symm)

theorem calculate_of_ne (h : c.Holds ws) (hr : r ≠ .rsp) : (c.calculate r w).Holds ws :=
  h.of_eq rfl (registers_calculate_of_ne hr.symm)

theorem push (h : c.Holds ws) (hroom : 8 ≤ (c.registers .rsp).toNat) : (c.push w).Holds (w :: ws) := by
  have hback : above (c.registers .rsp - 8) 1 = c.registers .rsp := by
    rw [above_one, BitVec.sub_add_cancel]
  have hnat : (c.registers .rsp - 8).toNat = (c.registers .rsp).toNat - 8 := by
    have hword : (8 : Word) = BitVec.ofNat 64 (8 * 1) := rfl
    rw [hword]
    exact toNat_sub_words hroom
  have hlt := (c.registers .rsp).isLt
  rw [Holds, registers_push_rsp]
  refine .cons Memory.read_write (by omega) ?_
  rw [hback]
  exact Memory.Holds.write_below h (by omega)

theorem top_eq (h : c.Holds (w :: ws)) : c.top = w := h.head

theorem drop (h : c.Holds (w :: ws)) : c.drop.Holds ws := by
  rw [Holds, registers_drop_rsp, ← above_one]
  exact h.tail

theorem store (h : c.Holds ws) (hi : i < ws.length) (ha : a = above (c.registers .rsp) i) (w : Word) :
    (c.store a w).Holds (ws.set i w) := by
  rw [ha]
  exact Memory.Holds.set h hi w

/-- Moving the stack pointer down takes in words with whatever was there. -/
theorem reserve (h : c.Holds ws) (hroom : 8 * n ≤ (c.registers .rsp).toNat) :
    ∃ junk : List Word, junk.length = n ∧
      (c.calculate .rsp (c.registers .rsp - BitVec.ofNat 64 (8 * n))).Holds (junk ++ ws) := by
  have hnat := toNat_sub_words hroom
  have hfits := h.fits
  obtain ⟨junk, rfl, hjunk⟩ := c.memory.exists_holds (n := n)
    (a := c.registers .rsp - BitVec.ofNat 64 (8 * n)) (by omega)
  refine ⟨junk, rfl, ?_⟩
  rw [Holds, registers_calculate_self]
  refine hjunk.append ?_
  rw [above_sub_words]
  exact h

/-- Moving the stack pointer up drops words. -/
theorem release (h : c.Holds (ws ++ ws')) {c' : Core} (hmemory : c'.memory = c.memory)
    (hrsp : c'.registers .rsp = above (c.registers .rsp) ws.length) : c'.Holds ws' := by
  rw [Holds, hmemory, hrsp]
  exact Memory.Holds.right h

end Holds

/-- A state with words pushed one after the other. -/
def pushAll (c : Core) (ws : List Word) : Core := ws.foldl push c

@[simp] theorem pushAll_cons : c.pushAll (w :: ws) = (c.push w).pushAll ws := rfl

variable (c ws) in
theorem registers_pushAll_of_ne (h : q ≠ .rsp) : (c.pushAll ws).registers q = c.registers q := by
  induction ws generalizing c with
  | nil => rfl
  | cons w ws ih => rw [pushAll_cons, ih, registers_push_of_ne h]

theorem toNat_rsp_pushAll (h : 8 * ws.length ≤ (c.registers .rsp).toNat) :
    ((c.pushAll ws).registers .rsp).toNat = (c.registers .rsp).toNat - 8 * ws.length := by
  induction ws generalizing c with
  | nil => rfl
  | cons w ws ih =>
    rw [List.length_cons] at h ⊢
    have hpush := toNat_rsp_push (c := c) (w := w) (by omega)
    rw [pushAll_cons, ih (by omega)]
    omega

/-- The words that are pushed are on the stack, the last one at the top. -/
theorem Holds.pushAll (h : c.Holds ws) (hroom : 8 * ws'.length ≤ (c.registers .rsp).toNat) :
    (c.pushAll ws').Holds (ws'.reverse ++ ws) := by
  induction ws' generalizing c ws with
  | nil => exact h
  | cons w ws' ih =>
    rw [List.length_cons] at hroom
    rw [pushAll_cons, List.reverse_cons, List.append_assoc]
    refine ih (h.push (by omega)) ?_
    rw [toNat_rsp_push (by omega)]
    omega

end Core

theorem Image.effect?_pop {lines : List Line} {img : Image lines} {c : Core} {w : Word}
    {ws : List Word} (hc : c.Holds (w :: ws)) (r : Register) :
    img.effect? c (.pop r) = some (c.drop.set r w) := by
  rw [effect?, hc.top_eq]

end WordLang.Assembly
