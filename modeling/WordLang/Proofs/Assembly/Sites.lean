import WordLang.Proofs.Assembly.Stack
import WordLang.Proofs.Assembly.Text
import WordLang.Proofs.Linear.Kinds

/-!
# Functions in a text

Every body of a kinded program has its place in the text of the program. The frame of a function
holds a word for each of its slots: below the frame pointer those of the result and of the cells
that are no parameters, above it, beyond two words that are used by the call, those of the
parameters, the last one lowest. A place in the body is a position in the text together with the
machine registers that virtual registers have there.

## Main definitions

* `Assembly.slotOffset`, `Assembly.slotIndex`: the place of a slot, from the frame pointer and among
  the words of the frame
* `Assembly.Site`: a function with a body, and its place in the text
* `Assembly.Site.At`: a place in the body of a function

## Main results

* `Assembly.offset?_declarations`: the layout of the frame of a kinded body
* `Assembly.exists_site`: every body has its place
* `Assembly.Site.At.next`, `Assembly.Site.exists_at_of_seek`: going on with the next line, and at a
  label
-/

namespace WordLang.Assembly

variable {f : Linear.Function} {m : Nat}

/-! ## Frames -/

/-- The offset of a slot from the frame pointer, where slots below `params` are parameters. -/
def slotOffset (params r : Nat) : Int64 :=
  if r < params then Int64.ofNat (8 * (params - r) + 8) else -Int64.ofNat (8 * (r - params + 1))

/-- The position of a slot among the words of a frame, the lowest first. Two of them belong to no
slot: the frame pointer and the return address of the caller. -/
def slotIndex (params slots r : Nat) : Nat :=
  if r < params then slots + 1 - r else slots - 1 - r

section

variable {params slots r r' : Nat}

theorem slotIndex_lt (hr : r < slots) : slotIndex params slots r < slots + 2 := by
  unfold slotIndex
  split <;> omega

theorem slotIndex_inj (hr : r < slots) (hr' : r' < slots)
    (h : slotIndex params slots r = slotIndex params slots r') : r = r' := by
  unfold slotIndex at h
  split at h <;> split at h <;> omega

theorem add_slotOffset (hr : r < slots) (hp : params ≤ slots) (a : Word) :
    above a (slots - params) + (slotOffset params r).toBitVec = above a (slotIndex params slots r) := by
  unfold slotOffset slotIndex
  split
  · next hlt =>
    rw [Int64.toBitVec_ofNat', show 8 * (params - r) + 8 = 8 * (params - r + 1) by omega]
    change above (above a _) _ = _
    rw [above_above]
    congr 1
    omega
  · next hle =>
    have hsplit : slots - params = (slots - 1 - r) + (r - params + 1) := by omega
    rw [Int64.toBitVec_neg, Int64.toBitVec_ofNat', ← BitVec.sub_eq_add_neg, hsplit, ← above_above]
    exact BitVec.add_sub_cancel ..

end

/-! ### Layouts -/

section

variable {params slots : Nat} {code : List Linear.Line}

theorem getElem?_offsetsAbove (base : Nat) (ids : List RegisterId) (j : Nat) :
    (offsetsAbove base (ids.map fun r => (r, 8)))[j]? =
      ids[j]?.map fun r => (r, Int64.ofNat (base + 8 * (j + 1))) := by
  induction ids generalizing base j with
  | nil => rfl
  | cons r ids ih =>
    cases j with
    | zero => rfl
    | succ j =>
      rw [List.map_cons, offsetsAbove, List.getElem?_cons_succ, ih, List.getElem?_cons_succ]
      simp only [alignTo]
      congr! 4
      omega

theorem getElem?_offsetsBelow (base : Nat) (ids : List RegisterId) (j : Nat) :
    (offsetsBelow base (ids.map fun r => (r, 8)))[j]? =
      ids[j]?.map fun r => (r, -Int64.ofNat (base + 8 * (j + 1))) := by
  rw [offsetsBelow_eq, List.getElem?_map, getElem?_offsetsAbove, Option.map_map]
  rfl

theorem totalSize_map (ids : List RegisterId) :
    totalSize (ids.map fun r => (r, 8)) = 8 * ids.length := by
  induction ids with
  | nil => rfl
  | cons r ids ih =>
    rw [List.map_cons, totalSize, ih, List.length_cons, alignTo]
    omega

theorem declaresSlot_of_mem_declarations {line : Linear.Line}
    (h : line ∈ Linear.declarations params slots) : declaresSlot line = true :=
  (Linear.mem_declarations h).isSome_slot?

theorem takeWhile_declarations (hcode : ∀ line ∈ code, line.instruction.slot? = none) :
    (Linear.declarations params slots ++ code).takeWhile declaresSlot =
      Linear.declarations params slots ∧
    (Linear.declarations params slots ++ code).dropWhile declaresSlot = code := by
  have hnot : ∀ line ∈ code, declaresSlot line = false := fun line hl => by
    rw [declaresSlot, hcode line hl]
    rfl
  rw [List.takeWhile_append_of_pos fun _ => declaresSlot_of_mem_declarations,
    List.dropWhile_append_of_pos fun _ => declaresSlot_of_mem_declarations]
  cases code with
  | nil => simp
  | cons line code => simp [hnot line List.mem_cons_self]

theorem headSlots_declarations (hp : params ≤ slots)
    (hcode : ∀ line ∈ code, line.instruction.slot? = none) :
    headSlots (Linear.declarations params slots ++ code) =
      ⟨(List.range params).map fun r => (r, 8),
        (List.range' params (slots - params)).map fun r => (r, 8)⟩ := by
  -- The parameters come first, then the other slots.
  have hsplit : Linear.declarations params slots =
      ((List.range params).map fun r => ⟨[], .allocParam r 8⟩) ++
        (List.range' params (slots - params)).map fun r => ⟨[], .allocLocal r 8⟩ := by
    rw [Linear.declarations, ← Nat.add_sub_of_le hp, List.range_eq_range', ← List.range'_append_1,
      List.map_append, Nat.zero_add, Nat.add_sub_cancel_left, List.range_eq_range']
    congr 1
    · refine List.map_congr_left fun r hr => ?_
      rw [if_pos (by simpa using hr)]
      rfl
    · refine List.map_congr_left fun r hr => ?_
      rw [if_neg (by simp at hr; omega)]
      rfl
  have hparams : ∀ (ids : List RegisterId) (decls : SlotDecls),
      ids.foldl (fun decls r => decls.addParam r 8) decls =
        { decls with params := decls.params ++ ids.map fun r => (r, 8) } := by
    intro ids
    induction ids with
    | nil => simp
    | cons r ids ih =>
      intro decls
      rw [List.foldl_cons, ih]
      simp [SlotDecls.addParam]
  have hlocals : ∀ (ids : List RegisterId) (decls : SlotDecls),
      ids.foldl (fun decls r => decls.addLocal r 8) decls =
        { decls with locals := decls.locals ++ ids.map fun r => (r, 8) } := by
    intro ids
    induction ids with
    | nil => simp
    | cons r ids ih =>
      intro decls
      rw [List.foldl_cons, ih]
      simp [SlotDecls.addLocal]
  rw [headSlots, (takeWhile_declarations hcode).1, hsplit, List.foldl_append, List.foldl_map,
    List.foldl_map, hparams, hlocals]
  simp

theorem frameSize_declarations (hp : params ≤ slots)
    (hcode : ∀ line ∈ code, line.instruction.slot? = none) :
    (headSlots (Linear.declarations params slots ++ code)).layout.frameSize =
      8 * (slots - params) := by
  rw [headSlots_declarations hp hcode, SlotDecls.layout, totalSize_map, List.length_range']

/-- Every slot has its place in the frame. -/
theorem offset?_declarations (hp : params ≤ slots)
    (hcode : ∀ line ∈ code, line.instruction.slot? = none) {r : Nat} (hr : r < slots) :
    (headSlots (Linear.declarations params slots ++ code)).layout.offset? r =
      some (slotOffset params r) := by
  rw [headSlots_declarations hp hcode, SlotDecls.layout, Layout.offset?, ← List.map_reverse]
  refine Table.find?_ofList_of_mem ?_ ?_
  · rw [List.map_append, keys_offsetsAbove, keys_offsetsBelow]
    simp only [List.map_map, Function.comp_def, List.map_id']
    refine List.nodup_append.2 ⟨List.nodup_reverse.2 List.nodup_range, List.nodup_range', ?_⟩
    intro a ha b hb heq
    simp only [List.mem_reverse, List.mem_range] at ha
    simp only [List.mem_range'_1] at hb
    omega
  · rw [List.mem_append]
    by_cases hlt : r < params
    · refine .inl (List.mem_of_getElem? (i := params - 1 - r) ?_)
      have hback : params - 1 - (params - 1 - r) = r := by omega
      rw [getElem?_offsetsAbove, List.getElem?_reverse (by simp; omega), List.length_range, hback,
        List.getElem?_range hlt, slotOffset, if_pos hlt, Option.map_some]
      congr 3
      omega
    · refine .inr (List.mem_of_getElem? (i := r - params) ?_)
      have hback : params + 1 * (r - params) = r := by omega
      rw [getElem?_offsetsBelow, List.getElem?_range' (by omega), hback, slotOffset, if_neg hlt,
        Option.map_some]
      congr 4
      omega

end

/-! ## Functions in the text of a program -/

theorem infix_of_definitionsLines {p : Linear.Program} {comments : Comments}
    {fs : List Linear.Function} {lines : List Line} (h : definitionsLines p comments fs = .ok lines)
    (hf : f ∈ fs) : ∃ own, ownLines p comments f = .ok own ∧ own <:+: lines := by
  induction fs generalizing lines with
  | nil => cases hf
  | cons g fs ih =>
    obtain ⟨first, hfirst, h⟩ := exists_of_bind_eq_ok h
    obtain ⟨rest, hrest, h⟩ := exists_of_bind_eq_ok h
    cases h
    rcases List.mem_cons.1 hf with rfl | hf
    · obtain ⟨own, hown, hfirst⟩ := exists_of_bind_eq_ok hfirst
      obtain ⟨bridge, -, hfirst⟩ := exists_of_bind_eq_ok hfirst
      cases hfirst
      exact ⟨own, hown, [], bridge ++ rest, by simp⟩
    · obtain ⟨own, hown, hinfix⟩ := ih hrest hf
      exact ⟨own, hown, hinfix.trans (List.suffix_append ..).isInfix⟩

theorem infix_of_programLines {p : Linear.Program} {comments : Comments} {lines : List Line}
    (h : programLines p comments = .ok lines) (hf : f ∈ p.functions) :
    ∃ own, ownLines p comments f = .ok own ∧ own <:+: lines := by
  obtain ⟨functions, hfunctions, h⟩ := exists_of_bind_eq_ok h
  cases h
  obtain ⟨own, hown, hinfix⟩ := infix_of_definitionsLines hfunctions hf
  refine ⟨own, hown, hinfix.trans ?_⟩
  exact ⟨[.verbatim "bits 64", .verbatim "section .data"] ++
    p.strings.entries.flatMap (fun e => stringLines e.1 e.2) ++ [.verbatim "section .text"],
    routines, by simp⟩

theorem routines_infix_of_programLines {p : Linear.Program} {comments : Comments}
    {lines : List Line} (h : programLines p comments = .ok lines) : routines <:+: lines := by
  obtain ⟨functions, -, h⟩ := exists_of_bind_eq_ok h
  cases h
  exact (List.suffix_append ..).isInfix

/-- The instructions at the start of a function: they open its frame and go to its entry. -/
def opening (size : Nat) (entry : LabelId) : List Instr := prologue size ++ [.jmp (.label entry)]

/-- The lines at the end of a function: they fetch its result and close its frame. -/
def closing (result : Operand) : List Line :=
  .target .exit :: code (.mov (.register .rax) result :: epilogue)

theorem functionLines_eq_ok {p : Linear.Program} {comments : Comments} {label : String}
    {b : Linear.Body} {own : List Line} (h : functionLines p comments label b = .ok own) :
    ∃ offset text pool, (headSlots b.lines).layout.offset? b.result = some offset ∧
      bodyLines ⟨p, label, (headSlots b.lines).layout⟩ comments (b.lines.dropWhile declaresSlot)
        ⟨Table.empty⟩ = .ok text pool ∧
      own = .label label :: (code (opening (headSlots b.lines).layout.frameSize b.entry) ++
        (text ++ closing (.frame offset))) := by
  unfold functionLines EStateM.run at h
  split at h
  · next hrun =>
    cases h
    obtain ⟨result, pool₁, hslot, hrun⟩ := exists_of_run_bind_eq_ok hrun
    obtain ⟨text, pool₂, hbody, hrun⟩ := exists_of_run_bind_eq_ok hrun
    cases hrun
    cases hoffset : (headSlots b.lines).layout.offset? b.result with
    | none =>
      simp only [Generate.slot, hoffset] at hslot
      cases hslot
    | some offset =>
      simp only [Generate.slot, hoffset] at hslot
      cases hslot
      exact ⟨offset, text, _, rfl, hbody, by simp [opening, closing]⟩
  · cases h

/-! ## Lines of bodies -/

section

variable {c : GenerateContext} {comments : Comments} {before rest : List Linear.Line}
  {line : Linear.Line} {out : List Line} {pool pool' : Pool}

theorem bodyLines_append_eq_ok (h : bodyLines c comments (before ++ rest) pool = .ok out pool') :
    ∃ out₁ out₂ pool₁, bodyLines c comments before pool = .ok out₁ pool₁ ∧
      bodyLines c comments rest pool₁ = .ok out₂ pool' ∧ out = out₁ ++ out₂ := by
  induction before generalizing pool out with
  | nil => exact ⟨[], out, pool, rfl, h, rfl⟩
  | cons line before ih =>
    obtain ⟨first, pool₁, hfirst, h⟩ := exists_of_run_bind_eq_ok h
    obtain ⟨later, pool₂, hlater, h⟩ := exists_of_run_bind_eq_ok h
    cases h
    obtain ⟨out₁, out₂, pool₃, hbefore, hrest, rfl⟩ := ih hlater
    refine ⟨first ++ out₁, out₂, pool₃, ?_, hrest, by simp⟩
    rw [bodyLines, run_bind_of_eq_ok hfirst, run_bind_of_eq_ok hbefore]
    rfl

theorem bodyLines_append_of_eq_ok {out₁ out₂ : List Line} {pool₁ : Pool}
    (h₁ : bodyLines c comments before pool = .ok out₁ pool₁)
    (h₂ : bodyLines c comments rest pool₁ = .ok out₂ pool') :
    bodyLines c comments (before ++ rest) pool = .ok (out₁ ++ out₂) pool' := by
  induction before generalizing pool out₁ with
  | nil =>
    cases h₁
    exact h₂
  | cons line before ih =>
    obtain ⟨first, pool₂, hfirst, h₁⟩ := exists_of_run_bind_eq_ok h₁
    obtain ⟨later, pool₃, hlater, h₁⟩ := exists_of_run_bind_eq_ok h₁
    cases h₁
    rw [List.cons_append, bodyLines, run_bind_of_eq_ok hfirst, run_bind_of_eq_ok (ih hlater),
      List.append_assoc]
    rfl

theorem bodyLines_cons_eq_ok (h : bodyLines c comments (line :: rest) pool = .ok out pool') :
    ∃ instrs pool₁ out₂, instruction c line.instruction pool = .ok instrs pool₁ ∧
      bodyLines c comments rest pool₁ = .ok out₂ pool' ∧
      out = (line.labels.map (fun l => .target (.label l)) ++
        comments.lines c.program line.instruction) ++ (code instrs ++ out₂) := by
  obtain ⟨first, pool₁, hfirst, h⟩ := exists_of_run_bind_eq_ok h
  obtain ⟨later, pool₂, hlater, h⟩ := exists_of_run_bind_eq_ok h
  cases h
  obtain ⟨instrs, pool₃, hinstrs, hfirst⟩ := exists_of_run_bind_eq_ok hfirst
  cases hfirst
  exact ⟨instrs, pool₁, later, hinstrs, hlater, by simp⟩

theorem bodyLines_singleton_of_eq_ok {instrs : List Instr}
    (h : instruction c line.instruction pool = .ok instrs pool') :
    bodyLines c comments [line] pool = .ok ((line.labels.map (fun l => .target (.label l)) ++
      comments.lines c.program line.instruction) ++ code instrs) pool' := by
  have hline : lineLines c comments line pool = .ok (line.labels.map (fun l => .target (.label l)) ++
      comments.lines c.program line.instruction ++ code instrs) pool' := by
    rw [lineLines, run_bind_of_eq_ok h]
    rfl
  rw [bodyLines, run_bind_of_eq_ok hline]
  exact congrArg (EStateM.Result.ok · pool') (List.append_nil _)

theorem weightless_of_mem_marks (p : Linear.Program) (i : Linear.Instruction)
    (labels : List LabelId) {l : Line}
    (hl : l ∈ labels.map (fun l => Line.target (.label l)) ++ comments.lines p i) :
    l.weightless = true := by
  rcases List.mem_append.1 hl with hl | hl
  · obtain ⟨label, -, rfl⟩ := List.mem_map.1 hl
    rfl
  · cases comments with
    | none => cases hl
    | listing coloured =>
      obtain rfl := List.mem_singleton.1 hl
      rfl

theorem not_mem_code {place : Target} (instrs : List Instr) : Line.target place ∉ code instrs := by
  simp [code]

theorem exists_label_of_mem_bodyLines (h : bodyLines c comments before pool = .ok out pool')
    {place : Target} (hmem : .target place ∈ out) :
    ∃ l ∈ before.flatMap Linear.Line.labels, place = .label l := by
  induction before generalizing pool out with
  | nil =>
    cases h
    cases hmem
  | cons line before ih =>
    obtain ⟨instrs, pool₁, out₂, -, hrest, rfl⟩ := bodyLines_cons_eq_ok h
    rw [List.mem_append, List.mem_append, List.mem_append] at hmem
    rcases hmem with (hlabel | hcomment) | hcode | hlater
    · obtain ⟨l, hl, heq⟩ := List.mem_map.1 hlabel
      cases heq
      exact ⟨l, List.mem_flatMap.2 ⟨line, List.mem_cons_self, hl⟩, rfl⟩
    · cases comments with
      | none => cases hcomment
      | listing coloured => cases List.mem_singleton.1 hcomment
    · exact absurd hcode (not_mem_code instrs)
    · obtain ⟨l, hl, heq⟩ := ih hrest hlater
      exact ⟨l, by rw [List.flatMap_cons]; exact List.mem_append_right _ hl, heq⟩

end

/-! ## Sites -/

/-- A function with a body of a kinded program, and its place in the text of the program. -/
structure Site (p : Linear.Program) (sig : FunctionId → Option Signature) (comments : Comments)
    (lines : List Line) where
  id : FunctionId
  function : Linear.Function
  body : Linear.Body
  signature : Signature
  kind : RegisterId → Kind
  slots : Nat
  code : List Linear.Line
  start : Nat
  text : List Line
  pool : Pool
  found : p.functions[id]? = some function
  defined : function.definition = .body body
  signed : sig id = some signature
  arity : function.arity = signature.params.length
  kinded : body.Kinded kind sig signature slots
  regular : body.Regular slots (min p.functions.length idCount)
  lines_eq : body.lines = Linear.declarations signature.params.length slots ++ code
  code_kinded : Linear.CodeKinded kind sig body.entry code
  generated : bodyLines ⟨p, function.label, (headSlots body.lines).layout⟩ comments code
    ⟨Table.empty⟩ = .ok text pool
  placed : Placed lines start (.label function.label ::
    (Assembly.code (opening (8 * (slots - signature.params.length)) body.entry) ++
      (text ++ closing (.frame (slotOffset signature.params.length body.result)))))

section

variable {p : Linear.Program} {sig : FunctionId → Option Signature} {comments : Comments}
  {lines : List Line}

/-- Every function with a body has a site. -/
theorem exists_site (hp : p.Kinded sig) (hlines : programLines p comments = .ok lines)
    {id : FunctionId} {b : Linear.Body} (hf : p.functions[id]? = some f)
    (hb : f.definition = .body b) :
    ∃ S : Site p sig comments lines, S.id = id ∧ S.function = f ∧ S.body = b := by
  obtain ⟨s, γ, slots, hsig, harity, hkinded, hregular⟩ := hp id f b hf hb
  obtain ⟨code, hcode, hkinds⟩ := hkinded.lines
  have hslots := hkinds.kinds.slot?_eq_none
  obtain ⟨own, hown, hinfix⟩ := infix_of_programLines hlines (List.mem_of_getElem? hf)
  obtain ⟨start, hplaced⟩ := exists_placed hinfix
  simp only [ownLines, hb] at hown
  obtain ⟨offset, text, pool, hoffset, hbody, rfl⟩ := functionLines_eq_ok hown
  rw [hcode, (takeWhile_declarations hslots).2] at hbody
  rw [hcode, offset?_declarations hkinded.params_le hslots hregular.orderly.result] at hoffset
  rw [hcode, frameSize_declarations hkinded.params_le hslots] at hplaced
  cases hoffset
  exact ⟨⟨id, f, b, s, γ, slots, code, start, text, pool, hf, hb, hsig, harity, hkinded, hregular,
    hcode, hkinds, hcode ▸ hbody, hplaced⟩, rfl, rfl, rfl⟩

namespace Site

variable (S : Site p sig comments lines)

/-- The number of parameters. -/
def params : Nat := S.signature.params.length

/-- What generating code for the function knows. -/
def context : GenerateContext := ⟨p, S.function.label, (headSlots S.body.lines).layout⟩

/-- The instructions at the start of the function. -/
def head : List Instr := opening (8 * (S.slots - S.params)) S.body.entry

/-- The position at which the lines of the body start. -/
def bodyStart : Nat := S.start + 1 + S.head.length

theorem params_le : S.params ≤ S.slots := S.kinded.params_le

theorem result_lt : S.body.result < S.slots := S.regular.orderly.result

theorem orderly : Linear.Orderly S.slots S.code := by
  have h := S.regular.orderly.lines
  rw [S.lines_eq] at h
  exact h.of_append

theorem offset? {r : Nat} (hr : r < S.slots) :
    S.context.layout.offset? r = some (slotOffset S.params r) := by
  rw [context, S.lines_eq]
  exact offset?_declarations S.params_le S.code_kinded.kinds.slot?_eq_none hr

theorem live_code : Linear.live S.code = ∅ := by
  have h := live_dropWhile S.regular.orderly
  rwa [S.lines_eq, (takeWhile_declarations S.code_kinded.kinds.slot?_eq_none).2] at h

/-- A place in the body: what lines are left, the register pool there, and the position. -/
structure At (rest : List Linear.Line) (pool : Pool) (i : Nat) : Prop where
  /-- The lines before the place have led to the pool, and those after it are at the position. -/
  split : ∃ before out out', S.code = before ++ rest ∧
    bodyLines S.context comments before ⟨Table.empty⟩ = .ok out pool ∧
    bodyLines S.context comments rest pool = .ok out' S.pool ∧ S.text = out ++ out' ∧
    i = S.bodyStart + out.length

variable {S} {rest before : List Linear.Line} {line : Linear.Line} {pool : Pool} {i : Nat}

theorem exists_at (h : S.code = before ++ rest) : ∃ pool i, S.At rest pool i := by
  have hgenerated := S.generated
  rw [h] at hgenerated
  obtain ⟨out, out', pool, hbefore, hrest, htext⟩ := bodyLines_append_eq_ok hgenerated
  exact ⟨pool, _, before, out, out', h, hbefore, hrest, htext, rfl⟩

namespace At

theorem serves (h : S.At rest pool i) : pool.Serves (Linear.live rest) := by
  obtain ⟨before, out, out', hcode, hbefore, -⟩ := h.split
  have hmem : ∀ line ∈ before, line ∈ S.code := fun line hl => by
    rw [hcode]
    exact List.mem_append_left _ hl
  have horderly := S.orderly
  have hserves : (⟨Table.empty⟩ : Pool).Serves (Linear.live (before ++ rest)) := by
    rw [← hcode, S.live_code]
    exact Pool.serves_empty
  rw [hcode] at horderly
  have hpool := bodyLines_serves (places_headSlots S.regular.orderly p S.function.label) comments
    horderly (fun l hl => S.code_kinded.kinds.slot?_eq_none l (hmem l hl)) ?_ hserves
  · rw [Ensures] at hpool
    rw [context] at hbefore
    rw [hbefore] at hpool
    exact hpool
  · intro l hl id hid
    refine (S.regular.refers l ?_ id hid).trans_le (min_le_left _ _)
    rw [S.lines_eq]
    exact List.mem_append_right _ (hmem l hl)

theorem orderly (h : S.At rest pool i) : Linear.Orderly S.slots rest := by
  obtain ⟨before, out, out', hcode, -⟩ := h.split
  have horderly := S.orderly
  rw [hcode] at horderly
  exact horderly.of_append

theorem placed (h : S.At rest pool i) : ∃ out, bodyLines S.context comments rest pool = .ok out S.pool ∧
    Placed lines i (out ++ closing (.frame (slotOffset S.params S.body.result))) := by
  obtain ⟨before, out, out', hcode, -, hrest, htext, rfl⟩ := h.split
  refine ⟨out', hrest, ?_⟩
  have hplaced := S.placed.tail.right
  rw [htext, List.append_assoc] at hplaced
  have hright := hplaced.right
  rwa [Assembly.code, List.length_map] at hright

theorem next (h : S.At (line :: rest) pool i) : ∃ instrs pool' j,
    instruction S.context line.instruction pool = .ok instrs pool' ∧
    i ≤ j ∧ (∀ img : Image lines, img.address j = img.address i) ∧
    Placed lines j (Assembly.code instrs) ∧ S.At rest pool' (j + instrs.length) := by
  obtain ⟨out, hout, hplaced⟩ := h.placed
  obtain ⟨instrs, pool', out₂, hinstrs, hrest, rfl⟩ := bodyLines_cons_eq_ok hout
  rw [List.append_assoc] at hplaced
  refine ⟨instrs, pool', _, hinstrs, Nat.le_add_right .., fun img =>
    img.address_of_weightless hplaced.left fun l hl => weightless_of_mem_marks _ _ _ hl, ?_, ?_⟩
  · have hright := hplaced.right
    rw [List.append_assoc] at hright
    exact hright.left
  · obtain ⟨before, first, later, hcode, hbefore, hlater, htext, rfl⟩ := h.split
    cases hlater.symm.trans hout
    refine ⟨before ++ [line], _, out₂, by simp [hcode],
      bodyLines_append_of_eq_ok hbefore (bodyLines_singleton_of_eq_ok hinstrs), hrest,
      by simp [htext], ?_⟩
    simp only [List.length_append, Assembly.code, List.length_map]
    omega

end At

/-! ### Jumps -/

variable (S) in
/-- A position in the text of the function, after its label. -/
def Within (m : Nat) : Prop := S.start < m ∧ m ≤ S.bodyStart + S.text.length

theorem At.within (h : S.At rest pool i) : S.Within i := by
  obtain ⟨before, out, out', -, -, -, htext, rfl⟩ := h.split
  rw [Within, htext, List.length_append, bodyStart]
  omega

/-- Positions between two places are in the text of the function. -/
theorem Within.between {m n : Nat} (hi : S.Within i) (hn : S.Within n) (him : i ≤ m) (hmn : m ≤ n) :
    S.Within m :=
  ⟨hi.1.trans_le him, hmn.trans hn.2⟩

theorem definedSymbols_text : definedSymbols S.text = [] := by
  have h := bodyLines_defines S.context comments S.code ⟨Table.empty⟩
  rw [Ensures, context, S.generated] at h
  exact h.defined

theorem jumpTarget?_of_split {first second : List Line} {goal : Target}
    (h : Assembly.code S.head ++ (S.text ++ closing (.frame (slotOffset S.params S.body.result))) =
    first ++ .target goal :: second) (hfirst : .target goal ∉ first) (hm : S.Within m) :
    jumpTarget? lines m goal = some (S.start + 1 + first.length) := by
  have hplaced := S.placed
  change Placed lines S.start (.label S.function.label :: (Assembly.code S.head ++
    (S.text ++ closing (.frame (slotOffset S.params S.body.result))))) at hplaced
  have hsymbols : definedSymbols (Assembly.code S.head ++
      (S.text ++ closing (.frame (slotOffset S.params S.body.result)))) = [] := by
    rw [definedSymbols_append, definedSymbols_append, definedSymbols_code, S.definedSymbols_text]
    rfl
  have hlength := congrArg List.length h
  rw [h] at hplaced hsymbols
  obtain ⟨hlow, hhigh⟩ := hm
  have hj : m - (S.start + 1) ≤ (first ++ .target goal :: second).length := by
    rw [← hlength, List.length_append, List.length_append, Assembly.code, List.length_map]
    rw [bodyStart] at hhigh
    omega
  have hjump := jumpTarget?_of_placed hplaced hsymbols hfirst hj
  rwa [Nat.add_sub_of_le hlow] at hjump

theorem At.jumpTarget? (h : S.At (line :: rest) pool i) {l : LabelId} (hl : l ∈ line.labels)
    (hm : S.Within m) : ∃ j, Assembly.jumpTarget? lines m (.label l) = some j ∧
      ∀ img : Image lines, img.address j = img.address i := by
  obtain ⟨out, hout, hplaced⟩ := h.placed
  obtain ⟨before, out', later, hcode, hbefore, hlater, htext, rfl⟩ := h.split
  cases hlater.symm.trans hout
  obtain ⟨instrs, pool', out₂, -, -, rfl⟩ := bodyLines_cons_eq_ok hout
  obtain ⟨ls, ls', hlabels⟩ := List.append_of_mem hl
  -- No label stands twice, so the target is not among the lines before it.
  have hnodup := S.code_kinded.labels
  rw [hcode, List.flatMap_append, List.flatMap_cons, hlabels, List.append_assoc,
    ← List.append_assoc, List.cons_append, List.nodup_middle] at hnodup
  have hfresh := (List.nodup_cons.1 hnodup).1
  simp only [List.mem_append, not_or] at hfresh
  have hmarks : (line.labels.map fun l => Line.target (.label l)) =
      (ls.map fun l => Line.target (.label l)) ++ .target (.label l) ::
        ls'.map fun l => .target (.label l) := by
    rw [hlabels, List.map_append, List.map_cons]
  refine ⟨_, jumpTarget?_of_split (S := S) (by
    rw [htext, hmarks, ← List.append_assoc, ← List.append_assoc, ← List.append_assoc]
    simp only [List.append_assoc]
    rw [← List.append_assoc out', ← List.append_assoc (Assembly.code S.head)]
    rfl) ?_ hm, ?_⟩
  · rw [List.mem_append, List.mem_append]
    rintro (hmem | hmem | hmem)
    · exact not_mem_code _ hmem
    · obtain ⟨l', hl', heq⟩ := exists_label_of_mem_bodyLines hbefore hmem
      cases heq
      exact hfresh.1.1 hl'
    · obtain ⟨l', hl', heq⟩ := List.mem_map.1 hmem
      cases heq
      exact hfresh.1.2 hl'
  · intro img
    rw [hmarks, List.append_assoc, List.append_assoc, List.append_assoc] at hplaced
    have haddress := img.address_of_weightless hplaced.left fun l hl => by
      obtain ⟨l', -, rfl⟩ := List.mem_map.1 hl
      rfl
    rw [← haddress]
    congr 1
    simp only [List.length_append, Assembly.code, List.length_map, bodyStart]
    omega

/-- Where a label of the code leads to, in the linear code and in the text. There are no operands on
the stack there. -/
theorem exists_at_of_seek {l : LabelId} {found : List Linear.Line}
    (h : Linear.seek l S.body.lines = some found) :
    ∃ pool i, S.At found pool i ∧ Linear.LinesKinded S.kind sig found [] [] ∧
      ∀ m, S.Within m → ∃ j, Assembly.jumpTarget? lines m (.label l) = some j ∧
        ∀ img : Image lines, img.address j = img.address i := by
  have hdeclarations : Linear.seek l (Linear.declarations S.signature.params.length S.slots) = none :=
    Linear.seek_eq_none fun line hl => (Linear.mem_declarations hl).1
  rw [S.lines_eq, Linear.seek_append, hdeclarations, Option.map_none, Option.or_none] at h
  obtain ⟨⟨before, hcode⟩, line, rest, rfl, hl⟩ := Linear.seek_eq_some h
  obtain ⟨pool, i, hat⟩ := exists_at hcode.symm
  have hkinds := S.code_kinded.kinds
  rw [← hcode] at hkinds
  obtain ⟨ks, -, hkinds⟩ := hkinds.of_append
  have hnil : ks = [] := by
    cases hkinds with
    | cons hlabels => exact hlabels (List.ne_nil_of_mem hl)
  exact ⟨pool, i, hat, hnil ▸ hkinds, fun m hm => hat.jumpTarget? hl hm⟩

theorem at_entry : S.At S.code ⟨Table.empty⟩ S.bodyStart :=
  ⟨[], [], S.text, rfl, rfl, S.generated, rfl, rfl⟩

theorem jumpTarget?_entry (hm : S.Within m) :
    ∃ j, Assembly.jumpTarget? lines m (.label S.body.entry) = some j ∧
      ∀ img : Image lines, img.address j = img.address S.bodyStart := by
  obtain ⟨line, rest, hcode, hl⟩ := S.code_kinded.entry
  have hentry := S.at_entry
  rw [hcode] at hentry
  exact hentry.jumpTarget? hl hm

theorem jumpTarget?_exit (hm : S.Within m) :
    Assembly.jumpTarget? lines m .exit = some (S.bodyStart + S.text.length) := by
  have hsplit : Assembly.code S.head ++ (S.text ++
      closing (.frame (slotOffset S.params S.body.result))) =
      (Assembly.code S.head ++ S.text) ++ .target .exit :: Assembly.code
        (.mov (.register .rax) (.frame (slotOffset S.params S.body.result)) :: epilogue) :=
    (List.append_assoc ..).symm
  rw [jumpTarget?_of_split hsplit ?_ hm]
  · rw [List.length_append, Assembly.code, List.length_map, bodyStart, ← Nat.add_assoc]
  · rw [List.mem_append]
    rintro (hmem | hmem)
    · exact not_mem_code _ hmem
    · obtain ⟨l, -, heq⟩ := exists_label_of_mem_bodyLines S.generated hmem
      cases heq

variable (S) in
theorem placed_closing : Placed lines (S.bodyStart + S.text.length)
    (closing (.frame (slotOffset S.params S.body.result))) := by
  have h := S.placed.tail.right.right
  rwa [Assembly.code, List.length_map] at h

variable (S) in
theorem placed_head : Placed lines (S.start + 1) (Assembly.code S.head) := S.placed.tail.left

variable (S) in
theorem symbol_eq (img : Image lines) (hsymbols : (definedSymbols lines).Nodup) :
    img.symbol S.function.label = img.address (S.start + 1) := by
  rw [img.symbol_of_placed hsymbols S.placed]
  exact (img.weightless _ _ S.placed.head rfl).symm

end Site

end

end WordLang.Assembly
