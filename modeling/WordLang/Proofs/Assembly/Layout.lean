import Mathlib.Tactic
import Mathlib.Order.Interval.Set.Disjoint
import Mathlib.Order.CompletePartialOrder
import WordLang.Proofs.Assembly.Generation

/-!
# Where the slots of a frame lie

A slot takes the bytes from its offset on, as many as its size says. Slots below the frame pointer
never overlap. A parameter starts where its room ends, which is also where the room of the parameter
declared before it starts; so it reaches into that room, and the two overlap exactly if it is larger
than the other one's room.

## Main definitions

* `Assembly.SlotDecl`, `Assembly.SlotDecls.ofList`: slots that are declared one after the other
* `Assembly.Layout.bytes`: the bytes of a slot
* `Assembly.Layout.Orderly`, `Assembly.Layout.Separate`: slots at their places, and apart

## Main results

* `Assembly.Layout.StacksUp.pairwise_disjoint_iff`: when parameters do not overlap
* `Assembly.Layout.StacksDown.pairwise_disjoint`: other slots never do
* `Assembly.Layout.orderly_ofList`: slots are at their places if offsets are words
* `Assembly.Layout.slots_ofList`: when no slots overlap
-/

namespace WordLang.Assembly

variable {d : SlotDecl} {decls : List SlotDecl}

/-! ## Declared slots -/

/-- A slot that is declared with its size. -/
structure SlotDecl where
  isParam : Bool
  slot : RegisterId
  size : Nat
deriving Repr, DecidableEq

namespace SlotDecl

/-- The slot with its size. -/
def entry (d : SlotDecl) : RegisterId × Nat := (d.slot, d.size)

/-- The number of bytes set aside for a slot. -/
def room (d : SlotDecl) : Nat := alignTo d.size 8

theorem size_le_room (d : SlotDecl) : d.size ≤ d.room := by
  rw [room, alignTo]
  omega

theorem room_le_of_size_lt (h : d.size < 2 ^ 63) : d.room ≤ 2 ^ 63 := by
  rw [room, alignTo]
  omega

theorem eight_le_room (h : 0 < d.size) : 8 ≤ d.room := by
  rw [room, alignTo]
  omega

end SlotDecl

/-- The parameters among declared slots. -/
def paramsOf (decls : List SlotDecl) : List SlotDecl := decls.filter SlotDecl.isParam

/-- The other ones among declared slots. -/
def localsOf (decls : List SlotDecl) : List SlotDecl := decls.filter fun d => !d.isParam

/-- The number of bytes set aside for slots. -/
def roomOf (decls : List SlotDecl) : Nat := totalSize (decls.map SlotDecl.entry)

namespace SlotDecls

/-- Declares a slot. -/
def declare (decls : SlotDecls) (d : SlotDecl) : SlotDecls :=
  if d.isParam then decls.addParam d.slot d.size else decls.addLocal d.slot d.size

def ofList (decls : List SlotDecl) : SlotDecls := decls.foldl declare ⟨[], []⟩

end SlotDecls

namespace Layout

variable (layout : Layout) (decls : List SlotDecl)

/-- The offset of the first byte of a slot. -/
def start (d : SlotDecl) : Int := ((layout.offset? d.slot).map Int64.toInt).getD 0

/-- The bytes of a slot, by their offsets. -/
def bytes (d : SlotDecl) : Set Int := Set.Ico (layout.start d) (layout.start d + d.size)

/-- Slots at their places. -/
structure Orderly : Prop where
  placed : ∀ d ∈ decls, (layout.offset? d.slot).isSome
  /-- Parameters lie beyond the saved frame pointer and the return address. -/
  params_above : ∀ d ∈ paramsOf decls, 16 ≤ layout.start d
  params_descend : (paramsOf decls).Pairwise fun earlier later =>
    layout.start later < layout.start earlier
  locals_within : ∀ d ∈ localsOf decls, layout.bytes d ⊆ Set.Ico (-layout.frameSize) 0
  locals_apart : (localsOf decls).Pairwise fun d d' => Disjoint (layout.bytes d) (layout.bytes d')

/-- No two slots share a byte. -/
def Separate : Prop := decls.Pairwise fun d d' => Disjoint (layout.bytes d) (layout.bytes d')

/-- The layout of slots that are declared one after the other. -/
def ofList : Layout := (SlotDecls.ofList decls).layout

end Layout

/-! ## Offsets -/

theorem totalSize_append (xs ys : List (RegisterId × Nat)) :
    totalSize (xs ++ ys) = totalSize xs + totalSize ys := by
  induction xs with
  | nil => simp [totalSize]
  | cons x xs ih => simp [totalSize, ih, Nat.add_assoc]

@[simp] theorem roomOf_nil : roomOf [] = 0 := rfl

@[simp] theorem roomOf_cons (d : SlotDecl) (decls : List SlotDecl) :
    roomOf (d :: decls) = d.room + roomOf decls := rfl

@[simp] theorem roomOf_append (xs ys : List SlotDecl) :
    roomOf (xs ++ ys) = roomOf xs + roomOf ys := by
  rw [roomOf, List.map_append, totalSize_append, roomOf, roomOf]

@[simp] theorem roomOf_reverse (decls : List SlotDecl) : roomOf decls.reverse = roomOf decls := by
  induction decls with
  | nil => rfl
  | cons d decls ih =>
    rw [List.reverse_cons, roomOf_append, ih, roomOf_cons, roomOf_cons, roomOf_nil]
    omega

theorem roomOf_le_of_suffix {xs ys : List SlotDecl} (h : xs <:+ ys) : roomOf xs ≤ roomOf ys := by
  obtain ⟨zs, rfl⟩ := h
  rw [roomOf_append]
  omega

theorem roomOf_le_of_isPrefix {xs ys : List SlotDecl} (h : xs <+: ys) : roomOf xs ≤ roomOf ys := by
  obtain ⟨zs, rfl⟩ := h
  rw [roomOf_append]
  omega

theorem mem_offsetsAbove (base : Nat) (before after : List SlotDecl) (d : SlotDecl) :
    (d.slot, Int64.ofNat (base + roomOf (before ++ [d]))) ∈
      offsetsAbove base ((before ++ d :: after).map SlotDecl.entry) := by
  induction before generalizing base with
  | nil => simp [offsetsAbove, SlotDecl.entry, SlotDecl.room]
  | cons e before ih =>
    have hmem := ih (base + e.room)
    rw [Nat.add_assoc, ← roomOf_cons] at hmem
    exact List.mem_cons_of_mem _ hmem

theorem mem_offsetsBelow (base : Nat) (before after : List SlotDecl) (d : SlotDecl) :
    (d.slot, -Int64.ofNat (base + roomOf (before ++ [d]))) ∈
      offsetsBelow base ((before ++ d :: after).map SlotDecl.entry) := by
  rw [offsetsBelow_eq]
  exact List.mem_map.2 ⟨_, mem_offsetsAbove base before after d, rfl⟩

namespace SlotDecls

theorem foldl_declare (decls : List SlotDecl) (s : SlotDecls) :
    decls.foldl declare s = ⟨s.params ++ (paramsOf decls).map SlotDecl.entry,
      s.locals ++ (localsOf decls).map SlotDecl.entry⟩ := by
  induction decls generalizing s with
  | nil => simp [paramsOf, localsOf]
  | cons d decls ih =>
    rw [List.foldl_cons, ih]
    cases h : d.isParam <;>
      simp [declare, addParam, addLocal, paramsOf, localsOf, h, SlotDecl.entry]

theorem ofList_eq (decls : List SlotDecl) : ofList decls =
    ⟨(paramsOf decls).map SlotDecl.entry, (localsOf decls).map SlotDecl.entry⟩ := by
  rw [ofList, foldl_declare]
  rfl

end SlotDecls

theorem Layout.frameSize_ofList (decls : List SlotDecl) :
    (ofList decls).frameSize = roomOf (localsOf decls) := by
  rw [ofList, SlotDecls.ofList_eq]
  rfl

section

variable {decls : List SlotDecl} (hslots : (decls.map SlotDecl.slot).Nodup)
include hslots

theorem nodup_offsets : ((offsetsAbove 8 ((paramsOf decls).map SlotDecl.entry).reverse ++
    offsetsBelow 0 ((localsOf decls).map SlotDecl.entry)).map Prod.fst).Nodup := by
  rw [List.map_append, keys_offsetsAbove, keys_offsetsBelow, ← List.map_reverse, List.map_map,
    List.map_map, ← List.map_append]
  have hperm : ((paramsOf decls).reverse ++ localsOf decls).Perm decls :=
    ((List.reverse_perm _).append_right _).trans (List.filter_append_perm _ _)
  exact (hperm.map _).nodup_iff.2 hslots

theorem Layout.offset?_of_param {before after : List SlotDecl}
    (h : paramsOf decls = before ++ d :: after) :
    (ofList decls).offset? d.slot = some (Int64.ofNat (8 + roomOf (d :: after))) := by
  rw [ofList, SlotDecls.ofList_eq]
  refine Table.find?_ofList_of_mem (nodup_offsets hslots) (List.mem_append_left _ ?_)
  -- Parameters are laid out from the last one on, so the room below one is that of the later ones.
  have hmem := mem_offsetsAbove 8 after.reverse before.reverse d
  rw [roomOf_append, roomOf_reverse, Nat.add_comm (roomOf after), roomOf_cons, roomOf_nil,
    Nat.add_zero, ← roomOf_cons] at hmem
  rw [h, ← List.map_reverse]
  simpa using hmem

theorem Layout.offset?_of_local {before after : List SlotDecl}
    (h : localsOf decls = before ++ d :: after) :
    (ofList decls).offset? d.slot = some (-Int64.ofNat (roomOf (before ++ [d]))) := by
  rw [ofList, SlotDecls.ofList_eq]
  refine Table.find?_ofList_of_mem (nodup_offsets hslots) (List.mem_append_right _ ?_)
  have hmem := mem_offsetsBelow 0 before after d
  rw [Nat.zero_add] at hmem
  rwa [h]

end

theorem toInt_neg_ofNat (n : Nat) : (-Int64.ofNat n).toInt = (-(n : Int)).bmod Int64.size := by
  rw [← Int64.ofInt_eq_ofNat, ← Int64.ofInt_neg, Int64.toInt_ofInt]

namespace Layout

/-! ## Slots one above the other -/

section

variable {layout : Layout} {d d' : SlotDecl}

theorem disjoint_bytes_of_le (h : layout.start d' + d'.size ≤ layout.start d) :
    Disjoint (layout.bytes d) (layout.bytes d') := by
  rw [bytes, bytes, Set.Ico_disjoint_Ico]
  omega

/-- Two slots lie apart if the lower one ends before the other one starts. -/
theorem disjoint_bytes_iff (h : layout.start d' < layout.start d) (hsize : 0 < d.size) :
    Disjoint (layout.bytes d) (layout.bytes d') ↔ layout.start d' + d'.size ≤ layout.start d := by
  refine ⟨fun hdisjoint => ?_, disjoint_bytes_of_le⟩
  rw [bytes, bytes, Set.Ico_disjoint_Ico] at hdisjoint
  omega

end

/-- Every slot starts above its own room and that of all later ones. -/
def StacksUp (layout : Layout) (params : List SlotDecl) : Prop :=
  ∀ d later, (d :: later) <:+ params → layout.start d = 8 + roomOf (d :: later)

/-- Every slot starts below its own room and that of all earlier ones. -/
def StacksDown (layout : Layout) (locals : List SlotDecl) : Prop :=
  ∀ earlier d, (earlier ++ [d]) <+: locals → layout.start d = -roomOf (earlier ++ [d])

namespace StacksUp

variable {layout : Layout} {params : List SlotDecl} {d : SlotDecl}

theorem tail (h : layout.StacksUp (d :: params)) : layout.StacksUp params :=
  fun e later hsuffix => h e later (hsuffix.trans (List.suffix_cons d params))

theorem start_eq (h : layout.StacksUp (d :: params)) :
    layout.start d = 8 + d.room + roomOf params := by
  have hstart := h d params List.suffix_rfl
  rw [roomOf_cons] at hstart
  omega

variable (hsizes : ∀ d ∈ params, 0 < d.size) (h : layout.StacksUp params)
include hsizes h

theorem start_of_mem (hd : d ∈ params) :
    16 ≤ layout.start d ∧ layout.start d ≤ 8 + roomOf params := by
  obtain ⟨before, later, rfl⟩ := List.append_of_mem hd
  have hroom := SlotDecl.eight_le_room (hsizes d hd)
  rw [h d later (List.suffix_append _ _), roomOf_append, roomOf_cons]
  omega

theorem pairwise_start :
    params.Pairwise fun earlier later => layout.start later < layout.start earlier := by
  induction params with
  | nil => exact .nil
  | cons d later ih =>
    have hlater : ∀ e ∈ later, 0 < e.size := fun e he => hsizes e (List.mem_cons_of_mem d he)
    refine .cons (fun e he => ?_) (ih hlater h.tail)
    have hle := (h.tail.start_of_mem hlater he).2
    have hroom := SlotDecl.eight_le_room (hsizes d List.mem_cons_self)
    rw [h.start_eq]
    omega

/-- Slots one above the other lie apart exactly if none is larger than the room of the one declared
before it, into which it reaches. -/
theorem pairwise_disjoint_iff :
    (params.Pairwise fun d d' => Disjoint (layout.bytes d) (layout.bytes d')) ↔
      params.IsChain fun earlier later => later.size ≤ earlier.room := by
  have hdescend := h.pairwise_start hsizes
  induction params with
  | nil => simp
  | cons d later ih =>
    have hlater : ∀ e ∈ later, 0 < e.size := fun e he => hsizes e (List.mem_cons_of_mem d he)
    obtain ⟨hd, hdescend⟩ := List.pairwise_cons.1 hdescend
    have hpos := hsizes d List.mem_cons_self
    rw [List.pairwise_cons, List.isChain_cons]
    refine .trans (and_congr_left fun hapart => ?_)
      (and_congr_right fun _ => ih hlater h.tail hdescend)
    cases later with
    | nil => simp
    | cons e later =>
      have hde := disjoint_bytes_iff (hd e List.mem_cons_self) hpos
      rw [h.start_eq, h.tail.start_eq, roomOf_cons] at hde
      rw [List.forall_mem_cons, hde]
      simp only [List.head?_cons, Option.mem_some_iff, forall_eq']
      refine ⟨fun hboth => by omega, fun hsize => ⟨by omega, fun e' he' => ?_⟩⟩
      -- A slot that comes later ends before `e` starts, and `e` starts below `d`.
      have hee' := (List.pairwise_cons.1 hapart).1 e' he'
      rw [disjoint_bytes_iff ((List.pairwise_cons.1 hdescend).1 e' he')
        (hlater e List.mem_cons_self)] at hee'
      exact disjoint_bytes_of_le (hee'.trans (hd e List.mem_cons_self).le)

end StacksUp

namespace StacksDown

variable {layout : Layout} {locals : List SlotDecl} {d : SlotDecl}

theorem init {rest : List SlotDecl} (h : layout.StacksDown (locals ++ rest)) :
    layout.StacksDown locals :=
  fun earlier d hbegins => h earlier d (hbegins.trans (List.prefix_append locals rest))

theorem start_eq (h : layout.StacksDown (locals ++ [d])) :
    layout.start d = -(roomOf locals + d.room : Int) := by
  have hstart := h locals d List.prefix_rfl
  rw [roomOf_append, roomOf_cons, roomOf_nil] at hstart
  omega

theorem bounds_of_mem (h : layout.StacksDown locals) (hd : d ∈ locals) :
    -(roomOf locals : Int) ≤ layout.start d ∧ layout.start d + d.size ≤ 0 := by
  obtain ⟨earlier, later, rfl⟩ := List.append_of_mem hd
  rw [List.append_cons] at h ⊢
  have hsize := d.size_le_room
  rw [h.init.start_eq, roomOf_append, roomOf_append, roomOf_cons, roomOf_nil]
  omega

/-- Slots one below the other lie apart. -/
theorem pairwise_disjoint (h : layout.StacksDown locals) :
    locals.Pairwise fun d d' => Disjoint (layout.bytes d) (layout.bytes d') := by
  induction locals using List.reverseRecOn with
  | nil => exact .nil
  | append_singleton locals d ih =>
    refine List.pairwise_append.2 ⟨ih h.init, List.pairwise_singleton _ _, fun e he d' hd' => ?_⟩
    obtain rfl := List.mem_singleton.1 hd'
    have hle := (h.init.bounds_of_mem he).1
    have hsize := d'.size_le_room
    refine disjoint_bytes_of_le ?_
    rw [h.start_eq]
    omega

end StacksDown

/-! ## Offsets that are words -/

section

variable {decls : List SlotDecl} (hslots : (decls.map SlotDecl.slot).Nodup)
include hslots

theorem start_of_param {later : List SlotDecl} (h : (d :: later) <:+ paramsOf decls) :
    (ofList decls).start d = (8 + roomOf (d :: later) : Int).bmod Int64.size := by
  obtain ⟨before, hsplit⟩ := h
  rw [start, offset?_of_param hslots hsplit.symm]
  exact Int64.toInt_ofNat'

theorem start_of_local {earlier : List SlotDecl} (h : (earlier ++ [d]) <+: localsOf decls) :
    (ofList decls).start d = (-(roomOf (earlier ++ [d]) : Int)).bmod Int64.size := by
  obtain ⟨after, hsplit⟩ := h
  rw [start, offset?_of_local hslots (hsplit.symm.trans (List.append_cons _ _ _).symm)]
  exact toInt_neg_ofNat _

theorem stacksUp_ofList (hfits : 8 + roomOf (paramsOf decls) < 2 ^ 63) :
    (ofList decls).StacksUp (paramsOf decls) := by
  intro d later hsuffix
  have hle := roomOf_le_of_suffix hsuffix
  rw [start_of_param hslots hsuffix]
  refine Int.bmod_eq_of_le ?_ ?_ <;> simp only [Int64.size] <;> omega

theorem stacksDown_ofList (hfits : roomOf (localsOf decls) < 2 ^ 63) :
    (ofList decls).StacksDown (localsOf decls) := by
  intro earlier d hbegins
  have hle := roomOf_le_of_isPrefix hbegins
  rw [start_of_local hslots hbegins]
  refine Int.bmod_eq_of_le ?_ ?_ <;> simp only [Int64.size] <;> omega

theorem isSome_offset?_ofList (hd : d ∈ decls) : ((ofList decls).offset? d.slot).isSome := by
  cases hparam : d.isParam with
  | true =>
    have hmem : d ∈ paramsOf decls := List.mem_filter.2 ⟨hd, hparam⟩
    obtain ⟨before, after, hsplit⟩ := List.append_of_mem hmem
    rw [offset?_of_param hslots hsplit]
    rfl
  | false =>
    have hmem : d ∈ localsOf decls := List.mem_filter.2 ⟨hd, by simp [hparam]⟩
    obtain ⟨before, after, hsplit⟩ := List.append_of_mem hmem
    rw [offset?_of_local hslots hsplit]
    rfl

theorem orderly_ofList (hsizes : ∀ d ∈ decls, 0 < d.size)
    (hparams : 8 + roomOf (paramsOf decls) < 2 ^ 63) (hlocals : roomOf (localsOf decls) < 2 ^ 63) :
    (ofList decls).Orderly decls := by
  have hup := stacksUp_ofList hslots hparams
  have hdown := stacksDown_ofList hslots hlocals
  have hpositive : ∀ d ∈ paramsOf decls, 0 < d.size := fun d hd =>
    hsizes d (List.mem_of_mem_filter hd)
  constructor
  case placed => exact fun d hd => isSome_offset?_ofList hslots hd
  case params_above => exact fun d hd => (hup.start_of_mem hpositive hd).1
  case params_descend => exact hup.pairwise_start hpositive
  case locals_within =>
    intro d hd x hx
    have hbounds := hdown.bounds_of_mem hd
    rw [frameSize_ofList]
    exact ⟨hbounds.1.trans hx.1, hx.2.trans_le hbounds.2⟩
  case locals_apart => exact hdown.pairwise_disjoint

end

/-- Slots at their places lie apart exactly if the parameters do. -/
theorem Orderly.separate_iff {layout : Layout} (h : layout.Orderly decls) : layout.Separate decls ↔
      (paramsOf decls).Pairwise fun d d' => Disjoint (layout.bytes d) (layout.bytes d') := by
  have hperm : (paramsOf decls ++ localsOf decls).Perm decls := List.filter_append_perm _ _
  rw [Separate, ← hperm.pairwise_iff fun hdisjoint => hdisjoint.symm, List.pairwise_append]
  refine ⟨And.left, fun hparams => ⟨hparams, h.locals_apart, fun d hd d' hd' => ?_⟩⟩
  refine Set.disjoint_left.2 fun x hx hx' => ?_
  -- Parameters lie above the frame pointer and the other slots below it.
  have habove : 16 ≤ x := (h.params_above d hd).trans hx.1
  have hbelow : x < 0 := (h.locals_within d' hd' hx').2
  omega

/-! ## Offsets that are no words -/

theorem bmod_neg {n : Int} (h : 2 ^ 63 ≤ n) (h' : n < 2 ^ 64) : n.bmod Int64.size < 0 := by
  simp only [Int.bmod, Int64.size]
  omega

theorem bmod_nonneg {n : Int} (h : 2 ^ 63 < n) (h' : n ≤ 2 ^ 64) : 0 ≤ (-n).bmod Int64.size := by
  simp only [Int.bmod, Int64.size]
  omega

theorem exists_suffix_of_le {limit base : Nat} (hbase : base < limit)
    (h : limit ≤ base + roomOf decls) : ∃ d later, (d :: later) <:+ decls ∧
      base + roomOf later < limit ∧ limit ≤ base + roomOf (d :: later) := by
  induction decls with
  | nil => exact absurd h (by simpa using hbase)
  | cons d later ih =>
    by_cases hlater : limit ≤ base + roomOf later
    · obtain ⟨e, rest, hsuffix, hrest⟩ := ih hlater
      exact ⟨e, rest, hsuffix.trans (List.suffix_cons d later), hrest⟩
    · exact ⟨d, later, List.suffix_rfl, by omega, h⟩

theorem exists_prefix_of_lt {limit : Nat} (h : limit < roomOf decls) :
    ∃ earlier d, (earlier ++ [d]) <+: decls ∧
      roomOf earlier ≤ limit ∧ limit < roomOf (earlier ++ [d]) := by
  induction decls using List.reverseRecOn with
  | nil => exact absurd h (by simp)
  | append_singleton earlier d ih =>
    by_cases hearlier : limit < roomOf earlier
    · obtain ⟨init, e, hbegins, hinit⟩ := ih hearlier
      exact ⟨init, e, hbegins.trans (List.prefix_append _ _), hinit⟩
    · exact ⟨earlier, d, List.prefix_rfl, by omega, h⟩

section

variable {decls : List SlotDecl} (hslots : (decls.map SlotDecl.slot).Nodup)
  (hwords : ∀ d ∈ decls, d.size < 2 ^ 63)
include hslots hwords

/-- Beyond the largest word, the offset of a parameter is negative. -/
theorem exists_param_start_neg (h : 2 ^ 63 ≤ 8 + roomOf (paramsOf decls)) :
    ∃ d ∈ paramsOf decls, (ofList decls).start d < 0 := by
  obtain ⟨d, later, hsuffix, hlater, hle⟩ := exists_suffix_of_le (by decide) h
  have hd : d ∈ paramsOf decls := hsuffix.mem List.mem_cons_self
  have hroom := SlotDecl.room_le_of_size_lt (hwords d (List.mem_of_mem_filter hd))
  refine ⟨d, hd, ?_⟩
  rw [start_of_param hslots hsuffix]
  rw [roomOf_cons] at hle ⊢
  exact bmod_neg (by omega) (by omega)

/-- Beyond the least word, the offset of another slot is not negative. -/
theorem exists_local_start_nonneg (h : 2 ^ 63 < roomOf (localsOf decls)) :
    ∃ d ∈ localsOf decls, 0 ≤ (ofList decls).start d := by
  obtain ⟨earlier, d, hbegins, hearlier, hlt⟩ := exists_prefix_of_lt h
  have hd : d ∈ localsOf decls := hbegins.mem (List.mem_append_right _ List.mem_cons_self)
  have hroom := SlotDecl.room_le_of_size_lt (hwords d (List.mem_of_mem_filter hd))
  refine ⟨d, hd, ?_⟩
  rw [start_of_local hslots hbegins]
  rw [roomOf_append, roomOf_cons, roomOf_nil] at hlt ⊢
  exact bmod_nonneg (by omega) (by omega)

theorem not_orderly_ofList (hsizes : ∀ d ∈ decls, 0 < d.size)
    (h : 2 ^ 63 ≤ 8 + roomOf (paramsOf decls) ∨ 2 ^ 63 < roomOf (localsOf decls)) :
    ¬(ofList decls).Orderly decls := by
  intro horderly
  rcases h with h | h
  · obtain ⟨d, hd, hneg⟩ := exists_param_start_neg hslots hwords h
    have habove := horderly.params_above d hd
    omega
  · obtain ⟨d, hd, hnonneg⟩ := exists_local_start_nonneg hslots hwords h
    have hsize := hsizes d (List.mem_of_mem_filter hd)
    have hmem : (ofList decls).start d ∈ (ofList decls).bytes d :=
      Set.left_mem_Ico.2 (by omega)
    have hbelow := (horderly.locals_within d hd hmem).2
    omega

end

/-- What holds of the layout of slots that are declared one after the other. If all offsets are
words, slots are at their places, so that only parameters can overlap, and they do not exactly if
none is larger than the room of the one declared before it. Beyond the words, some slot is not at
its place. -/
theorem slots_ofList (decls : List SlotDecl) (hslots : (decls.map SlotDecl.slot).Nodup)
    (hsizes : ∀ d ∈ decls, 0 < d.size) (hsum : (decls.map SlotDecl.size).sum < 2 ^ 63) :
    (8 + roomOf (paramsOf decls) < 2 ^ 63 → roomOf (localsOf decls) < 2 ^ 63 →
      (ofList decls).Orderly decls ∧
        ((ofList decls).Separate decls ↔
          (paramsOf decls).IsChain fun earlier later => later.size ≤ alignTo earlier.size 8)) ∧
    (2 ^ 63 ≤ 8 + roomOf (paramsOf decls) ∨ 2 ^ 63 < roomOf (localsOf decls) →
      ¬(ofList decls).Orderly decls) := by
  constructor
  · intro hparams hlocals
    have horderly := orderly_ofList hslots hsizes hparams hlocals
    have hpositive : ∀ d ∈ paramsOf decls, 0 < d.size := fun d hd =>
      hsizes d (List.mem_of_mem_filter hd)
    exact ⟨horderly, horderly.separate_iff.trans
      ((stacksUp_ofList hslots hparams).pairwise_disjoint_iff hpositive)⟩
  · refine not_orderly_ofList hslots (fun d hd => ?_) hsizes
    exact (List.single_le_sum (by simp) _ (List.mem_map_of_mem hd)).trans_lt hsum

/-- Parameters and other slots of many sizes. -/
def mixedSlots : List SlotDecl :=
  [⟨true, 0, 12⟩, ⟨false, 1, 4⟩, ⟨true, 2, 16⟩, ⟨false, 3, 17⟩, ⟨true, 4, 1⟩]

/-- A parameter whose size is the largest word. -/
def hugeParam : List SlotDecl := [⟨true, 0, 2 ^ 63 - 1⟩]

theorem slots_mixedSlots : (mixedSlots.map SlotDecl.slot).Nodup ∧
    (∀ d ∈ mixedSlots, 0 < d.size) ∧ (mixedSlots.map SlotDecl.size).sum < 2 ^ 63 ∧
    (ofList mixedSlots).Orderly mixedSlots ∧ (ofList mixedSlots).Separate mixedSlots ∧
    ¬(ofList hugeParam).Orderly hugeParam := by
  obtain ⟨horderly, hseparate⟩ := (slots_ofList mixedSlots (by decide) (by decide) (by decide)).1
    (by decide) (by decide)
  have hhuge := (slots_ofList hugeParam (by decide) (by decide) (by decide)).2 (.inl (by decide))
  exact ⟨by decide, by decide, by decide, horderly, hseparate.2 (by decide), hhuge⟩

/-- A parameter of eight bytes, and one of sixteen bytes. -/
def wideParam : List SlotDecl := [⟨true, 0, 8⟩, ⟨true, 1, 16⟩]

/-- The larger of the two parameters starts eight bytes below the other one. -/
theorem wideParam_not_separate : (wideParam.map SlotDecl.slot).Nodup ∧
    (∀ d ∈ wideParam, 0 < d.size) ∧ (wideParam.map SlotDecl.size).sum < 2 ^ 63 ∧
    ¬(ofList wideParam).Separate wideParam := by
  refine ⟨by decide, by decide, by decide, fun hseparate => ?_⟩
  have hdisjoint := (List.pairwise_cons.1 hseparate).1 ⟨true, 1, 16⟩ (by decide)
  have hnarrow : (ofList wideParam).start ⟨true, 0, 8⟩ = 32 := by decide
  have hwide : (ofList wideParam).start ⟨true, 1, 16⟩ = 24 := by decide
  rw [bytes, bytes, hnarrow, hwide, Set.Ico_disjoint_Ico] at hdisjoint
  exact absurd hdisjoint (by decide)

end Layout

end WordLang.Assembly
