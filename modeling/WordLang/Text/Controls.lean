/-!
# Text without terminal controls

A comment in assembly text is what a terminal would show of a listing: control characters and
everything that belongs to a control function are left out, and line ends stay.

A control function starts with an escape character. What follows decides how long it is: a single
final character, perhaps after intermediate ones; a *control sequence* of parameters that ends
with a final character; or a string that lasts until it is ended. A *device control string* has a
head of its own before its data, an *operating system command* may end with a bell, and the other
strings have no structure. An escape character always starts a new control function, and a cancel
or substitute character always ends the current one.

Characters beyond ASCII mean nothing inside a control function, with one exception: the data of a
device control string are bytes, and end with the byte `0x9c`, also where this byte is part of the
encoding of a character. The bytes that are left of such a character are not text any more.

## Main definitions

* `ControlState`, `ControlState.step`: the states of a terminal, and what a character does
* `withoutControls text`: the text without control characters and control functions

## Main results

* `withoutControls_of_plain`: a text without control characters stays as it is
-/

namespace WordLang.Text

/-- Where a text stands with respect to control functions. -/
inductive ControlState where
  /-- Outside any control function. -/
  | text
  | escape
  | intermediate
  | sequence
  | deviceHead
  | deviceParameters
  | deviceIntermediate
  | deviceData
  | command
  /-- Inside any other string, or a device control string with a malformed head. -/
  | string
deriving Repr, DecidableEq, Inhabited

/-- Whether a character is a control character. -/
def isControl (c : Char) : Bool := c.toNat < 0x20 || (0x80 ≤ c.toNat && c.toNat ≤ 0x9f)

/-- Whether a character cancels a control function. -/
def isCancel (c : Char) : Bool := c = '\x18' || c = '\x1a'

/-- Whether a character may be an intermediate one in a control function. -/
def isIntermediate (c : Char) : Bool := 0x20 ≤ c.toNat && c.toNat ≤ 0x2f

/-- Whether a character may be a parameter in a control function. -/
def isParameter (c : Char) : Bool := 0x30 ≤ c.toNat && c.toNat ≤ 0x3f

/-- Whether a character is a mark for private parameters, which stands before all others. -/
def isPrivateMark (c : Char) : Bool := 0x3c ≤ c.toNat && c.toNat ≤ 0x3f

/-- Whether a character may end a control sequence. -/
def isFinal (c : Char) : Bool := 0x40 ≤ c.toNat && c.toNat ≤ 0x7e

/-- The bytes of a character that follow the first of its bytes that ends the data of a device
control string, if there is one. -/
def bytesAfterEnd? (c : Char) : Option (List UInt8) :=
  match (String.utf8EncodeChar c).dropWhile (· ≠ 0x9c) with
  | [] => none
  | _ :: rest => some rest

/-- What is shown of bytes that belong to no character: those beyond the control characters are
replaced. -/
def strayBytes (bytes : List UInt8) : List Char :=
  (bytes.filter (0x9f < ·)).map fun _ => '\ufffd'

namespace ControlState

/-- The state after the character that follows an escape character. -/
def afterEscape (c : Char) : ControlState :=
  if isIntermediate c then .intermediate
  else if c = '[' then .sequence
  else if c = 'P' then .deviceHead
  else if c = ']' then .command
  else if c = 'X' || c = '^' || c = '_' then .string
  else if isParameter c || isFinal c then .text
  else .escape

/-- The state after a character of the head of a device control string, where `parameter` follows
a parameter. -/
def afterHead (state : ControlState) (parameter : ControlState) (c : Char) : ControlState :=
  if isIntermediate c then .deviceIntermediate
  else if isParameter c then parameter
  else if isFinal c then .deviceData
  else state

/-- The state after a character other than an escape or cancelling one, and what is left of the
character. -/
def advance (state : ControlState) (c : Char) : ControlState × List Char :=
  let lineEnd := if c = '\n' then [c] else []
  match state with
  | .text => (.text, if isControl c then lineEnd else [c])
  | .escape => (afterEscape c, lineEnd)
  | .intermediate => (if isParameter c || isFinal c then .text else .intermediate, lineEnd)
  | .sequence => (if isFinal c then .text else .sequence, lineEnd)
  | .deviceHead => (afterHead .deviceHead .deviceParameters c, [])
  | .deviceParameters =>
    (afterHead .deviceParameters (if isPrivateMark c then .string else .deviceParameters) c, [])
  | .deviceIntermediate => (afterHead .deviceIntermediate .string c, [])
  | .deviceData =>
    match bytesAfterEnd? c with
    | some bytes => (.text, strayBytes bytes)
    | none => (.deviceData, [])
  | .command => (if c = '\x07' then .text else .command, [])
  | .string => (.string, [])

/-- The state after a character, and what is left of the character. -/
def step (state : ControlState) (c : Char) : ControlState × List Char :=
  if c = '\x1b' then (.escape, [])
  else if isCancel c then (.text, [])
  else state.advance c

end ControlState

/-- The characters that are left of a text that starts in a given state. -/
def dropControls (state : ControlState) : List Char → List Char
  | [] => []
  | c :: rest => (state.step c).2 ++ dropControls (state.step c).1 rest

/-- The text without control characters and control functions. -/
def withoutControls (text : String) : String := String.ofList (dropControls .text text.toList)

/-! ## Plain text -/

/-- A character that is not a control character is shown. -/
theorem ControlState.step_text {c : Char} (h : isControl c = false) :
    ControlState.text.step c = (.text, [c]) := by
  have escape : c ≠ '\x1b' := by rintro rfl; exact absurd h (by decide)
  have cancel : isCancel c = false := by
    simp only [isCancel, Bool.or_eq_false_iff, decide_eq_false_iff_not]
    constructor <;> (rintro rfl; exact absurd h (by decide))
  simp [step, advance, escape, cancel, h]

/-- Characters none of which is a control character are shown. -/
theorem dropControls_of_plain {text : List Char} (h : ∀ c ∈ text, isControl c = false) :
    dropControls .text text = text := by
  induction text with
  | nil => rfl
  | cons c rest ih =>
    rw [dropControls, ControlState.step_text (h c List.mem_cons_self),
      ih fun x hx => h x (List.mem_cons_of_mem c hx)]
    rfl

/-- A text without control characters stays as it is. -/
theorem withoutControls_of_plain {text : String}
    (h : ∀ c ∈ text.toList, isControl c = false) : withoutControls text = text := by
  rw [withoutControls, dropControls_of_plain h, String.ofList_toList]

end WordLang.Text
