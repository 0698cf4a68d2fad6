/-! Control functions in text. A terminal does not show control characters but acts on them: on
single ones, on escape and control sequences up to their final character, and on control strings
up to their terminator. Text that is meant to be read is freed of them. Main statements: what is
left holds graphic and layout characters only (`shows_of_mem_plain`), and a text of such
characters is left as it is (`plain_eq_self`). -/

namespace Dpll.Text

/-- Whether a character lies between two others, ends included. -/
def isBetween (low high c : Char) : Bool := decide (low ≤ c) && decide (c ≤ high)

/-- Whether a character is beyond ASCII. -/
def isWide (c : Char) : Bool := decide (0x80 ≤ c.toNat)

/-- Whether a character is shown by itself. Beyond ASCII all are, since in UTF-8 the control
characters there are plain ones to a terminal. -/
def isGraphic (c : Char) : Bool := isBetween ' ' '~' c || isWide c

/-- Whether a control character only lays text out. -/
def isLayout (c : Char) : Bool := c == '\t' || c == '\n' || c == '\x0c' || c == '\r'

/-- Whether a character may stand between the start and the end of a sequence. -/
def isIntermediate (c : Char) : Bool := isBetween ' ' '/' c

/-- Whether a character belongs to the parameters of a control sequence. -/
def isParameter (c : Char) : Bool := isBetween '0' '?' c

/-- Whether a character may stand at the start of the parameters only. -/
def isPrivate (c : Char) : Bool := isBetween '<' '?' c

/-- Whether a character ends a control sequence. -/
def isFinal (c : Char) : Bool := isBetween '@' '~' c

/-- Whether a character ends a control string: the terminator is a single byte, wherever it
stands in the UTF-8 form of the text. -/
def isTerminator (c : Char) : Bool := (String.utf8EncodeChar c).contains 0x9C

/-- How far a control function has been read. -/
inductive ControlState where
  /-- No control function has begun. -/
  | ground
  | escape
  | escapeIntermediate
  /-- A control sequence has begun. -/
  | sequence
  | sequenceParameter
  | sequenceIntermediate
  /-- A control sequence has a character where it may not stand. -/
  | sequenceMalformed
  /-- A device control string has begun, which has parameters ahead. -/
  | device
  | deviceParameter
  | deviceIntermediate
  /-- A control string goes on to its terminator. -/
  | string
  /-- A command to the operating system goes on to a bell. -/
  | command
deriving DecidableEq, Repr

namespace ControlState

/-- How far a control function has been read after one more character. An escape starts anew
everywhere, and a cancel or a substitute ends everything. -/
def next (s : ControlState) (c : Char) : ControlState :=
  if c == '\x1b' then escape
  else if c == '\x18' || c == '\x1a' then ground
  else
    match s with
    | ground => ground
    | escape =>
      if isIntermediate c then escapeIntermediate
      else if c == '[' then sequence
      else if c == ']' then command
      else if c == 'P' then device
      else if c == 'X' || c == '^' || c == '_' then string
      else if isBetween '0' '~' c then ground
      else s
    | escapeIntermediate => if isBetween '0' '~' c then ground else s
    | sequence =>
      if isIntermediate c then sequenceIntermediate
      else if isParameter c then sequenceParameter
      else if isFinal c then ground
      else s
    | sequenceParameter =>
      if isIntermediate c then sequenceIntermediate
      else if isPrivate c then sequenceMalformed
      else if isFinal c then ground
      else s
    | sequenceIntermediate =>
      if isParameter c then sequenceMalformed else if isFinal c then ground else s
    | sequenceMalformed => if isFinal c then ground else s
    | device =>
      if isIntermediate c then deviceIntermediate
      else if isParameter c then deviceParameter
      else if isFinal c then string
      else s
    | deviceParameter =>
      if isIntermediate c then deviceIntermediate
      else if isPrivate c || isFinal c then string
      else s
    | deviceIntermediate => if isParameter c || isFinal c then string else s
    | string => if isTerminator c then ground else s
    | command => if c == '\x07' then ground else s

/-- Whether a character is shown. Layout takes effect inside of sequences too, but not inside of
control strings. -/
def shows (s : ControlState) (c : Char) : Bool :=
  match s with
  | ground => isGraphic c || isLayout c
  | escape | escapeIntermediate | sequence | sequenceParameter | sequenceIntermediate
  | sequenceMalformed => isLayout c
  | device | deviceParameter | deviceIntermediate | string | command => false

/-- What is shown inside of a control function is shown outside of all. -/
theorem ground_shows {s : ControlState} {c : Char} (h : s.shows c = true) :
    ground.shows c = true := by
  cases s <;> simp_all [shows]

end ControlState

/-- What is shown of a text from a place on. Once a character is shown, so are those after it up
to the next that is never shown; there an unfinished control function goes on, unless characters
beyond ASCII came between. -/
def plainFrom (s : ControlState) (isShowing : Bool) : List Char → List Char
  | [] => []
  | c :: rest =>
    if s.shows c || (isShowing && ControlState.ground.shows c) then
      c :: plainFrom (if isWide c then .ground else s) true rest
    else plainFrom (s.next c) false rest

/-- A text without its control functions. -/
def plain (cs : List Char) : List Char := plainFrom .ground false cs

theorem shows_of_mem_plainFrom {s : ControlState} {isShowing : Bool} {cs : List Char} :
    ∀ c ∈ plainFrom s isShowing cs, ControlState.ground.shows c = true := by
  induction cs generalizing s isShowing with
  | nil => simp [plainFrom]
  | cons c rest ih =>
    rw [plainFrom]
    split
    case isTrue h =>
      intro d hd
      rcases List.mem_cons.1 hd with rfl | hd
      · simp only [Bool.or_eq_true, Bool.and_eq_true] at h
        exact h.elim ControlState.ground_shows And.right
      · exact ih d hd
    case isFalse => exact ih

theorem shows_of_mem_plain {cs : List Char} :
    ∀ c ∈ plain cs, ControlState.ground.shows c = true := shows_of_mem_plainFrom

theorem plainFrom_ground_eq_self {isShowing : Bool} {cs : List Char}
    (h : ∀ c ∈ cs, ControlState.ground.shows c = true) : plainFrom .ground isShowing cs = cs := by
  induction cs generalizing isShowing with
  | nil => rfl
  | cons c rest ih =>
    have hc := h c List.mem_cons_self
    have hrest : ∀ d ∈ rest, ControlState.ground.shows d = true := fun d hd =>
      h d (List.mem_cons_of_mem c hd)
    rw [plainFrom, hc, Bool.true_or, if_pos rfl, ite_self, ih hrest]

theorem plain_eq_self {cs : List Char} (h : ∀ c ∈ cs, ControlState.ground.shows c = true) :
    plain cs = cs := plainFrom_ground_eq_self h

end Dpll.Text
