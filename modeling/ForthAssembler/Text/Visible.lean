/-! Texts as they are shown where escape sequences and control characters are left out. -/
namespace ForthAssembler.Text

/-- How far into an escape sequence a text is. -/
inductive Escape
  | outside
  /-- After the escape character. -/
  | opened
  /-- After the escape character and an intermediate one. -/
  | intermediate
  /-- In a control sequence. -/
  | control
  /-- After the start of a device control string. -/
  | device
  | deviceParameter
  | deviceIntermediate
  /-- In a string of any other kind, or in what a device control string is about. -/
  | string
  /-- In an operating system command. -/
  | command
  deriving DecidableEq, Repr

namespace Escape

/-- Whether a character lies in the range of those that end a sequence, from `first` on. -/
def isFinal (first c : Char) : Bool := first ≤ c && c ≤ '~'

def isIntermediate (c : Char) : Bool := ' ' ≤ c && c ≤ '/'

/-- Whether the UTF-8 form of a character has the byte of the string terminator. -/
def hasTerminator (c : Char) : Bool := (String.utf8EncodeChar c).contains 0x9c

/-- What a character after the escape character opens. -/
def afterOpened (c : Char) : Escape :=
  match c with
  | '[' => control
  | ']' => command
  | 'P' => device
  | 'X' | '^' | '_' => string
  | _ => if isIntermediate c then intermediate else if isFinal '0' c then outside else opened

/-- The place after one more character. Cancel and substitute end any sequence, and the escape
character starts another. -/
def next (e : Escape) (c : Char) : Escape :=
  if c = '\x18' ∨ c = '\x1a' then outside
  else if c = '\x1b' then opened
  else
    match e with
    | outside => outside
    | opened => afterOpened c
    | intermediate => if isFinal '0' c then outside else intermediate
    | control => if isFinal '@' c then outside else control
    | device =>
      if isIntermediate c then deviceIntermediate
      else if isFinal '@' c then string
      else if isFinal '0' c then deviceParameter
      else device
    | deviceParameter =>
      if isIntermediate c then deviceIntermediate
      else if isFinal '<' c then string
      else deviceParameter
    | deviceIntermediate => if isFinal '0' c then string else deviceIntermediate
    | string => if hasTerminator c then outside else string
    | command => if c = '\x07' then outside else command

def isSpacing (c : Char) : Bool := c == '\t' || c == '\n' || c == '\x0c' || c == '\r'

/-- Whether a character is shown; outside of strings tabs and line ends always are. -/
def shows (e : Escape) (c : Char) : Bool :=
  match e with
  | outside => isSpacing c || (' ' ≤ c && c != '\x7f')
  | opened | intermediate | control => isSpacing c
  | device | deviceParameter | deviceIntermediate | string | command => false

/-- The characters shown. After one that is shown inside of a sequence the sequence rests, up to the
next control character; a character past ASCII ends it. -/
def visible (e : Escape) (resting : Bool) : List Char → List Char
  | [] => []
  | c :: rest =>
    if resting && outside.shows c then
      c :: visible (if c ≤ '\x7f' then e else outside) true rest
    else if e.shows c then c :: visible (e.next c) true rest
    else visible (e.next c) false rest

theorem outside_shows_of_shows {e : Escape} {c : Char} (h : e.shows c = true) :
    outside.shows c = true := by
  cases e <;> simp_all [shows]

/-- No control character is shown apart from tabs and line ends. -/
theorem shows_of_mem_visible {e : Escape} {resting : Bool} {text : List Char} {c : Char}
    (h : c ∈ visible e resting text) : outside.shows c = true := by
  fun_induction visible e resting text with
  | case1 => cases h
  | case2 e resting d rest hd ih =>
    rcases List.mem_cons.mp h with rfl | h
    · exact (Bool.and_eq_true_iff.mp hd).2
    · exact ih h
  | case3 e resting d rest _ hd ih =>
    rcases List.mem_cons.mp h with rfl | h
    · exact outside_shows_of_shows hd
    · exact ih h
  | case4 e resting d rest _ _ ih => exact ih h

/-- A text without control characters is shown as it is. -/
theorem visible_outside {text : List Char} (h : ∀ c ∈ text, outside.shows c = true) :
    visible outside true text = text := by
  induction text with
  | nil => rfl
  | cons c rest ih =>
    have hc := h c List.mem_cons_self
    have hrest := ih fun d hd => h d (List.mem_cons_of_mem c hd)
    simp [visible, hc, hrest]

end Escape

/-- A text without escape sequences and control characters. -/
def visible (text : String) : String :=
  String.ofList (Escape.visible .outside true text.toList)

/-- The characters before the first line end, which is a line feed, or a carriage return and a line
feed. -/
def firstLine : List Char → List Char
  | [] => []
  | '\n' :: _ => []
  | '\r' :: '\n' :: _ => []
  | c :: rest => c :: firstLine rest

end ForthAssembler.Text
