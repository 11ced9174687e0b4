/-!
# Readers

A reader takes something off the front of a text.  What it leaves is shorter than what it got, and
the result carries the proof, so a loop of readers ends.  Beside readers there are functions that
pass over blanks, comments and ends of lines; what these leave is no longer than what they got.
-/

namespace BlockScript.Toml

/-- Something read from the front of `cs`, and the text behind it. -/
structure Shorter (α : Type) (cs : List Char) where
  /-- What was read. -/
  value : α
  /-- The text behind it. -/
  rest : List Char
  /-- Something was read. -/
  lt : rest.length < cs.length

/-- Takes something off the front of a text, or fails. -/
abbrev Reader (α : Type) := (cs : List Char) → Option (Shorter α cs)

namespace Shorter

/-- What was read, changed. -/
def map {α β : Type} {cs : List Char} (f : α → β) (r : Shorter α cs) : Shorter β cs :=
  ⟨f r.value, r.rest, r.lt⟩

/-- Something read from a text that is no longer than another. -/
def widen {α : Type} {cs ds : List Char} (r : Shorter α cs) (h : cs.length ≤ ds.length) :
    Shorter α ds :=
  ⟨r.value, r.rest, Nat.lt_of_lt_of_le r.lt h⟩

end Shorter

/-- Whether `c` is a blank inside a line. -/
def isBlank (c : Char) : Bool := c == ' ' || c == '\t'

/-- Whether `c` is a control character other than the tab; those may stand nowhere. -/
def isControl (c : Char) : Bool := (c.toNat < 32 && c != '\t') || c.toNat == 127

/-- Passes over blanks inside a line. -/
def skipBlanks (cs : List Char) : List Char := cs.dropWhile isBlank

/-- Passes over the rest of a comment, up to the end of its line. -/
def skipComment? : List Char → Option (List Char)
  | [] => some []
  | '\n' :: cs => some ('\n' :: cs)
  | '\r' :: '\n' :: cs => some ('\r' :: '\n' :: cs)
  | c :: cs => if isControl c then none else skipComment? cs

/-- Passes over blanks, ends of lines and comments, from inside a comment or from outside. -/
def skipLines? (inComment : Bool) : List Char → Option (List Char)
  | [] => some []
  | '\n' :: cs => skipLines? false cs
  | '\r' :: '\n' :: cs => skipLines? false cs
  | c :: cs =>
    if inComment then if isControl c then none else skipLines? true cs
    else if isBlank c then skipLines? false cs
    else if c == '#' then skipLines? true cs
    else some (c :: cs)

/-- Reads what may stand behind the content of a line, and its end. -/
def endLine? (cs : List Char) : Option (List Char) :=
  let stop (cs : List Char) : Option (List Char) :=
    match cs with
    | [] => some []
    | '\n' :: r => some r
    | '\r' :: '\n' :: r => some r
    | _ => none
  match skipBlanks cs with
  | '#' :: r => (skipComment? r).bind stop
  | r => stop r

theorem skipBlanks_length_le (cs : List Char) : (skipBlanks cs).length ≤ cs.length :=
  (List.dropWhile_sublist _).length_le

theorem skipComment?_length_le {cs rest : List Char} (h : skipComment? cs = some rest) :
    rest.length ≤ cs.length := by
  fun_induction skipComment? cs <;> grind

theorem skipLines?_length_le {b : Bool} {cs rest : List Char} (h : skipLines? b cs = some rest) :
    rest.length ≤ cs.length := by
  fun_induction skipLines? b cs <;> grind

theorem endLine?_length_le {cs rest : List Char} (h : endLine? cs = some rest) :
    rest.length ≤ cs.length := by
  have hb := skipBlanks_length_le cs
  unfold endLine? at h
  split at h
  · rename_i r hr
    obtain ⟨t, ht, h⟩ := Option.bind_eq_some_iff.1 h
    have := skipComment?_length_le ht
    rw [hr] at hb
    grind
  · grind

end BlockScript.Toml
