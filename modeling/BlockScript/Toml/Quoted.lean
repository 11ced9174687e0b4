import BlockScript.Toml.Reader

/-!
# Quoted strings

A string is written in one of four forms.  Between double quotes a backslash starts an escape;
between single quotes every character stands for itself.  Each of the two may also be written
between three quotes, and then it may run over several lines: a line end right behind the opening
quotes does not count, and one or two quotes in a row do.

The first half of the module reads strings.  The second half writes them: `Form.choose` takes the
form that needs the fewest escapes, and `write` writes the string in it.
-/

namespace BlockScript.Toml

/-! ## Escapes -/

/-- The value of a hexadecimal digit. -/
def hexValue? (c : Char) : Option Nat :=
  if '0' ≤ c && c ≤ '9' then some (c.toNat - '0'.toNat)
  else if 'a' ≤ c && c ≤ 'f' then some (c.toNat - 'a'.toNat + 10)
  else if 'A' ≤ c && c ≤ 'F' then some (c.toNat - 'A'.toNat + 10)
  else none

/-- The number that hexadecimal digits denote. -/
def hexNumber? (ds : List Char) : Option Nat :=
  ds.foldlM (fun n c => (hexValue? c).map (16 * n + ·)) 0

/-- The character with a code point, if there is one. -/
def charOf? (n : Nat) : Option Char :=
  if h : n.isValidChar then some (Char.ofNatAux n h) else none

/-- Reads an escape, its backslash having been read. -/
def escape? : Reader Char
  | 'b' :: r => some ⟨'\x08', r, Nat.lt_succ_self _⟩
  | 't' :: r => some ⟨'\t', r, Nat.lt_succ_self _⟩
  | 'n' :: r => some ⟨'\n', r, Nat.lt_succ_self _⟩
  | 'f' :: r => some ⟨'\x0c', r, Nat.lt_succ_self _⟩
  | 'r' :: r => some ⟨'\r', r, Nat.lt_succ_self _⟩
  | '"' :: r => some ⟨'"', r, Nat.lt_succ_self _⟩
  | '\\' :: r => some ⟨'\\', r, Nat.lt_succ_self _⟩
  | 'u' :: a :: b :: c :: d :: r =>
    ((hexNumber? [a, b, c, d]).bind charOf?).map fun x =>
      ⟨x, r, Nat.lt_add_of_pos_right (Nat.succ_pos 4)⟩
  | 'U' :: a :: b :: c :: d :: e :: f :: g :: h :: r =>
    ((hexNumber? [a, b, c, d, e, f, g, h]).bind charOf?).map fun x =>
      ⟨x, r, Nat.lt_add_of_pos_right (Nat.succ_pos 8)⟩
  | _ => none

/-- Passes over blanks and line ends. -/
def skipGaps : List Char → List Char
  | [] => []
  | '\r' :: '\n' :: r => skipGaps r
  | c :: r => if isBlank c || c == '\n' then skipGaps r else c :: r

/-- Passes over a line end behind a backslash, with the blanks and line ends around it. -/
def skipContinuation? (cs : List Char) : Option (List Char) :=
  match skipBlanks cs with
  | '\n' :: r => some (skipGaps r)
  | '\r' :: '\n' :: r => some (skipGaps r)
  | _ => none

theorem skipGaps_length_le (cs : List Char) : (skipGaps cs).length ≤ cs.length := by
  fun_induction skipGaps cs <;> grind

theorem skipContinuation?_length_lt {cs rest : List Char} (h : skipContinuation? cs = some rest) :
    rest.length < cs.length := by
  have hb := skipBlanks_length_le cs
  unfold skipContinuation? at h
  split at h
  · rename_i r hr
    have := skipGaps_length_le r
    rw [hr] at hb
    grind
  · rename_i r hr
    have := skipGaps_length_le r
    rw [hr] at hb
    grind
  · simp at h

/-! ## Reading -/

/-- The outcome of reading the inside of a string: the string and the text behind its end. -/
abbrev Inside := Option (String × List Char)

/-- Ends a string whose characters were collected, the last first. -/
def Inside.close (found : List Char) (rest : List Char) : Inside :=
  some (String.ofList found.reverse, rest)

/-- Reads the inside of a string between double quotes. -/
def insideDouble (found : List Char) : List Char → Inside
  | [] => none
  | '"' :: r => Inside.close found r
  | '\\' :: r =>
    match escape? r with
    | none => none
    | some e => insideDouble (e.value :: found) e.rest
  | c :: r => if isControl c then none else insideDouble (c :: found) r
termination_by cs => cs.length
decreasing_by
  · have := e.lt
    simp only [List.length_cons]
    omega
  · simp

/-- Reads the inside of a string between single quotes. -/
def insideSingle (found : List Char) : List Char → Inside
  | [] => none
  | '\'' :: r => Inside.close found r
  | c :: r => if isControl c then none else insideSingle (c :: found) r

/-- Reads the inside of a string between three double quotes. -/
def insideTripleDouble (found : List Char) : List Char → Inside
  | [] => none
  | '"' :: '"' :: '"' :: '"' :: '"' :: r => Inside.close ('"' :: '"' :: found) r
  | '"' :: '"' :: '"' :: '"' :: r => Inside.close ('"' :: found) r
  | '"' :: '"' :: '"' :: r => Inside.close found r
  | '\r' :: '\n' :: r => insideTripleDouble ('\n' :: found) r
  | '\\' :: r =>
    match _h : skipContinuation? r with
    | some r => insideTripleDouble found r
    | none =>
      match escape? r with
      | none => none
      | some e => insideTripleDouble (e.value :: found) e.rest
  | c :: r =>
    if c != '\n' && isControl c then none else insideTripleDouble (c :: found) r
termination_by cs => cs.length
decreasing_by
  · simp only [List.length_cons]; omega
  · have := skipContinuation?_length_lt ‹_›
    simp only [List.length_cons]
    omega
  · have := e.lt
    simp only [List.length_cons]
    omega
  · simp

/-- Reads the inside of a string between three single quotes. -/
def insideTripleSingle (found : List Char) : List Char → Inside
  | [] => none
  | '\'' :: '\'' :: '\'' :: '\'' :: '\'' :: r => Inside.close ('\'' :: '\'' :: found) r
  | '\'' :: '\'' :: '\'' :: '\'' :: r => Inside.close ('\'' :: found) r
  | '\'' :: '\'' :: '\'' :: r => Inside.close found r
  | '\r' :: '\n' :: r => insideTripleSingle ('\n' :: found) r
  | c :: r =>
    if c != '\n' && isControl c then none else insideTripleSingle (c :: found) r

/-- Leaves out a line end in front. -/
def dropLineEnd : List Char → List Char
  | '\n' :: r => r
  | '\r' :: '\n' :: r => r
  | r => r

theorem insideDouble_length_lt {found cs : List Char} {s : String} {rest : List Char}
    (h : insideDouble found cs = some (s, rest)) : rest.length < cs.length := by
  fun_induction insideDouble found cs <;> grind [Inside.close, Shorter]

theorem insideSingle_length_lt {found cs : List Char} {s : String} {rest : List Char}
    (h : insideSingle found cs = some (s, rest)) : rest.length < cs.length := by
  fun_induction insideSingle found cs <;> grind [Inside.close]

theorem insideTripleDouble_length_lt {found cs : List Char} {s : String} {rest : List Char}
    (h : insideTripleDouble found cs = some (s, rest)) : rest.length < cs.length := by
  fun_induction insideTripleDouble found cs <;>
    grind [Inside.close, Shorter, → skipContinuation?_length_lt]

theorem insideTripleSingle_length_lt {found cs : List Char} {s : String} {rest : List Char}
    (h : insideTripleSingle found cs = some (s, rest)) : rest.length < cs.length := by
  fun_induction insideTripleSingle found cs <;> grind [Inside.close]

theorem dropLineEnd_length_le (cs : List Char) : (dropLineEnd cs).length ≤ cs.length := by
  unfold dropLineEnd
  split <;> grind

/-- Reads a string on one line, as it may stand in a key. -/
def lineString? : Reader String
  | '"' :: r =>
    match h : insideDouble [] r with
    | some (s, rest) => some ⟨s, rest, Nat.lt_succ_of_lt (insideDouble_length_lt h)⟩
    | none => none
  | '\'' :: r =>
    match h : insideSingle [] r with
    | some (s, rest) => some ⟨s, rest, Nat.lt_succ_of_lt (insideSingle_length_lt h)⟩
    | none => none
  | _ => none

/-- Reads a string in any of the four forms. -/
def string? : Reader String
  | '"' :: '"' :: '"' :: r =>
    match h : insideTripleDouble [] (dropLineEnd r) with
    | some (s, rest) => some ⟨s, rest, by
        have := insideTripleDouble_length_lt h
        have := dropLineEnd_length_le r
        simp only [List.length_cons]
        omega⟩
    | none => none
  | '\'' :: '\'' :: '\'' :: r =>
    match h : insideTripleSingle [] (dropLineEnd r) with
    | some (s, rest) => some ⟨s, rest, by
        have := insideTripleSingle_length_lt h
        have := dropLineEnd_length_le r
        simp only [List.length_cons]
        omega⟩
    | none => none
  | cs => lineString? cs

/-! ## Writing -/

/-- The form in which a string is written. -/
inductive Form where
  /-- Between double quotes. -/
  | double
  /-- Between single quotes. -/
  | single
  /-- Between three double quotes. -/
  | tripleDouble
  /-- Between three single quotes. -/
  | tripleSingle
deriving DecidableEq

/-- The length of the longest run of `q` in a text, if a run of length `now` leads up to it. -/
def longestRun (q : Char) (now longest : Nat) : List Char → Nat
  | [] => max now longest
  | c :: cs =>
    if c == q then longestRun q (now + 1) longest cs else longestRun q 0 (max now longest) cs

/--
The form for a string: the first in which every character can stand for itself.  A string for which
there is none is written between double quotes with escapes, on several lines if it has several.
-/
def Form.choose (cs : List Char) : Form :=
  let controls := cs.any fun c => c != '\n' && isControl c
  let lines := cs.contains '\n'
  let backslash := cs.contains '\\'
  if !controls && !backslash && !cs.contains '"' && !lines then double
  else if !controls && !cs.contains '\'' && !lines then single
  else if !controls && !backslash && longestRun '"' 0 0 cs ≤ 2 then tripleDouble
  else if !controls && longestRun '\'' 0 0 cs ≤ 2 then tripleSingle
  else if lines then tripleDouble
  else double

/-- Four upper case hexadecimal digits. -/
def hexDigits4 (n : Nat) : List Char :=
  let ds := (Nat.toDigits 16 n).map Char.toUpper
  List.replicate (4 - ds.length) '0' ++ ds

/-- The escape of a character that needs one in either form between double quotes. -/
def escapeOf? (c : Char) : Option (List Char) :=
  if c == '\x08' then some ['\\', 'b']
  else if c == '\t' then some ['\\', 't']
  else if c == '\x0c' then some ['\\', 'f']
  else if c == '\r' then some ['\\', 'r']
  else if c == '\\' then some ['\\', '\\']
  else if c != '\n' && isControl c then some ('\\' :: 'u' :: hexDigits4 c.toNat)
  else none

/-- A character between double quotes. -/
def writeDouble (c : Char) : List Char :=
  match escapeOf? c with
  | some e => e
  | none => if c == '\n' then ['\\', 'n'] else if c == '"' then ['\\', '"'] else [c]

/-- Characters between three double quotes, `run` quotes having been written right before. -/
def writeTripleDouble (run : Nat) : List Char → List Char
  | [] => []
  | c :: cs =>
    match escapeOf? c with
    | some e => e ++ writeTripleDouble 0 cs
    | none =>
      if c == '"' then
        if run = 2 then '\\' :: '"' :: writeTripleDouble 0 cs
        else '"' :: writeTripleDouble (run + 1) cs
      else c :: writeTripleDouble 0 cs

/-- A string in a form. -/
def Form.write (f : Form) (cs : List Char) : List Char :=
  let first := if cs.contains '\n' then ['\n'] else []
  match f with
  | double => ['"'] ++ cs.flatMap writeDouble ++ ['"']
  | single => ['\''] ++ cs ++ ['\'']
  | tripleDouble => ['"', '"', '"'] ++ first ++ writeTripleDouble 0 cs ++ ['"', '"', '"']
  | tripleSingle => ['\'', '\'', '\''] ++ first ++ cs ++ ['\'', '\'', '\'']

/-- A string in the form that suits it. -/
def writeString (s : String) : String :=
  String.ofList ((Form.choose s.toList).write s.toList)

end BlockScript.Toml
