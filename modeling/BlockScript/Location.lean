/-!
# Places in a source text

A *position* counts through a source text: bytes of its UTF-8 form from 0, lines and columns from 1.
Only a line feed starts a new line, and a column counts characters.  A *location* is the part of a
position that a reader needs, together with the name of the file.

`Position.advance` moves a position over one character.

The location of a byte offset is looked up in a *line index*, which keeps the offsets at which the
lines of a source start, in increasing order.  The line of an offset is the last that starts there
or before, and a binary search finds it.  The column counts the characters between.  An offset
behind the source stands for its end.  An offset inside a character has no column and is given the
first.
-/

namespace BlockScript

/-- A place in a source text. -/
structure Position where
  /-- Bytes before the place. -/
  offset : Nat
  /-- The line, from 1. -/
  line : Nat
  /-- The column in characters, from 1. -/
  column : Nat
deriving DecidableEq

namespace Position

/-- The place before the first character. -/
def start : Position := ⟨0, 1, 1⟩

/-- The place after the character `c` at `p`. -/
def advance (p : Position) (c : Char) : Position :=
  if c = '\n' then ⟨p.offset + c.utf8Size, p.line + 1, 1⟩
  else ⟨p.offset + c.utf8Size, p.line, p.column + 1⟩

/-- The place after a text at `p`. -/
def after (p : Position) (cs : List Char) : Position := cs.foldl advance p

end Position

/-- A line and column of a named file. -/
structure Location where
  /-- The name of the file. -/
  file : String
  /-- The line, from 1. -/
  line : Nat
  /-- The column, from 1. -/
  column : Nat
deriving DecidableEq

namespace Location

/-- The name of a source that has no file. -/
def anonymous : String := "<anonymous>"

/-- The location of a position in a file. -/
def ofPosition (file : String) (p : Position) : Location := ⟨file, p.line, p.column⟩

/-- The location as messages show it: file, line and column with colons between them. -/
def text (l : Location) : String := s!"{l.file}:{l.line}:{l.column}"

end Location

/-! ## Binary search -/

/-- What a search for a number among increasing ones comes to. -/
inductive Searched where
  /-- The number stands at the index. -/
  | found (index : Nat)
  /-- The number is missing and belongs in front of the index. -/
  | missing (next : Nat)
deriving DecidableEq

/-- Searches for `n` from the index `lo` on and in front of the index `hi`, by halves. -/
def Searched.between (xs : Array Nat) (n lo hi : Nat) (h : hi ≤ xs.size) : Searched :=
  if hlt : lo < hi then
    let mid := lo + (hi - lo) / 2
    have hmid : mid < hi := by omega
    if xs[mid] = n then .found mid
    else if xs[mid] < n then between xs n (mid + 1) hi h
    else between xs n lo mid (by omega)
  else .missing lo
termination_by hi - lo

/-- The index of the last number that is at most the one searched for. -/
def Searched.last : Searched → Nat
  | found index => index
  | missing next => next - 1

/-! ## Bytes and characters -/

/--
Passes over the first `n` bytes of a text.  Gives the number of their characters, with `count`
added, and the text behind them; `none` if they end inside a character or behind the text.
-/
def Text.pass? (count : Nat) : Nat → List Char → Option (Nat × List Char)
  | 0, text => some (count, text)
  | _ + 1, [] => none
  | n + 1, c :: text =>
    if c.utf8Size ≤ n + 1 then pass? (count + 1) (n + 1 - c.utf8Size) text else none

/-- Puts the offsets behind the line feeds of a text at `offset` to those already `found`. -/
def Text.lineStarts (found : Array Nat) (offset : Nat) : List Char → Array Nat
  | [] => found
  | c :: text =>
    let next := offset + c.utf8Size
    lineStarts (if c = '\n' then found.push next else found) next text

/-! ## Lookups -/

/-- A source and the offsets at which its lines start. -/
structure LineIndex where
  /-- The name of the file. -/
  file : String
  /-- The source. -/
  source : String
  /-- The offset of the first character of each line. -/
  starts : Array Nat

namespace LineIndex

/-- The index of a source. -/
def ofSource (file source : String) : LineIndex :=
  ⟨file, source, Text.lineStarts #[0] 0 source.toList⟩

/-- Searches for an offset among those at which lines start. -/
def search (x : LineIndex) (offset : Nat) : Searched :=
  Searched.between x.starts offset 0 x.starts.size (Nat.le_refl _)

/-- The location of an offset. -/
def locate (x : LineIndex) (offset : Nat) : Location :=
  let offset := min offset x.source.utf8ByteSize
  let line := (x.search offset).last
  let start := x.starts.getD line 0
  let column := match Text.pass? 0 start x.source.toList with
    | none => 0
    | some (_, text) => ((Text.pass? 0 (offset - start) text).map Prod.fst).getD 0
  ⟨x.file, line + 1, column + 1⟩

end LineIndex

/-- The location of a byte offset in a source. -/
def Location.ofOffset (file source : String) (offset : Nat) : Location :=
  (LineIndex.ofSource file source).locate offset

end BlockScript
