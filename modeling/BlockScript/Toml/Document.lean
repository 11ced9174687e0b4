import BlockScript.Toml.Quoted
import BlockScript.Toml.Scalar

/-!
# Documents

A document is read in two steps.  The text becomes a list of sections, each a header with its keys
and values, and the sections are then put together to one table.  Lists and inline tables nest, but
not deeper than a fixed limit; a reader of values is therefore defined by recursion on how deep it
may still go.
-/

namespace BlockScript.Toml

/-- The depth at which nesting is refused, for values and for the parts of a key. -/
def nestingLimit : Nat := 80

/-! ## Keys -/

/-- Whether `c` may stand in a key without quotes. -/
def isBare (c : Char) : Bool := c.isAlphanum || c == '_' || c == '-'

theorem dropWhile_length_lt {p : Char → Bool} {cs : List Char} (h : cs.takeWhile p ≠ []) :
    (cs.dropWhile p).length < cs.length := by
  have hlen := congrArg List.length (List.takeWhile_append_dropWhile (p := p) (l := cs))
  have hpos := List.length_pos_iff.2 h
  rw [List.length_append] at hlen
  omega

/-- Reads one part of a key. -/
def keyPart? : Reader String := fun cs =>
  match lineString? cs with
  | some r => some r
  | none =>
    if h : cs.takeWhile isBare ≠ [] then
      some ⟨String.ofList (cs.takeWhile isBare), cs.dropWhile isBare, dropWhile_length_lt h⟩
    else none

/-- Reads the parts of a key, behind those already `found`, and gives them the last first. -/
def keyParts? (found : List String) (cs : List Char) : Option (Shorter (List String) cs) :=
  match keyPart? (skipBlanks cs) with
  | none => none
  | some p =>
    have hp : (skipBlanks p.rest).length < cs.length :=
      Nat.lt_of_le_of_lt (skipBlanks_length_le p.rest)
        (Nat.lt_of_lt_of_le p.lt (skipBlanks_length_le cs))
    match hr : skipBlanks p.rest with
    | '.' :: rest =>
      have hlt : rest.length < cs.length := by
        rw [hr] at hp
        exact Nat.lt_of_succ_lt hp
      (keyParts? (p.value :: found) rest).map (·.widen (Nat.le_of_lt hlt))
    | rest => some ⟨p.value :: found, rest, by
        rw [hr] at hp
        exact hp⟩
termination_by cs.length

/-- Reads a key. -/
def key? : Reader Key := fun cs =>
  match keyParts? [] cs with
  | none => none
  | some r =>
    match r.value with
    | [] => none
    | last :: before =>
      if before.length + 1 < nestingLimit then some (r.map fun _ => ⟨before.reverse, last⟩)
      else none

/-! ## Values -/

/-- Whether `c` may stand in a value without quotes. -/
def inWord (c : Char) : Bool :=
  c.isAlphanum || c == '_' || c == '+' || c == '-' || c == '.' || c == ':'

/-- Reads a value without quotes.  A blank may stand between a date and a time. -/
def word? : Reader Node := fun cs =>
  let word := cs.takeWhile inWord
  if h : word ≠ [] then
    let rest := cs.dropWhile inWord
    have hrest : rest.length < cs.length := dropWhile_length_lt h
    match hr : rest with
    | ' ' :: r =>
      let time := r.takeWhile inWord
      if isDate word && isOffsetTime time then
        some ⟨.date (String.ofList (word ++ ' ' :: time)), r.dropWhile inWord, by
          have := (List.dropWhile_sublist inWord (l := r)).length_le
          simp only [List.length_cons] at hrest
          omega⟩
      else (scalar? word).map fun v => ⟨v, ' ' :: r, hrest⟩
    | rest => (scalar? word).map fun v => ⟨v, rest, hrest⟩
  else none

/-- Reads the rest of a list, behind the values already `found`, the last first. -/
def items? (read : Reader Node) (found : List Node) (cs : List Char) :
    Option (Shorter (List Node) cs) :=
  match hc : skipLines? false cs with
  | none => none
  | some (']' :: rest) => some ⟨found.reverse, rest, skipLines?_length_le hc⟩
  | some r =>
    match read r with
    | none => none
    | some v =>
      have hv : v.rest.length < cs.length := Nat.lt_of_lt_of_le v.lt (skipLines?_length_le hc)
      match hs : skipLines? false v.rest with
      | some (',' :: rest) =>
        have hlt : rest.length < cs.length :=
          Nat.lt_of_succ_lt (Nat.lt_of_le_of_lt (skipLines?_length_le hs) hv)
        (items? read (v.value :: found) rest).map (·.widen (Nat.le_of_lt hlt))
      | some (']' :: rest) =>
        some ⟨(v.value :: found).reverse, rest,
          Nat.lt_of_succ_lt (Nat.lt_of_le_of_lt (skipLines?_length_le hs) hv)⟩
      | _ => none
termination_by cs.length

/-- Reads a key, an equals sign and a value. -/
def pair? (read : Reader Node) : Reader Pair := fun cs =>
  match key? cs with
  | none => none
  | some k =>
    match hk : k.rest with
    | '=' :: r =>
      match read (skipBlanks r) with
      | none => none
      | some v => some ⟨⟨k.value, v.value⟩, v.rest, by
          have h₁ := k.lt
          have h₂ := v.lt
          have h₃ := skipBlanks_length_le r
          rw [hk] at h₁
          simp only [List.length_cons] at h₁
          omega⟩
    | _ => none

/-- Reads the rest of an inline table that has pairs, behind those already `found`. -/
def pairs? (read : Reader Node) (found : List Pair) (cs : List Char) :
    Option (Shorter (List Pair) cs) :=
  match pair? read cs with
  | none => none
  | some p =>
    match hs : skipBlanks p.rest with
    | ',' :: rest =>
      have hlt : rest.length < cs.length := by
        have h₁ := skipBlanks_length_le p.rest
        have h₂ := p.lt
        rw [hs] at h₁
        simp only [List.length_cons] at h₁
        omega
      (pairs? read (p.value :: found) rest).map (·.widen (Nat.le_of_lt hlt))
    | '\x7d' :: rest =>
      some ⟨(p.value :: found).reverse, rest, by
        have h₁ := skipBlanks_length_le p.rest
        have h₂ := p.lt
        rw [hs] at h₁
        simp only [List.length_cons] at h₁
        omega⟩
    | _ => none
termination_by cs.length

/-- Reads an inline table, its opening brace having been read. -/
def inlineTable? (read : Reader Node) : Reader Node := fun cs =>
  match hs : skipBlanks cs with
  | '\x7d' :: rest => some ⟨.table .inline [], rest, by
      have := skipBlanks_length_le cs
      rw [hs] at this
      exact this⟩
  | _ =>
    match pairs? read [] cs with
    | none => none
    | some ps => (Entries.addPairs ps.value []).map fun es => ps.map fun _ => .table .inline es

/-- Reads a value that holds no others. -/
def flat? : Reader Node
  | '"' :: r => (string? ('"' :: r)).map (·.map .string)
  | '\'' :: r => (string? ('\'' :: r)).map (·.map .string)
  | cs => word? cs

/-- Reads a value that may nest that deep. -/
def value? : Nat → Reader Node
  | 0, cs => flat? cs
  | depth + 1, '[' :: r =>
    (items? (value? depth) [] r).map fun l => (l.map .array).widen (Nat.le_succ _)
  | depth + 1, '\x7b' :: r => (inlineTable? (value? depth) r).map (·.widen (Nat.le_succ _))
  | _ + 1, cs => flat? cs

/-- Reads a value. -/
def topValue? : Reader Node := value? (nestingLimit - 1)

/-! ## Sections -/

/-- The content of a line that is not empty. -/
inductive Entry where
  | header (h : Header)
  | pair (p : Pair)

/-- Reads a header up to its closing brackets, its opening ones having been read. -/
def header? (double : Bool) : Reader Header := fun cs =>
  match key? cs with
  | none => none
  | some k =>
    match hk : k.rest, double with
    | ']' :: ']' :: rest, true => some ⟨.element k.value, rest, by
        have := k.lt
        rw [hk] at this
        simp only [List.length_cons] at this
        omega⟩
    | ']' :: rest, false => some ⟨.table k.value, rest, by
        have := k.lt
        rw [hk] at this
        simp only [List.length_cons] at this
        omega⟩
    | _, _ => none

/-- Reads the content of a line. -/
def entry? : Reader Entry
  | '[' :: '[' :: r =>
    (header? true r).map fun h => (h.map .header).widen (Nat.le_add_right _ 2)
  | '[' :: r => (header? false r).map fun h => (h.map .header).widen (Nat.le_succ _)
  | cs => (pair? topValue? cs).map (·.map .pair)

/--
Reads the sections of a document, behind those already `found`, the last first.  The header and the
pairs of the section that is being read are given too, the last pair first.
-/
def sections? (found : List Section) (header : Header) (pairs : List Pair) (cs : List Char) :
    Option (List Section) :=
  match hc : skipLines? false cs with
  | none => none
  | some r =>
    if r = [] then some (⟨header, pairs.reverse⟩ :: found).reverse
    else
      match entry? r with
      | none => none
      | some e =>
        match he : endLine? e.rest with
        | none => none
        | some rest =>
          have hlt : rest.length < cs.length := by
            have h₁ := endLine?_length_le he
            have h₂ := e.lt
            have h₃ := skipLines?_length_le hc
            omega
          match e.value with
          | .pair p => sections? found header (p :: pairs) rest
          | .header h => sections? (⟨header, pairs.reverse⟩ :: found) h [] rest
termination_by cs.length

/-- Reads a document.  A byte order mark in front of it does not count. -/
def parse? (text : String) : Option Entries :=
  let cs := match text.toList with
    | '\uFEFF' :: cs => cs
    | cs => cs
  (sections? [] .top [] cs).bind (·.foldlM Entries.addSection [])

end BlockScript.Toml
