import BlockScript.Double.Basic

/-!
# Tables

A document is a table.  A table gets its entries from three places: key lines, headers and inline
tables.  A key is given only once, and a table is opened only once.  What may still be added to a
table therefore depends on how it came about, which is its `Origin`.
-/

namespace BlockScript.Toml

/-- How a table came about. -/
inductive Origin where
  /-- Written between braces; nothing can be added. -/
  | inline
  /-- Opened by a header of its own. -/
  | header
  /-- Passed through by the header of another table; its own header may still come. -/
  | implied
  /-- Passed through by a dotted key. -/
  | dotted
deriving DecidableEq

/-- A value of a document. -/
inductive Node where
  | string (s : String)
  | integer (n : Int)
  | float (x : Double)
  | boolean (b : Bool)
  /-- A date, a time or both, as written. -/
  | date (text : String)
  | array (items : List Node)
  | table (origin : Origin) (entries : List (String × Node))
  /-- The tables of headers in double brackets, the last first. -/
  | tables (items : List (List (String × Node)))

/-- The entries of a table, in the order in which they came. -/
abbrev Entries := List (String × Node)

namespace Entries

/-- The value of a key. -/
def get? (es : Entries) (k : String) : Option Node := List.lookup k es

/-- Gives a key a value, in the place of the one that it has or at the end. -/
def put (es : Entries) (k : String) (v : Node) : Entries :=
  match es with
  | [] => [(k, v)]
  | e :: es => if e.1 == k then (k, v) :: es else e :: put es k v

/--
Changes the table that a header path leads to, opening the tables on the way that are missing.
-/
def descend (es : Entries) (f : Entries → Option Entries) : List String → Option Entries
  | [] => f es
  | k :: path =>
    match get? es k with
    | none => (descend [] f path).map fun sub => put es k (.table .implied sub)
    | some (.table .inline _) => none
    | some (.table origin sub) =>
      (descend sub f path).map fun sub => put es k (.table origin sub)
    | some (.tables (t :: ts)) =>
      (descend t f path).map fun t => put es k (.tables (t :: ts))
    | some _ => none

/-- Adds the value of a dotted key: the path to it and its last part. -/
def addDotted (es : Entries) (k : String) (v : Node) : List String → Option Entries
  | [] => if (get? es k).isSome then none else some (put es k v)
  | p :: path =>
    match get? es p with
    | none => (addDotted [] k v path).map fun sub => put es p (.table .dotted sub)
    | some (.table .dotted sub) =>
      (addDotted sub k v path).map fun sub => put es p (.table .dotted sub)
    | some (.table .implied sub) =>
      if path.isEmpty then none
      else (addDotted sub k v path).map fun sub => put es p (.table .implied sub)
    | some (.tables (t :: ts)) =>
      if path.isEmpty then none
      else (addDotted t k v path).map fun t => put es p (.tables (t :: ts))
    | some _ => none

end Entries

/-- A key, given by the parts between its dots: those before the last, and the last. -/
structure Key where
  /-- The parts before the last. -/
  path : List String
  /-- The last part. -/
  last : String

/-- A key with its value. -/
structure Pair where
  /-- The key. -/
  key : Key
  /-- The value. -/
  value : Node

/-- The entries with pairs added in order. -/
def Entries.addPairs (pairs : List Pair) (es : Entries) : Option Entries :=
  pairs.foldlM (fun es p => es.addDotted p.key.last p.value p.key.path) es

/-- The header of a part of a document. -/
inductive Header where
  /-- The part before the first header. -/
  | top
  /-- A table in brackets. -/
  | table (key : Key)
  /-- One of several tables, in double brackets. -/
  | element (key : Key)

/-- A part of a document: a header and the pairs under it. -/
structure Section where
  /-- The header. -/
  header : Header
  /-- The pairs, in order. -/
  pairs : List Pair

/-- The document with one more part. -/
def Entries.addSection (es : Entries) (s : Section) : Option Entries :=
  match s.header with
  | .top => es.addPairs s.pairs
  | .table key =>
    let opened (parent : Entries) : Option Entries :=
      match parent.get? key.last with
      | none => (Entries.addPairs s.pairs []).map fun t => parent.put key.last (.table .header t)
      | some (.table .implied sub) =>
        (Entries.addPairs s.pairs sub).map fun t => parent.put key.last (.table .header t)
      | some _ => none
    es.descend opened key.path
  | .element key =>
    let append (parent : Entries) : Option Entries :=
      match parent.get? key.last with
      | none => (Entries.addPairs s.pairs []).map fun t => parent.put key.last (.tables [t])
      | some (.tables ts) =>
        (Entries.addPairs s.pairs []).map fun t => parent.put key.last (.tables (t :: ts))
      | some _ => none
    es.descend append key.path

end BlockScript.Toml
