import BlockScript.Token.Scan
import BlockScript.Tree.Basic

/-!
# Parsing

The grammar, with the tokens between quotes and `;` at the end of a declaration optional:

    program     = statement* eof
    statement   = ";" | "var" identifier "=" expression ";"? | "{" statement* "}"
    expression  = additive (("==" | "!=") additive)*
    additive    = term (("+" | "-") term)*
    term        = primary (("*" | "/") primary)*
    primary     = integer | float | identifier | "(" expression ")"

Each function reads tokens from the front of a list and gives back what is left, also when it fails:
it fails in front of the first token that cannot stand where it stands, and has not taken it.

An expression is read in one pass without recursion.  What is written to the left of an operator
waits in a `Pending`, one operand for each level of the grammar at most, until the right operand is
complete.  An open parenthesis puts the whole `Pending` aside.
-/

namespace BlockScript

/-! ## Results -/

/-- What is wrong with a token. -/
inductive SyntaxFault where
  /-- An expression stands where a statement belongs. -/
  | expressionStatement
  /-- No statement starts with the token. -/
  | unexpected (found : Token.Kind)
  /-- No expression starts with the token. -/
  | expectedExpression (found : Token.Kind)
  /-- The name of a variable is missing. -/
  | expectedIdentifier (found : Token.Kind)
  /-- A fixed token is missing. -/
  | expected (wanted found : Token.Kind)
deriving DecidableEq

/-- A fault at a place in the source. -/
structure SyntaxError where
  /-- What is wrong. -/
  fault : SyntaxFault
  /-- The place of the token. -/
  location : Location
deriving DecidableEq

/-- The fault in words. -/
def SyntaxFault.message : SyntaxFault → String
  | expressionStatement => "expression statements are not supported"
  | unexpected k => s!"unexpected token {k.describe}"
  | expectedExpression k => s!"expected expression, found {k.describe}"
  | expectedIdentifier k => s!"expected identifier, found {k.describe}"
  | expected w k => s!"expected {w.describe}, found {k.describe}"

/-- The error in words. -/
def SyntaxError.message (e : SyntaxError) : String :=
  s!"SyntaxError: {e.fault.message} at {e.location.text}"

/-- The outcome of reading from a list of tokens, with the tokens that are left. -/
inductive Parsed (α : Type) where
  | done (value : α) (rest : List Token)
  | failed (error : SyntaxError) (rest : List Token)

namespace Parsed

/-- The tokens that are left. -/
def rest {α : Type} : Parsed α → List Token
  | done _ r | failed _ r => r

/-- The outcome with its value changed. -/
def map {α β : Type} (f : α → β) : Parsed α → Parsed β
  | done a r => .done (f a) r
  | failed e r => .failed e r

/-- Goes on reading behind a value. -/
def andThen {α β : Type} (x : Parsed α) (f : α → List Token → Parsed β) : Parsed β :=
  match x with
  | done a r => f a r
  | failed e r => .failed e r

@[simp] theorem rest_map {α β : Type} (f : α → β) (x : Parsed α) : (x.map f).rest = x.rest := by
  cases x <;> rfl

theorem andThen_length_le {α β : Type} {x : Parsed α} {f : α → List Token → Parsed β} {n : Nat}
    (hx : x.rest.length ≤ n)
    (hf : ∀ a ts, ts.length ≤ n → (f a ts).rest.length ≤ n) :
    (x.andThen f).rest.length ≤ n := by
  cases x with
  | done a r => exact hf a r hx
  | failed e r => exact hx

/-- The value or the error. -/
def result {α : Type} : Parsed α → Except SyntaxError α
  | done a _ => .ok a
  | failed e _ => .error e

end Parsed

/-- What every parsing function knows of the source: its file and the token at its end. -/
structure Ending where
  /-- The name of the file. -/
  file : String
  /-- The token at the end of the source. -/
  finish : Token

namespace Ending

/-- The token in front. -/
def current (e : Ending) (ts : List Token) : Token := ts.headD e.finish

/-- The site of a token. -/
def siteOf (e : Ending) (t : Token) : Site := ⟨.ofPosition e.file t.start, none⟩

/-- Fails at the token in front. -/
def fail {α : Type} (e : Ending) (ts : List Token) (fault : Token.Kind → SyntaxFault) : Parsed α :=
  let t := e.current ts
  .failed ⟨fault t.kind, (e.siteOf t).location⟩ ts

end Ending

/-! ## Expressions -/

/-- The operands that wait for a right one, one for each level of operators at most. -/
structure Pending where
  /-- The left operand of a comparison. -/
  comparison : Option (Tree × Operator) := none
  /-- The left operand of a sum or difference. -/
  sum : Option (Tree × Operator) := none
  /-- The left operand of a product or quotient. -/
  product : Option (Tree × Operator) := none

namespace Pending

/-- Gives a waiting operand its right one. -/
def join (waiting : Option (Tree × Operator)) (x : Tree) : Tree :=
  match waiting with
  | none => x
  | some (left, op) => Tree.operate op left x

/-- The term that `x` completes. -/
def term (p : Pending) (x : Tree) : Tree := join p.product x

/-- The additive expression that `x` completes. -/
def additive (p : Pending) (x : Tree) : Tree := join p.sum (p.term x)

/-- The whole expression that `x` completes. -/
def whole (p : Pending) (x : Tree) : Tree := join p.comparison (p.additive x)

/-- The operands that wait once `op` follows `x`. -/
def push (p : Pending) (x : Tree) (op : Operator) : Pending :=
  match op with
  | .arithmetic .mul | .arithmetic .div => { p with product := some (p.term x, op) }
  | .arithmetic .add | .arithmetic .sub => ⟨p.comparison, some (p.additive x, op), none⟩
  | .equal | .notEqual => ⟨some (p.whole x, op), none, none⟩

end Pending

/-- The operator that a token stands for. -/
def Operator.ofKind? : Token.Kind → Option Operator
  | .plus => some (.arithmetic .add)
  | .minus => some (.arithmetic .sub)
  | .star => some (.arithmetic .mul)
  | .slash => some (.arithmetic .div)
  | .equalEqual => some .equal
  | .notEqual => some .notEqual
  | _ => none

/-- The node of a token that is an operand by itself. -/
def Ending.operand? (e : Ending) (t : Token) : Option Tree :=
  match t.kind with
  | .integer n => some (.literal (e.siteOf t) (.integer n) none)
  | .float x => some (.literal (e.siteOf t) (.float x) none)
  | .identifier name => some (.identifier (e.siteOf t) name none)
  | _ => none

/--
Reads an expression.  `outer` holds what waits outside each open parenthesis, the innermost first,
`p` what waits inside, and `x` is the operand just read, if one was.
-/
def Ending.expressionFrom (e : Ending) (outer : List Pending) (p : Pending) :
    Option Tree → List Token → Parsed Tree
  | none, [] => e.fail [] .expectedExpression
  | none, t :: ts =>
    match e.operand? t with
    | some x => e.expressionFrom outer p (some x) ts
    | none =>
      if t.kind = .leftParen then e.expressionFrom (p :: outer) {} none ts
      else e.fail (t :: ts) .expectedExpression
  | some x, [] =>
    match outer with
    | [] => .done (p.whole x) []
    | _ :: _ => e.fail [] (.expected .rightParen)
  | some x, t :: ts =>
    match Operator.ofKind? t.kind with
    | some op => e.expressionFrom outer (p.push x op) none ts
    | none =>
      match outer with
      | [] => .done (p.whole x) (t :: ts)
      | q :: outer =>
        if t.kind = .rightParen then e.expressionFrom outer q (some (p.whole x)) ts
        else e.fail (t :: ts) (.expected .rightParen)

/-- Reads an expression. -/
def Ending.expression (e : Ending) (ts : List Token) : Parsed Tree :=
  e.expressionFrom [] {} none ts

/-! ## Statements -/

/-- Reads the name of a variable. -/
def Ending.name (e : Ending) (ts : List Token) : Parsed String :=
  match (e.current ts).kind with
  | .identifier name => .done name ts.tail
  | _ => e.fail ts .expectedIdentifier

/-- Reads a fixed token. -/
def Ending.expect (e : Ending) (wanted : Token.Kind) (ts : List Token) : Parsed Unit :=
  if (e.current ts).kind = wanted then .done () ts.tail else e.fail ts (.expected wanted)

/-- Passes over a semicolon, if there is one. -/
def Ending.optionalSemicolon (e : Ending) (ts : List Token) : List Token :=
  if (e.current ts).kind = .semicolon then ts.tail else ts

/-- Reads a declaration, the token `var` having been read. -/
def Ending.declaration (e : Ending) (site : Site) (ts : List Token) : Parsed Tree :=
  (e.name ts).andThen fun name ts =>
  (e.expect .equal ts).andThen fun _ ts =>
  (e.expression ts).andThen fun init ts =>
  .done (.declaration site name none init) (e.optionalSemicolon ts)

/-- The fault of a token that starts no statement. -/
def SyntaxFault.ofStatement (k : Token.Kind) : SyntaxFault :=
  if k.startsExpression then .expressionStatement else .unexpected k

/-- A block whose closing brace has not been read. -/
structure OpenBlock where
  /-- The site of its opening brace. -/
  site : Site
  /-- Its statements so far, the last first. -/
  reversed : List Tree := []

/-- The block with one more statement. -/
def OpenBlock.add (b : OpenBlock) (t : Tree) : OpenBlock := { b with reversed := t :: b.reversed }

/-- The finished block. -/
def OpenBlock.close (b : OpenBlock) : Tree := .block b.site b.reversed.reverse

/-! ### What is left is no longer -/

theorem Ending.expression_length_le (e : Ending) (ts : List Token) :
    (e.expression ts).rest.length ≤ ts.length := by
  have key : ∀ outer p x ts, (e.expressionFrom outer p x ts).rest.length ≤ ts.length := by
    intro outer p x ts
    fun_induction Ending.expressionFrom e outer p x ts <;>
      simp_all [Ending.fail, Parsed.rest] <;> omega
  exact key ..

theorem Ending.name_length_le (e : Ending) (ts : List Token) :
    (e.name ts).rest.length ≤ ts.length := by
  unfold Ending.name
  split <;> simp [Parsed.rest, Ending.fail]

theorem Ending.expect_length_le (e : Ending) (wanted : Token.Kind) (ts : List Token) :
    (e.expect wanted ts).rest.length ≤ ts.length := by
  unfold Ending.expect
  split <;> simp [Parsed.rest, Ending.fail]

theorem Ending.optionalSemicolon_length_le (e : Ending) (ts : List Token) :
    (e.optionalSemicolon ts).length ≤ ts.length := by
  unfold Ending.optionalSemicolon
  split <;> simp

theorem Ending.declaration_length_le (e : Ending) (site : Site) (ts : List Token) :
    (e.declaration site ts).rest.length ≤ ts.length := by
  refine Parsed.andThen_length_le (e.name_length_le ts) fun _ ts₁ h₁ => ?_
  refine Parsed.andThen_length_le (Nat.le_trans (e.expect_length_le _ _) h₁) fun _ ts₂ h₂ => ?_
  refine Parsed.andThen_length_le (Nat.le_trans (e.expression_length_le _) h₂) fun _ ts₃ h₃ => ?_
  exact Nat.le_trans (e.optionalSemicolon_length_le ts₃) h₃

/-! ### Blocks and programs -/

/--
Reads the rest of the innermost open block `b`, and then of the blocks around it, up to the closing
brace of the outermost.
-/
def Ending.blockFrom (e : Ending) (b : OpenBlock) (outer : List OpenBlock) :
    List Token → Parsed Tree
  | [] => e.fail [] (.expected .rightBrace)
  | t :: ts =>
    match t.kind with
    | .semicolon => e.blockFrom b outer ts
    | .leftBrace => e.blockFrom ⟨e.siteOf t, []⟩ (b :: outer) ts
    | .rightBrace =>
      match outer with
      | [] => .done b.close ts
      | o :: outer => e.blockFrom (o.add b.close) outer ts
    | .var =>
      match _h : e.declaration (e.siteOf t) ts with
      | .failed error rest => .failed error rest
      | .done d rest => e.blockFrom (b.add d) outer rest
    | _ => e.fail (t :: ts) .ofStatement
termination_by ts => ts.length
decreasing_by
  · simp
  · simp
  · simp
  · have := e.declaration_length_le (e.siteOf t) ts
    simp only [_h, Parsed.rest] at this
    simp only [List.length_cons]
    omega

theorem Ending.blockFrom_length_le (e : Ending) (b : OpenBlock) (outer : List OpenBlock)
    (ts : List Token) : (e.blockFrom b outer ts).rest.length ≤ ts.length := by
  fun_induction Ending.blockFrom e b outer ts with
  | case1 => simp [Ending.fail, Parsed.rest]
  | case2 b outer t ts _ ih => exact Nat.le_succ_of_le ih
  | case3 b outer t ts _ ih => exact Nat.le_succ_of_le ih
  | case4 b t ts => simp [Parsed.rest]
  | case5 b t ts _ o outer ih => exact Nat.le_succ_of_le ih
  | case6 b outer t ts _ error rest h =>
    have := e.declaration_length_le (e.siteOf t) ts
    simp only [h, Parsed.rest] at this
    simp only [Parsed.rest, List.length_cons]
    omega
  | case7 b outer t ts _ d rest h ih =>
    have := e.declaration_length_le (e.siteOf t) ts
    simp only [h, Parsed.rest] at this
    simp only [List.length_cons]
    omega
  | case8 => simp [Ending.fail, Parsed.rest]

/-- Reads one statement; an empty one has no node. -/
def Ending.statement (e : Ending) (ts : List Token) : Parsed (Option Tree) :=
  match ts with
  | [] => e.fail [] .ofStatement
  | t :: rest =>
    match t.kind with
    | .semicolon => .done none rest
    | .var => (e.declaration (e.siteOf t) rest).map some
    | .leftBrace => (e.blockFrom ⟨e.siteOf t, []⟩ [] rest).map some
    | _ => e.fail ts .ofStatement

/-- A statement takes at least one token. -/
theorem Ending.statement_length_lt (e : Ending) {ts rest : List Token} {x : Option Tree}
    (h : e.statement ts = .done x rest) : rest.length < ts.length := by
  have hr : (e.statement ts).rest = rest := by rw [h]; rfl
  subst hr
  unfold Ending.statement at h ⊢
  split at h
  · simp [Ending.fail] at h
  · rename_i t r
    split at h
    · exact Nat.lt_succ_self _
    · rw [Parsed.rest_map]
      exact Nat.lt_succ_of_le (e.declaration_length_le _ _)
    · rw [Parsed.rest_map]
      exact Nat.lt_succ_of_le (e.blockFrom_length_le _ _ _)
    · simp [Ending.fail] at h

/-- Reads statements up to the end of the source, behind those already read, the last first. -/
def Ending.statements (e : Ending) (reversed : List Tree) (ts : List Token) :
    Parsed (List Tree) :=
  if ts.isEmpty then .done reversed.reverse []
  else
    match _h : e.statement ts with
    | .failed error rest => .failed error rest
    | .done none rest => e.statements reversed rest
    | .done (some t) rest => e.statements (t :: reversed) rest
termination_by ts.length
decreasing_by all_goals exact e.statement_length_lt ‹_›

/-- Reads a program; its site is that of the first token. -/
def Ending.program (e : Ending) (ts : List Token) : Parsed Program :=
  match e.statements [] ts with
  | .done body rest => .done ⟨e.siteOf (e.current ts), body⟩ rest
  | .failed error rest => .failed error rest

/-- Parses a source. -/
def Program.parse (file source : String) : Except SyntaxError Program :=
  let ts := Tokens.ofSource source
  (Ending.program ⟨file, ts.finish⟩ ts.items).result

end BlockScript
