import BlockScript.Tree.Parse

/-!
# The grammar

The grammar of the language as relations between tokens and trees, apart from any way of reading it:

    program     = statement* eof
    statement   = ";" | "var" identifier "=" expression ";"? | "{" statement* "}"
    expression  = additive (("==" | "!=") additive)*
    additive    = term (("+" | "-") term)*
    term        = primary (("*" | "/") primary)*
    primary     = integer | float | identifier | "(" expression ")"

`Grammar.Expression` has the last four rules, `Grammar.Statement` and `Grammar.Statements` have the
second and `Grammar.Source` has the first.  Operations group to the left, and parentheses and empty
statements have no node.  An operation is at the place of its left operand, and every other node at
that of its first token.  The grammar is ambiguous: a semicolon behind a declaration may end it or
be an empty statement.
-/

namespace BlockScript

/-- The token of an operator. -/
def Operator.kind : Operator → Token.Kind
  | .arithmetic .add => .plus
  | .arithmetic .sub => .minus
  | .arithmetic .mul => .star
  | .arithmetic .div => .slash
  | .equal => .equalEqual
  | .notEqual => .notEqual

theorem Operator.ofKind?_eq_some {k : Token.Kind} {op : Operator} :
    ofKind? k = some op ↔ k = op.kind := by
  constructor
  · intro h
    cases k with
    | plus | minus | star | slash | equalEqual | notEqual =>
        cases h
        rfl
    | _ => cases h
  · rintro rfl
    match op with
    | .arithmetic .add | .arithmetic .sub | .arithmetic .mul | .arithmetic .div => rfl
    | .equal | .notEqual => rfl

namespace Grammar

/-- The phrases that expressions are made of, the loosest first. -/
inductive Phrase where
  | expression
  | additive
  | term
  | primary
deriving DecidableEq

/-- The phrase that the operands in a phrase are. -/
def Phrase.operand : Phrase → Phrase
  | expression => additive
  | additive => term
  | term | primary => primary

/-- The phrase that an operator makes of its operands. -/
def phraseOf : Operator → Phrase
  | .equal | .notEqual => .expression
  | .arithmetic .add | .arithmetic .sub => .additive
  | .arithmetic .mul | .arithmetic .div => .term

/-- The site of the node that starts with a token. -/
def site (file : String) (t : Token) : Site := ⟨.ofPosition file t.start, none⟩

mutual

/-- The tokens are a phrase with the tree `x`. -/
inductive Expression (file : String) : Phrase → List Token → Tree → Prop where
  | integer {t : Token} {n : Nat} : t.kind = .integer n →
      Expression file .primary [t] (.literal (site file t) (.integer n) none)
  | float {t : Token} {x : Double} : t.kind = .float x →
      Expression file .primary [t] (.literal (site file t) (.float x) none)
  | identifier {t : Token} {name : String} : t.kind = .identifier name →
      Expression file .primary [t] (.identifier (site file t) name none)
  | parentheses {l r : Token} {ts : List Token} {x : Tree} : l.kind = .leftParen →
      Expression file .expression ts x → r.kind = .rightParen →
      Expression file .primary (l :: (ts ++ [r])) x
  | chain {p : Phrase} {ts us : List Token} {x y : Tree} : p ≠ .primary →
      Expression file p.operand ts x → Operations file p x us y →
      Expression file p (ts ++ us) y

/-- The tokens are operators of one phrase, each with its right operand, and turn the tree `x` in
front of them into the tree `y`. -/
inductive Operations (file : String) : Phrase → Tree → List Token → Tree → Prop where
  | nil {p : Phrase} {x : Tree} : Operations file p x [] x
  | cons {p : Phrase} {op : Operator} {t : Token} {ts us : List Token} {x y z : Tree} :
      phraseOf op = p → t.kind = op.kind → Expression file p.operand ts y →
      Operations file p (.operate op x y) us z → Operations file p x (t :: (ts ++ us)) z

end

/-- A semicolon or nothing. -/
inductive Terminator : List Token → Prop where
  | none : Terminator []
  | semicolon {t : Token} : t.kind = .semicolon → Terminator [t]

mutual

/-- The tokens are a statement, with its node if it has one. -/
inductive Statement (file : String) : List Token → Option Tree → Prop where
  | empty {t : Token} : t.kind = .semicolon → Statement file [t] none
  | declaration {v i q : Token} {name : String} {ts us : List Token} {x : Tree} :
      v.kind = .var → i.kind = .identifier name → q.kind = .equal →
      Expression file .expression ts x → Terminator us →
      Statement file (v :: i :: q :: (ts ++ us))
        (some (.declaration (site file v) name none x))
  | block {l r : Token} {ts : List Token} {body : List Tree} : l.kind = .leftBrace →
      Statements file ts body → r.kind = .rightBrace →
      Statement file (l :: (ts ++ [r])) (some (.block (site file l) body))

/-- The tokens are statements, with the nodes of those that have one. -/
inductive Statements (file : String) : List Token → List Tree → Prop where
  | nil : Statements file [] []
  | cons {ts us : List Token} {x : Option Tree} {body : List Tree} : Statement file ts x →
      Statements file us body → Statements file (ts ++ us) (x.toList ++ body)

end

/-- The tokens are a program up to the end of the source.  It is at the place of the first. -/
inductive Source (file : String) : List Token → Program → Prop where
  | intro {ts : List Token} {t : Token} {body : List Tree} : Statements file ts body →
      t.kind = .eof → Source file (ts ++ [t]) ⟨site file (ts.headD t), body⟩

/-! ## Operations at the end

The rules read operations from the left to the right.  A reader that has seen an operand wants them
from the end: a phrase, an operator and an operand are a phrase again. -/

theorem Operations.snoc {file : String} {p : Phrase} {op : Operator} {t : Token}
    {ts us : List Token} {x y z : Tree} (h : Operations file p x us y) (hp : phraseOf op = p)
    (ht : t.kind = op.kind)
    (hz : Expression file p.operand ts z) :
    Operations file p x (us ++ t :: ts) (.operate op y z) := by
  match h with
  | .nil =>
      rw [← List.append_nil ts]
      exact .cons hp ht hz .nil
  | .cons hp' ht' hy h =>
      have hrest := snoc h hp ht hz
      rw [List.cons_append, List.append_assoc]
      exact .cons hp' ht' hy hrest

theorem phraseOf_ne_primary (op : Operator) : phraseOf op ≠ .primary := by
  match op with
  | .arithmetic .add | .arithmetic .sub | .arithmetic .mul | .arithmetic .div => simp [phraseOf]
  | .equal | .notEqual => simp [phraseOf]

/-- A phrase, an operator and an operand are a phrase. -/
theorem Expression.operation {file : String} {op : Operator} {t : Token} {ts us : List Token}
    {x y : Tree} (hx : Expression file (phraseOf op) ts x) (ht : t.kind = op.kind)
    (hy : Expression file (phraseOf op).operand us y) :
    Expression file (phraseOf op) (ts ++ t :: us) (.operate op x y) := by
  generalize hp : phraseOf op = p at hx hy
  cases hx with
  | integer _ | float _ | identifier _ | parentheses _ _ _ =>
      exact absurd hp (phraseOf_ne_primary op)
  | chain hne hx hops =>
      rw [List.append_assoc]
      exact .chain hne hx (hops.snoc hp ht hy)

/-- An operand is a phrase without operators. -/
theorem Expression.of_operand {file : String} {p : Phrase} {ts : List Token} {x : Tree}
    (h : Expression file p.operand ts x) : Expression file p ts x := by
  by_cases hp : p = .primary
  · rw [hp] at h ⊢
    exact h
  · rw [← List.append_nil ts]
    exact .chain hp h .nil

/-! ## Statements -/

theorem Statements.append {file : String} {ts us : List Token} {body body' : List Tree}
    (h : Statements file ts body) (h' : Statements file us body') :
    Statements file (ts ++ us) (body ++ body') := by
  match h with
  | .nil => exact h'
  | .cons hx h =>
      rw [List.append_assoc, List.append_assoc]
      exact .cons hx (append h h')

theorem Statement.toStatements {file : String} {ts : List Token} {x : Option Tree}
    (h : Statement file ts x) : Statements file ts x.toList := by
  rw [← List.append_nil ts, ← List.append_nil x.toList]
  exact .cons h .nil

/-! ## Tokens of phrases

Neither the token at the end of a source nor an invalid one is in a phrase. -/

/-- A token that some phrase may have. -/
def IsProper (t : Token) : Prop := t.kind ≠ .eof ∧ t.kind ≠ .invalid

theorem isProper_operator {t : Token} {op : Operator} (h : t.kind = op.kind) : IsProper t := by
  rw [IsProper, h]
  match op with
  | .arithmetic .add | .arithmetic .sub | .arithmetic .mul | .arithmetic .div =>
      simp [Operator.kind]
  | .equal | .notEqual => simp [Operator.kind]

theorem IsProper.enclosed {l r : Token} {ts : List Token} (hl : IsProper l)
    (hts : ∀ t ∈ ts, IsProper t) (hr : IsProper r) : ∀ t ∈ l :: (ts ++ [r]), IsProper t := by
  refine List.forall_mem_cons.2 ⟨hl, List.forall_mem_append.2 ⟨hts, ?_⟩⟩
  exact List.forall_mem_singleton.2 hr

theorem Terminator.isProper {ts : List Token} (h : Terminator ts) : ∀ t ∈ ts, IsProper t := by
  cases h with
  | none => exact nofun
  | semicolon ht => simp [IsProper, ht]

mutual

theorem Expression.isProper {file : String} {p : Phrase} {ts : List Token} {x : Tree}
    (h : Expression file p ts x) : ∀ t ∈ ts, IsProper t := by
  match h with
  | .integer hk | .float hk | .identifier hk => simp [IsProper, hk]
  | .parentheses hl hx hr =>
      exact .enclosed (by simp [IsProper, hl]) hx.isProper (by simp [IsProper, hr])
  | .chain _ hx hops => exact List.forall_mem_append.2 ⟨hx.isProper, hops.isProper⟩

theorem Operations.isProper {file : String} {p : Phrase} {ts : List Token} {x y : Tree}
    (h : Operations file p x ts y) : ∀ t ∈ ts, IsProper t := by
  match h with
  | .nil => exact nofun
  | .cons _ ht hy hops =>
      exact List.forall_mem_cons.2 ⟨isProper_operator ht,
        List.forall_mem_append.2 ⟨hy.isProper, hops.isProper⟩⟩

end

mutual

theorem Statement.isProper {file : String} {ts : List Token} {x : Option Tree}
    (h : Statement file ts x) : ∀ t ∈ ts, IsProper t := by
  match h with
  | .empty hk => simp [IsProper, hk]
  | .declaration hv hi hq hx hus =>
      refine List.forall_mem_cons.2 ⟨by simp [IsProper, hv], ?_⟩
      refine List.forall_mem_cons.2 ⟨by simp [IsProper, hi], ?_⟩
      refine List.forall_mem_cons.2 ⟨by simp [IsProper, hq], ?_⟩
      exact List.forall_mem_append.2 ⟨hx.isProper, hus.isProper⟩
  | .block hl hbody hr =>
      exact .enclosed (by simp [IsProper, hl]) hbody.isProper (by simp [IsProper, hr])

theorem Statements.isProper {file : String} {ts : List Token} {body : List Tree}
    (h : Statements file ts body) : ∀ t ∈ ts, IsProper t := by
  match h with
  | .nil => exact nofun
  | .cons hx h => exact List.forall_mem_append.2 ⟨hx.isProper, h.isProper⟩

end

end Grammar

end BlockScript
