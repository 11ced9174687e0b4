import BlockScript.Proofs.Token.Spelling
import BlockScript.Proofs.Tree.Grammar

/-!
# The parser reads the grammar

A source has a program exactly if its tokens are one by the grammar, and then it is the program that
the grammar gives them (`Program.parse_iff`).

The parser is complete (`Ending.program_of_source`): where the tokens in front are a phrase, it
comes behind them with an operand, and what waits beside the operand makes it the tree of the phrase
(`Grammar.Expression.read`).  It is sound (`Ending.source_of_program`): at each point of a run, the
tokens behind it are what waits (`Pending.Holds`, `OpenBlock.Holds`), so when nothing waits any more
they are a phrase or a block.  Where a run fails, something still waits; then the tokens behind it
can go on to a phrase or a block (`Parsed.Accounts`).
-/

namespace BlockScript

open Grammar

/-! ## What waits at a phrase -/

/-- How tight a phrase binds. -/
def Grammar.Phrase.rank : Phrase → Nat
  | expression => 0
  | additive => 1
  | term => 2
  | primary => 3

theorem Grammar.Phrase.rank_operand {p : Phrase} (h : p ≠ .primary) :
    p.operand.rank = p.rank + 1 := by
  cases p with
  | primary => exact absurd rfl h
  | _ => rfl

namespace Pending

/-- The operand that waits at a phrase. -/
def waiting (w : Pending) : Phrase → Option (Tree × Operator)
  | .expression => w.comparison
  | .additive => w.sum
  | .term => w.product
  | .primary => none

/-- The phrase that `x` completes. -/
def complete (w : Pending) (x : Tree) : Phrase → Tree
  | .expression => w.whole x
  | .additive => w.additive x
  | .term => w.term x
  | .primary => x

theorem complete_eq (w : Pending) (x : Tree) (p : Phrase) :
    w.complete x p = join (w.waiting p) (w.complete x p.operand) := by
  cases p with
  | _ => rfl

/-- Nothing waits at the phrase or at a tighter one. -/
def Clear (w : Pending) (p : Phrase) : Prop := ∀ q : Phrase, p.rank ≤ q.rank → w.waiting q = none

/-- The same waits at every looser phrase. -/
def AgreesOutside (p : Phrase) (w w' : Pending) : Prop :=
  ∀ q : Phrase, q.rank < p.rank → w'.waiting q = w.waiting q

variable {w w' w'' : Pending} {p : Phrase}

theorem clear_empty (p : Phrase) : Clear {} p := by
  intro q _
  cases q with
  | _ => rfl

theorem Clear.operand (h : w.Clear p) : w.Clear p.operand := by
  by_cases hp : p = .primary
  · rw [hp] at h ⊢
    exact h
  · intro q hq
    rw [Phrase.rank_operand hp] at hq
    exact h q (Nat.le_of_succ_le hq)

theorem AgreesOutside.refl (w : Pending) : w.AgreesOutside p w := fun _ _ => rfl

theorem AgreesOutside.trans (h : w.AgreesOutside p w') (h' : w'.AgreesOutside p w'') :
    w.AgreesOutside p w'' := fun q hq => (h' q hq).trans (h q hq)

theorem AgreesOutside.of_operand (h : w.AgreesOutside p.operand w') (hp : p ≠ .primary) :
    w.AgreesOutside p w' := by
  intro q hq
  refine h q ?_
  rw [Phrase.rank_operand hp]
  exact Nat.lt_succ_of_lt hq

theorem AgreesOutside.waiting (h : w.AgreesOutside p.operand w') (hp : p ≠ .primary) :
    w'.waiting p = w.waiting p := by
  refine h p ?_
  rw [Phrase.rank_operand hp]
  exact Nat.lt_succ_self _

/-- An operator takes what is complete at its phrase, and leaves what waits at the looser ones. -/
theorem push_spec (w : Pending) (x : Tree) (op : Operator) :
    (w.push x op).waiting (phraseOf op) = some (w.complete x (phraseOf op), op) ∧
      (w.push x op).Clear (phraseOf op).operand ∧
      w.AgreesOutside (phraseOf op) (w.push x op) := by
  rcases op with (_ | _ | _ | _) | _ | _
  all_goals
    refine ⟨rfl, ?_, ?_⟩
    all_goals
      intro q hq
      cases q with
      | primary => rfl
      | _ => simp_all [push, waiting, phraseOf, Phrase.operand, Phrase.rank]

end Pending

/-! ## Expressions are read -/

namespace Ending

variable {e : Ending}

theorem expressionFrom_operand {t : Token} {x : Tree} (h : e.operand? t = some x)
    (outer : List Pending) (w : Pending) (rest : List Token) :
    e.expressionFrom outer w none (t :: rest) = e.expressionFrom outer w (some x) rest := by
  rw [expressionFrom, h]

theorem expressionFrom_leftParen {t : Token} (h : t.kind = .leftParen) (outer : List Pending)
    (w : Pending) (rest : List Token) :
    e.expressionFrom outer w none (t :: rest) = e.expressionFrom (w :: outer) {} none rest := by
  rw [expressionFrom, operand?, h]
  rfl

theorem expressionFrom_rightParen {t : Token} (h : t.kind = .rightParen) (outer : List Pending)
    (w w' : Pending) (x : Tree) (rest : List Token) :
    e.expressionFrom (w :: outer) w' (some x) (t :: rest) =
      e.expressionFrom outer w (some (w'.whole x)) rest := by
  simp only [expressionFrom, h, if_true]
  rfl

theorem expressionFrom_operator {t : Token} {op : Operator} (h : t.kind = op.kind)
    (outer : List Pending) (w : Pending) (x : Tree) (rest : List Token) :
    e.expressionFrom outer w (some x) (t :: rest) =
      e.expressionFrom outer (w.push x op) none rest := by
  rw [expressionFrom.eq_def]
  simp only [Operator.ofKind?_eq_some.2 h]

end Ending

/-- Reading the tokens of a phrase leads in front of the rest with an operand that completes the
phrase. -/
def Ending.Reads (e : Ending) (p : Phrase) (w : Pending) (x : Option Tree) (ts : List Token)
    (y : Tree) : Prop :=
  ∀ (outer : List Pending) (rest : List Token), ∃ w' y',
    e.expressionFrom outer w x (ts ++ rest) = e.expressionFrom outer w' (some y') rest ∧
      w.AgreesOutside p w' ∧ w'.complete y' p = y

mutual

theorem Grammar.Expression.read {e : Ending} {p : Phrase} {ts : List Token} {x : Tree}
    (h : Expression e.file p ts x) {w : Pending} (hw : w.Clear p) : e.Reads p w none ts x := by
  intro outer rest
  match h with
  | .integer hk | .float hk | .identifier hk =>
      refine ⟨w, _, Ending.expressionFrom_operand ?_ outer w rest, .refl w, rfl⟩
      rw [Ending.operand?, hk]
      rfl
  | .parentheses hl hx hr =>
      obtain ⟨w', x', hread, -, rfl⟩ := hx.read (Pending.clear_empty _) (w :: outer) (_ :: rest)
      refine ⟨w, _, ?_, .refl w, rfl⟩
      rw [List.cons_append, Ending.expressionFrom_leftParen hl, List.append_assoc,
        List.singleton_append, hread, Ending.expressionFrom_rightParen hr]
  | @Expression.chain _ p ts us x y hp hx hops =>
      obtain ⟨w₁, x₁, hread₁, hout₁, hx₁⟩ := hx.read hw.operand outer (us ++ rest)
      -- Nothing waits at the phrase itself yet, so its first operand is all of it so far.
      have hx₁ : w₁.complete x₁ p = x := by
        rw [Pending.complete_eq, hout₁.waiting hp, hw p (Nat.le_refl _), hx₁]
        rfl
      obtain ⟨w₂, x₂, hread₂, hout₂, hx₂⟩ := hops.read hp hx₁ outer rest
      refine ⟨w₂, x₂, ?_, (hout₁.of_operand hp).trans hout₂, hx₂⟩
      rw [List.append_assoc, hread₁, hread₂]

theorem Grammar.Operations.read {e : Ending} {p : Phrase} {ts : List Token} {x y : Tree}
    (h : Operations e.file p x ts y) (hp : p ≠ .primary) {w : Pending} {x' : Tree}
    (hx : w.complete x' p = x) : e.Reads p w (some x') ts y := by
  intro outer rest
  match h with
  | .nil => exact ⟨w, x', rfl, .refl w, hx⟩
  | @Operations.cons _ _ op _ _ us _ y _ hop ht hy hops =>
      obtain ⟨hwait, hclear, hout⟩ := w.push_spec x' op
      rw [hop] at hwait hclear hout
      obtain ⟨w₁, y₁, hread₁, hout₁, hy₁⟩ := hy.read hclear outer (us ++ rest)
      -- The left operand still waits at the phrase, and the right one completes it.
      have hy₁ : w₁.complete y₁ p = .operate op x y := by
        rw [Pending.complete_eq, hout₁.waiting hp, hwait, hy₁, hx]
        rfl
      obtain ⟨w₂, y₂, hread₂, hout₂, hy₂⟩ := hops.read hp hy₁ outer rest
      refine ⟨w₂, y₂, ?_, (hout.trans (hout₁.of_operand hp)).trans hout₂, hy₂⟩
      rw [List.cons_append, Ending.expressionFrom_operator ht, List.append_assoc, hread₁, hread₂]

end

/-- No operator is in front. -/
def NoOperator (ts : List Token) : Prop := ∀ t ∈ ts.head?, Operator.ofKind? t.kind = none

/-- The tokens of an expression are read as the expression, if it cannot go on behind them. -/
theorem Grammar.Expression.expression {e : Ending} {ts : List Token} {x : Tree}
    (h : Expression e.file .expression ts x) {rest : List Token} (hrest : NoOperator rest) :
    e.expression (ts ++ rest) = .done x rest := by
  obtain ⟨w, x', hread, -, rfl⟩ := h.read (Pending.clear_empty _) [] rest
  rw [Ending.expression, hread]
  cases rest with
  | nil => rfl
  | cons t rest =>
      rw [Ending.expressionFrom, hrest t rfl]
      rfl

/-! ## Statements are read -/

theorem NoOperator.cons {t : Token} (h : Operator.ofKind? t.kind = none) (ts : List Token) :
    NoOperator (t :: ts) := by
  rintro _ ⟨⟩
  exact h

theorem Grammar.Statement.noOperator {file : String} {ts : List Token} {x : Option Tree}
    (h : Statement file ts x) (rest : List Token) : NoOperator (ts ++ rest) := by
  cases h with
  | empty hk | declaration hk _ _ _ _ | block hk _ _ => exact .cons (by rw [hk]; rfl) _

theorem Grammar.Statements.noOperator {file : String} {ts : List Token} {body : List Tree}
    (h : Statements file ts body) {rest : List Token} (hrest : NoOperator rest) :
    NoOperator (ts ++ rest) := by
  cases h with
  | nil => exact hrest
  | cons hx _ =>
      rw [List.append_assoc]
      exact hx.noOperator _

namespace Ending

variable {e : Ending}

/-- The tokens of a declaration are read as the declaration.  A semicolon behind them is passed over
as well, if they end without one. -/
theorem declaration_of_expression {i q : Token} {name : String} {ts us : List Token} {x : Tree}
    (hi : i.kind = .identifier name) (hq : q.kind = .equal)
    (hx : Expression e.file .expression ts x) (hus : Terminator us) (site : Site)
    {rest : List Token} (hrest : NoOperator rest) :
    ∃ rest', e.declaration site (i :: q :: (ts ++ us ++ rest)) =
        .done (.declaration site name none x) rest' ∧
      (rest = rest' ∨ ∃ t, t.kind = .semicolon ∧ rest = t :: rest') := by
  have hfollow : NoOperator (us ++ rest) := by
    cases hus with
    | none => exact hrest
    | semicolon ht => exact .cons (by rw [ht]; rfl) _
  refine ⟨e.optionalSemicolon (us ++ rest), ?_, ?_⟩
  · have hname : e.name (i :: q :: (ts ++ us ++ rest)) = .done name (q :: (ts ++ us ++ rest)) := by
      simp [Ending.name, current, hi]
    have hequal : e.expect .equal (q :: (ts ++ us ++ rest)) = .done () (ts ++ us ++ rest) := by
      simp [expect, current, hq]
    rw [declaration, hname, Parsed.andThen, hequal, Parsed.andThen, List.append_assoc,
      hx.expression hfollow]
    rfl
  · cases hus with
    | semicolon ht =>
        left
        simp [optionalSemicolon, current, ht]
    | none =>
        cases rest with
        | nil =>
            left
            simp [optionalSemicolon]
        | cons t rest =>
            by_cases ht : t.kind = .semicolon
            · right
              exact ⟨t, ht, by simp [optionalSemicolon, current, ht]⟩
            · left
              simp [optionalSemicolon, current, ht]

theorem blockFrom_semicolon {t : Token} (h : t.kind = .semicolon) (b : OpenBlock)
    (outer : List OpenBlock) (ts : List Token) :
    e.blockFrom b outer (t :: ts) = e.blockFrom b outer ts := by
  rw [blockFrom.eq_def]
  simp only [h]

theorem blockFrom_leftBrace {t : Token} (h : t.kind = .leftBrace) (b : OpenBlock)
    (outer : List OpenBlock) (ts : List Token) :
    e.blockFrom b outer (t :: ts) = e.blockFrom ⟨e.siteOf t, []⟩ (b :: outer) ts := by
  rw [blockFrom.eq_def]
  simp only [h]

theorem blockFrom_rightBrace {t : Token} (h : t.kind = .rightBrace) (b o : OpenBlock)
    (outer : List OpenBlock) (ts : List Token) :
    e.blockFrom b (o :: outer) (t :: ts) = e.blockFrom (o.add b.close) outer ts := by
  rw [blockFrom, h]

theorem blockFrom_close {t : Token} (h : t.kind = .rightBrace) (b : OpenBlock) (ts : List Token) :
    e.blockFrom b [] (t :: ts) = .done b.close ts := by
  rw [blockFrom, h]

theorem blockFrom_var {t : Token} (h : t.kind = .var) {ts rest : List Token} {d : Tree}
    (hd : e.declaration (e.siteOf t) ts = .done d rest) (b : OpenBlock) (outer : List OpenBlock) :
    e.blockFrom b outer (t :: ts) = e.blockFrom (b.add d) outer rest := by
  rw [blockFrom.eq_def]
  simp only [h]
  rw [hd]

theorem statements_of_statement {ts rest : List Token} {x : Option Tree}
    (h : e.statement ts = .done x rest) (reversed : List Tree) :
    e.statements reversed ts = e.statements (x.toList ++ reversed) rest := by
  cases ts with
  | nil => cases h
  | cons t ts =>
      rw [statements, h]
      cases x with
      | none => rfl
      | some x => rfl

end Ending

/-- The block with more statements. -/
def OpenBlock.addAll (b : OpenBlock) (ts : List Tree) : OpenBlock :=
  { b with reversed := ts.reverse ++ b.reversed }

theorem OpenBlock.close_addAll (site : Site) (ts : List Tree) :
    (addAll ⟨site, []⟩ ts).close = .block site ts := by
  simp [close, addAll]

theorem OpenBlock.addAll_append (b : OpenBlock) (ts us : List Tree) :
    b.addAll (ts ++ us) = (b.addAll ts).addAll us := by
  simp [addAll]

mutual

/-- The tokens of a statement are read in a block as the statement. -/
theorem Grammar.Statement.blockFrom {e : Ending} {ts : List Token} {x : Option Tree}
    (h : Statement e.file ts x) (b : OpenBlock) (outer : List OpenBlock) {rest : List Token}
    (hrest : NoOperator rest) :
    e.blockFrom b outer (ts ++ rest) = e.blockFrom (b.addAll x.toList) outer rest := by
  match h with
  | .empty hk => exact Ending.blockFrom_semicolon hk b outer rest
  | .declaration hv hi hq hx hus =>
      obtain ⟨rest', hd, hrest'⟩ := Ending.declaration_of_expression hi hq hx hus _ hrest
      refine (Ending.blockFrom_var hv hd b outer).trans ?_
      obtain rfl | ⟨t, ht, rfl⟩ := hrest'
      · rfl
      · exact (Ending.blockFrom_semicolon ht _ outer rest').symm
  | @Statement.block _ l r us body hl hbody hr =>
      have hclose : NoOperator (r :: rest) := .cons (by rw [hr]; rfl) rest
      rw [List.cons_append, List.append_assoc, List.singleton_append,
        Ending.blockFrom_leftBrace hl, hbody.blockFrom _ (b :: outer) hclose,
        Ending.blockFrom_rightBrace hr, OpenBlock.close_addAll]
      rfl

theorem Grammar.Statements.blockFrom {e : Ending} {ts : List Token} {body : List Tree}
    (h : Statements e.file ts body) (b : OpenBlock) (outer : List OpenBlock) {rest : List Token}
    (hrest : NoOperator rest) :
    e.blockFrom b outer (ts ++ rest) = e.blockFrom (b.addAll body) outer rest := by
  match h with
  | .nil => rfl
  | .cons hx h =>
      rw [List.append_assoc, hx.blockFrom b outer (h.noOperator hrest),
        h.blockFrom _ outer hrest, OpenBlock.addAll_append]

end

/-- The tokens of a statement are read outside of all blocks as the statement. -/
theorem Grammar.Statement.statements {e : Ending} {ts : List Token} {x : Option Tree}
    (h : Statement e.file ts x) (reversed : List Tree) {rest : List Token}
    (hrest : NoOperator rest) :
    e.statements reversed (ts ++ rest) = e.statements (x.toList ++ reversed) rest := by
  cases h with
  | empty hk =>
      refine Ending.statements_of_statement ?_ reversed
      simp [Ending.statement, hk]
  | @declaration v _ _ name _ _ x hv hi hq hx hus =>
      obtain ⟨rest', hd, hrest'⟩ := Ending.declaration_of_expression hi hq hx hus (e.siteOf v) hrest
      have hpass : ∀ body, e.statements body rest = e.statements body rest' := by
        intro body
        obtain rfl | ⟨t, ht, rfl⟩ := hrest'
        · rfl
        · refine Ending.statements_of_statement (x := none) ?_ body
          simp [Ending.statement, ht]
      rw [hpass]
      refine Ending.statements_of_statement ?_ reversed
      rw [List.cons_append, Ending.statement, hv, List.cons_append, List.cons_append, hd]
      rfl
  | @block l r us body hl hbody hr =>
      have hclose : NoOperator (r :: rest) := .cons (by rw [hr]; rfl) rest
      refine Ending.statements_of_statement ?_ reversed
      rw [List.cons_append, Ending.statement, hl, List.append_assoc, List.singleton_append,
        hbody.blockFrom _ [] hclose, Ending.blockFrom_close hr, OpenBlock.close_addAll]
      rfl

theorem Grammar.Statements.statements {e : Ending} {ts : List Token} {body : List Tree}
    (h : Statements e.file ts body) (reversed : List Tree) :
    e.statements reversed ts = .done (reversed.reverse ++ body) [] := by
  match h with
  | .nil =>
      rw [Ending.statements, List.append_nil]
      rfl
  | .cons (x := x) hx h =>
      have hend : NoOperator [] := fun _ ht => nomatch ht
      have hrest := h.noOperator hend
      rw [List.append_nil] at hrest
      rw [hx.statements reversed hrest, h.statements]
      cases x with
      | none => rfl
      | some x => simp

/-- The parser reads every program of the grammar. -/
theorem Ending.program_of_source {e : Ending} {ts : List Token} {p : Program}
    (h : Source e.file (ts ++ [e.finish]) p) : e.program ts = .done p [] := by
  generalize hall : ts ++ [e.finish] = all at h
  cases h with
  | intro hs _ =>
      obtain ⟨rfl, hlast⟩ := List.append_inj' hall rfl
      cases hlast
      rw [program, hs.statements]
      rfl

/-! ## What reading accounts for -/

/-- The tokens can go on to something derivable. -/
def Viable (derivable : List Token → Prop) (ts : List Token) : Prop :=
  ∃ more, derivable (ts ++ more)

theorem Viable.of_isPrefix {derivable : List Token → Prop} {ts us : List Token}
    (h : Viable derivable us) (hts : ts <+: us) : Viable derivable ts := by
  obtain ⟨more, hmore⟩ := h
  obtain ⟨rest, rfl⟩ := hts
  exact ⟨rest ++ more, by rwa [← List.append_assoc]⟩

theorem Viable.imp {derivable derivable' : List Token → Prop} {ts : List Token}
    (h : Viable derivable ts) (himp : ∀ ts, derivable ts → derivable' ts) :
    Viable derivable' ts := by
  obtain ⟨more, hmore⟩ := h
  exact ⟨more, himp _ hmore⟩

/-- A token of a kind, wherever it stands. -/
def Token.ofKind (k : Token.Kind) : Token := ⟨k, [], .start, .start⟩

namespace Parsed

/-- The outcome of reading behind the tokens `read` accounts for all tokens up to where it comes:
they are the tokens of the value, or can go on to tokens of a value. -/
inductive Accounts {α : Type} (derives : List Token → α → Prop) (read : List Token) :
    List Token → Parsed α → Prop where
  | done {used rest : List Token} {a : α} : derives (read ++ used) a →
      Accounts derives read (used ++ rest) (.done a rest)
  | failed {used rest : List Token} {error : SyntaxError} :
      Viable (fun ts => ∃ a, derives ts a) (read ++ used) →
      Accounts derives read (used ++ rest) (.failed error rest)

namespace Accounts

variable {α β : Type} {derives : List Token → α → Prop} {read ts rest : List Token} {x : Parsed α}

theorem stop {a : α} (h : derives read a) : Accounts derives read rest (.done a rest) :=
  @done _ derives read [] rest a (by rwa [List.append_nil])

theorem stuck {error : SyntaxError} (h : Viable (fun ts => ∃ a, derives ts a) read) :
    Accounts derives read rest (.failed error rest) :=
  @failed _ derives read [] rest error (by rwa [List.append_nil])

/-- More tokens were read in front. -/
theorem append {us : List Token} (h : Accounts derives (read ++ us) ts x) :
    Accounts derives read (us ++ ts) x := by
  cases h with
  | @done used rest a h =>
      rw [← List.append_assoc]
      exact .done (by rwa [← List.append_assoc])
  | @failed used rest error h =>
      rw [← List.append_assoc]
      exact .failed (by rwa [← List.append_assoc])

theorem cons {t : Token} (h : Accounts derives (read ++ [t]) ts x) :
    Accounts derives read (t :: ts) x := append h

/-- Tokens in front that the reading has nothing to do with. -/
theorem behind (h : Accounts derives [] ts x) (read : List Token) :
    Accounts (fun ts a => ∃ us, ts = read ++ us ∧ derives us a) read ts x := by
  cases h with
  | done h => exact .done ⟨_, rfl, h⟩
  | failed h =>
      obtain ⟨more, a, ha⟩ := h
      exact .failed ⟨more, a, _, List.append_assoc .., ha⟩

theorem map (h : Accounts derives read ts x) {derives' : List Token → β → Prop} {f : α → β}
    (hf : ∀ ts a, derives ts a → derives' ts (f a)) : Accounts derives' read ts (x.map f) := by
  cases h with
  | done h => exact .done (hf _ _ h)
  | failed h =>
      refine .failed (h.imp ?_)
      rintro ts ⟨a, ha⟩
      exact ⟨f a, hf ts a ha⟩

/-- One reading behind the other.  What the first is derived from must be able to go on. -/
theorem andThen (h : Accounts derives read ts x) {derives' : List Token → β → Prop}
    {f : α → List Token → Parsed β}
    (hviable : ∀ us a, derives us a → Viable (fun ts => ∃ b, derives' ts b) us)
    (hf : ∀ us a, derives us a → ∀ ts, Accounts derives' us ts (f a ts)) :
    Accounts derives' read ts (x.andThen f) := by
  cases h with
  | done h => exact (hf _ _ h _).append
  | failed h =>
      obtain ⟨more, a, ha⟩ := h
      exact .failed ((hviable _ a ha).of_isPrefix (List.prefix_append _ _))

theorem of_done {a : α} (h : Accounts derives read ts (.done a rest)) :
    ∃ used, ts = used ++ rest ∧ derives (read ++ used) a := by
  cases h with
  | done h => exact ⟨_, rfl, h⟩

theorem of_failed {error : SyntaxError} (h : Accounts derives read ts (.failed error rest)) :
    ∃ used, ts = used ++ rest ∧ Viable (fun ts => ∃ a, derives ts a) (read ++ used) := by
  cases h with
  | failed h => exact ⟨_, rfl, h⟩

end Accounts

end Parsed

/-! ## What is read is an expression -/

/-- The tokens are an operand that waits at a phrase and the operator behind it, or nothing. -/
inductive Waits (file : String) (p : Phrase) : List Token → Option (Tree × Operator) → Prop where
  | none : Waits file p [] none
  | some {ts : List Token} {t : Token} {x : Tree} {op : Operator} : Expression file p ts x →
      phraseOf op = p → t.kind = op.kind → Waits file p (ts ++ [t]) (some (x, op))

/-- What waits at a phrase is completed by an operand. -/
theorem Waits.join {file : String} {p : Phrase} {ts us : List Token} {w : Option (Tree × Operator)}
    {x : Tree} (h : Waits file p ts w) (hx : Expression file p.operand us x) :
    Expression file p (ts ++ us) (Pending.join w x) := by
  cases h with
  | none => exact hx.of_operand
  | some hy hp ht =>
      subst hp
      rw [List.append_assoc]
      exact hy.operation ht hx

/-- The tokens are all that waits, the loosest phrase first. -/
def Pending.Holds (file : String) (w : Pending) (ts : List Token) : Prop :=
  ∃ us vs ws, ts = us ++ (vs ++ ws) ∧ Waits file .expression us w.comparison ∧
    Waits file .additive vs w.sum ∧ Waits file .term ws w.product

namespace Pending.Holds

variable {file : String} {w : Pending} {ts us : List Token} {x : Tree}

theorem empty (file : String) : Holds file {} [] := ⟨[], [], [], rfl, .none, .none, .none⟩

/-- An operand completes the expression. -/
theorem whole (h : Holds file w ts) (hx : Expression file .primary us x) :
    Expression file .expression (ts ++ us) (w.whole x) := by
  obtain ⟨cs, ss, ps, rfl, hc, hs, hp⟩ := h
  rw [List.append_assoc, List.append_assoc]
  exact hc.join (hs.join (hp.join hx))

/-- An operand and an operator wait at the phrase of the operator. -/
theorem push (h : Holds file w ts) (hx : Expression file .primary us x) {t : Token} {op : Operator}
    (ht : t.kind = op.kind) : Holds file (w.push x op) (ts ++ us ++ [t]) := by
  obtain ⟨cs, ss, ps, rfl, hc, hs, hp⟩ := h
  match op with
  | .arithmetic .mul | .arithmetic .div =>
      exact ⟨cs, ss, ps ++ us ++ [t], by simp, hc, hs, .some (hp.join hx) rfl ht⟩
  | .arithmetic .add | .arithmetic .sub =>
      exact ⟨cs, ss ++ (ps ++ us) ++ [t], [], by simp, hc,
        .some (hs.join (hp.join hx)) rfl ht, .none⟩
  | .equal | .notEqual =>
      exact ⟨cs ++ (ss ++ (ps ++ us)) ++ [t], [], [], by simp,
        .some (hc.join (hs.join (hp.join hx))) rfl ht, .none, .none⟩

end Pending.Holds

/-- The tokens are what waits inside the innermost open parenthesis and outside of each. -/
inductive Pending.HoldAll (file : String) : List Pending → Pending → List Token → Prop where
  | root {w : Pending} {ts : List Token} : w.Holds file ts → HoldAll file [] w ts
  | inside {outer : List Pending} {w w' : Pending} {ts us : List Token} {l : Token} :
      HoldAll file outer w ts → l.kind = .leftParen → w'.Holds file us →
      HoldAll file (w :: outer) w' (ts ++ l :: us)

/-- What waits inside the innermost parenthesis, and the tokens in front of it. -/
theorem Pending.HoldAll.push {file : String} {outer : List Pending} {w : Pending}
    {ts us : List Token} {x : Tree} (h : HoldAll file outer w ts)
    (hx : Expression file .primary us x) {t : Token} {op : Operator} (ht : t.kind = op.kind) :
    HoldAll file outer (w.push x op) (ts ++ us ++ [t]) := by
  cases h with
  | root hw => exact .root (hw.push hx ht)
  | inside ho hl hw =>
      rw [List.append_assoc, List.append_assoc, List.cons_append, ← List.append_assoc _ us]
      exact .inside ho hl (hw.push hx ht)

/-- An operand and the closing parentheses complete what waits. -/
theorem Pending.HoldAll.viable {file : String} {outer : List Pending} {w : Pending}
    {us : List Token} (h : HoldAll file outer w us) : ∀ {vs : List Token} {x : Tree},
      Expression file .primary vs x →
        Viable (fun ts => ∃ y, Expression file .expression ts y) (us ++ vs) := by
  induction h with
  | root hw => exact fun hx => ⟨[], _, by simpa using hw.whole hx⟩
  | @inside outer w w' ts us l _ hl hw' ih =>
      intro vs x hx
      have hr : (Token.ofKind .rightParen).kind = .rightParen := rfl
      obtain ⟨more, y, hy⟩ := ih (.parentheses hl (hw'.whole hx) hr)
      exact ⟨.ofKind .rightParen :: more, y, by simpa using hy⟩

/-- The same if the operand is still missing. -/
theorem Pending.HoldAll.viable_of_missing {file : String} {outer : List Pending} {w : Pending}
    {us : List Token} (h : HoldAll file outer w us) :
    Viable (fun ts => ∃ y, Expression file .expression ts y) us :=
  (h.viable (.identifier (t := .ofKind (.identifier "x")) rfl)).of_isPrefix (List.prefix_append _ _)

/-- The tokens are the operand just read, if one was. -/
inductive JustRead (file : String) : Option Tree → List Token → Prop where
  | nothing : JustRead file none []
  | operand {ts : List Token} {x : Tree} : Expression file .primary ts x →
      JustRead file (some x) ts

namespace Ending

variable {e : Ending}

theorem primary_of_operand? {t : Token} {x : Tree} (h : e.operand? t = some x) :
    Expression e.file .primary [t] x := by
  rw [operand?] at h
  split at h
  next hk =>
    cases h
    exact .integer hk
  next hk =>
    cases h
    exact .float hk
  next hk =>
    cases h
    exact .identifier hk
  next => cases h

/-- The tokens behind a run and those that it takes are an expression, or can go on to one. -/
theorem expressionFrom_accounts {outer : List Pending} {w : Pending} {x : Option Tree}
    {ts us vs : List Token} (hw : Pending.HoldAll e.file outer w us) (hx : JustRead e.file x vs) :
    Parsed.Accounts (Expression e.file .expression) (us ++ vs) ts
      (e.expressionFrom outer w x ts) := by
  -- Each case moves the token in front over to `us` or `vs`, and so keeps what they hold.
  fun_induction expressionFrom e outer w x ts generalizing us vs with
  | case1 | case4 =>
      cases hx
      exact .stuck (by simpa using hw.viable_of_missing)
  | case2 outer w t ts x hk ih =>
      cases hx
      have hnext := ih hw (.operand (primary_of_operand? hk))
      exact .cons (by simpa using hnext)
  | case3 outer w t ts _ hk ih =>
      cases hx
      have hnext := ih (.inside hw hk (.empty _)) .nothing
      exact .cons (by simpa using hnext)
  | case5 | case8 =>
      cases hx with
      | operand hx =>
          cases hw with
          | root hw => exact .stop (hw.whole hx)
  | case6 | case10 =>
      cases hx with
      | operand hx => exact .stuck (hw.viable hx)
  | case7 outer w x t ts op hop ih =>
      cases hx with
      | operand hx =>
          have hnext := ih (hw.push hx (Operator.ofKind?_eq_some.1 hop)) .nothing
          exact .cons (by simpa using hnext)
  | case9 w x t ts hop q outer hk ih =>
      cases hx with
      | operand hx =>
          cases hw with
          | @inside _ _ _ us us' l hw hl hw' =>
              have hnext := ih hw (.operand (.parentheses hl (hw'.whole hx) hk))
              exact .cons (by simpa using hnext)

theorem expression_accounts (ts : List Token) :
    Parsed.Accounts (Expression e.file .expression) [] ts (e.expression ts) :=
  expressionFrom_accounts (.root (.empty _)) .nothing

end Ending

/-! ## What is read is a program -/

/-- The tokens are a block from its opening brace on, as far as it was read. -/
def OpenBlock.Holds (file : String) (b : OpenBlock) (ts : List Token) : Prop :=
  ∃ l us, ts = l :: us ∧ l.kind = .leftBrace ∧ b.site = Grammar.site file l ∧
    Statements file us b.reversed.reverse

/-- The tokens are the open blocks, the innermost last. -/
inductive OpenBlock.HoldAll (file : String) : OpenBlock → List OpenBlock → List Token → Prop where
  | root {b : OpenBlock} {ts : List Token} : b.Holds file ts → HoldAll file b [] ts
  | inside {b o : OpenBlock} {outer : List OpenBlock} {ts us : List Token} :
      HoldAll file o outer ts → b.Holds file us → HoldAll file b (o :: outer) (ts ++ us)

namespace OpenBlock

variable {file : String} {b : OpenBlock} {outer : List OpenBlock} {ts us : List Token}

theorem Holds.addAll {x : Option Tree} (h : b.Holds file ts) (hx : Statement file us x) :
    (b.addAll x.toList).Holds file (ts ++ us) := by
  obtain ⟨l, vs, rfl, hl, hsite, hs⟩ := h
  refine ⟨l, vs ++ us, rfl, hl, hsite, ?_⟩
  rw [OpenBlock.addAll, List.reverse_append, List.reverse_reverse]
  exact hs.append hx.toStatements

theorem Holds.close {r : Token} (h : b.Holds file ts) (hr : r.kind = .rightBrace) :
    Statement file (ts ++ [r]) (some b.close) := by
  obtain ⟨l, vs, rfl, hl, hsite, hs⟩ := h
  rw [OpenBlock.close, hsite]
  exact .block hl hs hr

theorem HoldAll.addAll {x : Option Tree} (h : HoldAll file b outer ts) (hx : Statement file us x) :
    HoldAll file (b.addAll x.toList) outer (ts ++ us) := by
  cases h with
  | root hb => exact .root (hb.addAll hx)
  | inside ho hb =>
      rw [List.append_assoc]
      exact .inside ho (hb.addAll hx)

/-- The closing braces complete the blocks. -/
theorem HoldAll.viable (h : HoldAll file b outer ts) :
    Viable (fun ts => ∃ x, Statement file ts (some x)) ts := by
  have hr : (Token.ofKind .rightBrace).kind = .rightBrace := rfl
  induction outer generalizing b ts with
  | nil =>
      cases h with
      | root hb => exact ⟨_, _, hb.close hr⟩
  | cons o outer ih =>
      cases h with
      | inside ho hb =>
          refine (ih (ho.addAll (hb.close hr))).of_isPrefix ?_
          rw [← List.append_assoc]
          exact List.prefix_append _ _

end OpenBlock

namespace Parsed

variable {α : Type} {x : Parsed α}

theorem result_eq_ok {a : α} : x.result = .ok a ↔ ∃ rest, x = .done a rest := by
  cases x with
  | done a ts => simp [result]
  | failed error ts => simp [result]

theorem result_eq_error {error : SyntaxError} :
    x.result = .error error ↔ ∃ rest, x = .failed error rest := by
  cases x with
  | done a ts => simp [result]
  | failed error ts => simp [result]

end Parsed

namespace Ending

variable {e : Ending}

theorem name_accounts (hfinish : e.finish.kind = .eof) (read ts : List Token) :
    Parsed.Accounts (fun ts name => ∃ i : Token, ts = read ++ [i] ∧ i.kind = .identifier name) read
      ts (e.name ts) := by
  rw [Ending.name]
  split
  next name hk =>
    cases ts with
    | nil => cases hfinish.symm.trans hk
    | cons i ts => exact .cons (.stop ⟨i, rfl, hk⟩)
  next => exact .stuck ⟨[.ofKind (.identifier "x")], "x", _, rfl, rfl⟩

theorem expect_accounts {wanted : Token.Kind} (hwanted : e.finish.kind ≠ wanted)
    (read ts : List Token) :
    Parsed.Accounts (fun ts _ => ∃ t : Token, ts = read ++ [t] ∧ t.kind = wanted) read ts
      (e.expect wanted ts) := by
  rw [expect]
  split
  next hk =>
    cases ts with
    | nil => exact absurd hk hwanted
    | cons t ts => exact .cons (.stop ⟨t, rfl, hk⟩)
  next => exact .stuck ⟨[.ofKind wanted], (), _, rfl, rfl⟩

theorem optionalSemicolon_sound (e : Ending) (ts : List Token) :
    ∃ us, ts = us ++ e.optionalSemicolon ts ∧ Terminator us := by
  cases ts with
  | nil => exact ⟨[], by simp [optionalSemicolon], .none⟩
  | cons t ts =>
      by_cases ht : t.kind = .semicolon
      · exact ⟨[t], by simp [optionalSemicolon, current, ht], .semicolon ht⟩
      · exact ⟨[], by simp [optionalSemicolon, current, ht], .none⟩

/-- The token `var` and what is read behind it are a declaration, or can go on to one. -/
theorem declaration_accounts (hfinish : e.finish.kind = .eof) {v : Token} (hv : v.kind = .var)
    (ts : List Token) :
    Parsed.Accounts (fun ts d => Statement e.file ts (some d)) [v] ts
      (e.declaration (e.siteOf v) ts) := by
  obtain ⟨more, y, hy⟩ := (Pending.HoldAll.root (.empty e.file)).viable_of_missing
  rw [List.nil_append] at hy
  have hq : (Token.ofKind .equal).kind = .equal := rfl
  refine (name_accounts hfinish [v] ts).andThen ?_ ?_
  · rintro _ name ⟨i, rfl, hi⟩
    exact ⟨.ofKind .equal :: more, _, by simpa using Statement.declaration hv hi hq hy .none⟩
  rintro _ name ⟨i, rfl, hi⟩ ts
  refine (expect_accounts (by simp [hfinish]) _ ts).andThen ?_ ?_
  · rintro _ _ ⟨q, rfl, hq⟩
    exact ⟨more, _, by simpa using Statement.declaration hv hi hq hy .none⟩
  rintro _ _ ⟨q, rfl, hq⟩ ts
  refine ((expression_accounts ts).behind _).andThen ?_ ?_
  · rintro _ x ⟨us, rfl, hx⟩
    exact ⟨[], _, by simpa using Statement.declaration hv hi hq hx .none⟩
  rintro _ x ⟨us, rfl, hx⟩ ts
  obtain ⟨vs, hvs, hterm⟩ := e.optionalSemicolon_sound ts
  generalize e.optionalSemicolon ts = rest at hvs
  subst hvs
  have hwhole := Statement.declaration hv hi hq hx hterm
  refine .done ?_
  rw [List.append_assoc]
  exact hwhole

/-- The tokens behind a run in open blocks and those that it takes are a block, or can go on to
one. -/
theorem blockFrom_accounts (hfinish : e.finish.kind = .eof) {b : OpenBlock} {outer : List OpenBlock}
    {ts us : List Token} (hb : OpenBlock.HoldAll e.file b outer us) :
    Parsed.Accounts (fun ts x => Statement e.file ts (some x)) us ts (e.blockFrom b outer ts) := by
  fun_induction blockFrom e b outer ts generalizing us with
  | case1 | case8 => exact .stuck hb.viable
  | case2 b outer t ts hk ih => exact .cons (ih (hb.addAll (.empty hk)))
  | case3 b outer t ts hk ih => exact .cons (ih (.inside hb ⟨t, [], rfl, hk, rfl, .nil⟩))
  | case4 b t ts hk =>
      cases hb with
      | root hb => exact .cons (.stop (hb.close hk))
  | case5 b t ts hk o outer ih =>
      cases hb with
      | inside ho hb =>
          refine .cons (ih ?_)
          rw [List.append_assoc]
          exact ho.addAll (hb.close hk)
  | case6 b outer t ts hk error rest hd =>
      have hdecl := declaration_accounts hfinish hk ts
      rw [hd] at hdecl
      obtain ⟨used, rfl, more, d, hmore⟩ := hdecl.of_failed
      refine @Parsed.Accounts.failed _ _ us (t :: used) rest error ?_
      refine (hb.addAll hmore).viable.of_isPrefix ⟨more, ?_⟩
      simp
  | case7 b outer t ts hk d rest hd ih =>
      have hdecl := declaration_accounts hfinish hk ts
      rw [hd] at hdecl
      obtain ⟨used, rfl, hstatement⟩ := hdecl.of_done
      exact (ih (hb.addAll hstatement)).append

theorem statement_accounts (hfinish : e.finish.kind = .eof) (ts : List Token) :
    Parsed.Accounts (Statement e.file) [] ts (e.statement ts) := by
  fun_cases statement e ts with
  | case1 | case5 => exact .stuck ⟨[.ofKind .semicolon], none, .empty rfl⟩
  | case2 t ts hk => exact .cons (.stop (.empty hk))
  | case3 t ts hk => exact .cons ((declaration_accounts hfinish hk ts).map fun _ _ h => h)
  | case4 t ts hk =>
      exact .cons ((blockFrom_accounts hfinish (.root ⟨t, [], rfl, hk, rfl, .nil⟩)).map
        fun _ _ h => h)

/-- The tokens of what is read as a statement are one. -/
theorem statement_sound (hfinish : e.finish.kind = .eof) {ts rest : List Token} {x : Option Tree}
    (h : e.statement ts = .done x rest) :
    ∃ used, ts = used ++ rest ∧ Statement e.file used x := by
  have haccounts := statement_accounts hfinish ts
  rw [h] at haccounts
  exact haccounts.of_done

/-- The tokens that are read as statements are statements. -/
theorem statements_sound (hfinish : e.finish.kind = .eof) {reversed : List Tree} {ts : List Token}
    {body : List Tree} {rest : List Token} (h : e.statements reversed ts = .done body rest) :
    ∃ body', body = reversed.reverse ++ body' ∧ Statements e.file ts body' := by
  fun_induction statements e reversed ts with
  | case1 reversed ts hts =>
      cases h
      obtain rfl := List.isEmpty_iff.1 hts
      exact ⟨[], by simp, .nil⟩
  | case2 => cases h
  | case3 reversed ts hts rest' hstatement ih =>
      obtain ⟨body', rfl, hbody⟩ := ih h
      obtain ⟨used, rfl, hx⟩ := statement_sound hfinish hstatement
      exact ⟨body', rfl, .cons hx hbody⟩
  | case4 reversed ts hts t rest' hstatement ih =>
      obtain ⟨body', rfl, hbody⟩ := ih h
      obtain ⟨used, rfl, hx⟩ := statement_sound hfinish hstatement
      exact ⟨t :: body', by simp, .cons hx hbody⟩

/-- The parser reads only programs of the grammar. -/
theorem source_of_program (hfinish : e.finish.kind = .eof) {ts rest : List Token} {p : Program}
    (h : e.program ts = .done p rest) : Source e.file (ts ++ [e.finish]) p := by
  rw [program] at h
  split at h
  next hs =>
    cases h
    obtain ⟨body, rfl, hbody⟩ := statements_sound hfinish hs
    exact .intro hbody hfinish
  next => cases h

end Ending

/-! ## Sources -/

theorem Program.source_of_parse {file source : String} {p : Program}
    (h : parse file source = .ok p) : Source file (Tokens.ofSource source).toList p := by
  obtain ⟨rest, hdone⟩ := Parsed.result_eq_ok.1 h
  exact Ending.source_of_program (Tokens.kind_finish_ofSource source) hdone

theorem Program.parse_of_source {file source : String} {p : Program}
    (h : Source file (Tokens.ofSource source).toList p) : parse file source = .ok p :=
  Parsed.result_eq_ok.2 ⟨[], Ending.program_of_source h⟩

/-- A source has a program with these statements if its tokens in front of the end are the
statements by the grammar. -/
theorem Program.exists_parse_iff {file source : String} {body : List Tree} :
    (∃ p, parse file source = .ok p ∧ p.body = body) ↔
      Statements file (Tokens.ofSource source).items body := by
  constructor
  · rintro ⟨p, h, rfl⟩
    have hsource := source_of_parse h
    generalize hall : (Tokens.ofSource source).toList = all at hsource
    cases hsource with
    | intro hs _ =>
        obtain ⟨hitems, -⟩ := List.append_inj' hall rfl
        rwa [hitems]
  · intro h
    exact ⟨_, parse_of_source (.intro h (Tokens.kind_finish_ofSource source)), rfl⟩

/-- A source has a program if something can be computed from it. -/
theorem Program.exists_parse_of_map {α : Type} {file source : String} {f : Program → α} {a : α}
    (h : (parse file source).toOption.map f = some a) :
    ∃ p, parse file source = .ok p ∧ f p = a := by
  cases hparse : parse file source with
  | error e =>
      rw [hparse] at h
      cases h
  | ok p =>
      rw [hparse] at h
      exact ⟨p, rfl, Option.some.inj h⟩

/-- A source has a program exactly if its tokens, with the one at the end, are a program by the
grammar; and then it is the program that the grammar gives. -/
theorem Program.parse_iff (file source : String) (p : Program) :
    parse file source = .ok p ↔ Source file (Tokens.ofSource source).toList p :=
  ⟨source_of_parse, parse_of_source⟩

end BlockScript
