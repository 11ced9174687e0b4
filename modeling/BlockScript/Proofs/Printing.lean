import BlockScript.Proofs.Parsing
import BlockScript.Proofs.Token.Spelling
import BlockScript.Proofs.Tree.Erasure

/-!
# Parsing undoes printing

A tree is printed as tokens (`Tree.printed`): a semicolon ends every declaration, braces enclose a
block, and parentheses enclose an operand only where it would otherwise be read as another.  A text
is a printed form of a program if it has spellings of these tokens, with any blanks between them
(`Program.PrintedAs`).

Every program that can be printed has a printed form, and parsing any of them gives the program
back, up to its notes and locations.  Every program that is parsed from a source can be printed
(`Program.parse_printed`).

The tokens of a printed tree are the tree again by the grammar (`Tree.exists_expression`,
`Tree.exists_statement`), a printed form is scanned as the tokens that it spells (`Written.scan`),
and the parser reads what the grammar says.
-/

namespace BlockScript

open Grammar

/-! ## Printing -/

/-- How tight an operator binds. -/
def Operator.level : Operator → Nat
  | .equal | .notEqual => 0
  | .arithmetic .add | .arithmetic .sub => 1
  | .arithmetic .mul | .arithmetic .div => 2

namespace Tree

/-- Whether the tree is an operation whose operator binds looser than the level. -/
def bindsBelow (level : Nat) : Tree → Bool
  | operation _ op _ _ => op.level < level
  | _ => false

/-- The tokens, in parentheses if these are needed. -/
def enclosed (needed : Bool) (ks : List Token.Kind) : List Token.Kind :=
  if needed then .leftParen :: (ks ++ [.rightParen]) else ks

mutual

/-- The tokens that a tree is printed as.  A left operand needs parentheses if it binds looser than
the operator, and a right operand also if it binds as tight. -/
def printed : Tree → List Token.Kind
  | block _ body => .leftBrace :: (printedAll body ++ [.rightBrace])
  | declaration _ name _ init =>
      .var :: .identifier name :: .equal :: (init.printed ++ [.semicolon])
  | operation _ op left right =>
      enclosed (left.bindsBelow op.level) left.printed ++
        op.kind :: enclosed (right.bindsBelow (op.level + 1)) right.printed
  | identifier _ name _ => [.identifier name]
  | literal _ (.integer n) _ => [.integer n.toNat]
  | literal _ (.float x) _ => [.float x]

/-- The tokens that statements are printed as. -/
def printedAll : List Tree → List Token.Kind
  | [] => []
  | t :: ts => t.printed ++ printedAll ts

end

end Tree

/-- A number has a literal if it is an integer that is not negative and fits into 64 bits with a
sign, or a double that some literal denotes. -/
def Number.Printable : Number → Prop
  | integer n => 0 ≤ n ∧ n < 9223372036854775808
  | float x => ∃ text, (Token.Kind.float x).Spelled text

namespace Tree

/-- The tree is an expression, with names and numbers that can be written. -/
def IsExpression : Tree → Prop
  | operation _ _ left right => left.IsExpression ∧ right.IsExpression
  | identifier _ name _ => IsVariableName name
  | literal _ value _ => value.Printable
  | _ => False

mutual

/-- The tree is a declaration or a block, with names and numbers that can be written. -/
def IsStatement : Tree → Prop
  | block _ body => AreStatements body
  | declaration _ name _ init => IsVariableName name ∧ init.IsExpression
  | _ => False

/-- The trees are declarations and blocks. -/
def AreStatements : List Tree → Prop
  | [] => True
  | t :: ts => t.IsStatement ∧ AreStatements ts

end

end Tree

namespace Program

/-- The program is made of declarations and blocks, with names and numbers that can be written. -/
def Printable (p : Program) : Prop := Tree.AreStatements p.body

/-- The text is a printed form of the program. -/
def PrintedAs (p : Program) (text : String) : Prop := Written (Tree.printedAll p.body) text.toList

end Program

/-! ## Printed trees are read -/

theorem Grammar.rank_phraseOf (op : Operator) : (phraseOf op).rank = op.level := by
  match op with
  | .arithmetic .add | .arithmetic .sub | .arithmetic .mul | .arithmetic .div => rfl
  | .equal | .notEqual => rfl

/-- A tight phrase is a loose one. -/
theorem Grammar.Expression.of_rank_le {file : String} {ts : List Token} {x : Tree} :
    ∀ {p q : Phrase}, p.rank ≤ q.rank → Expression file q ts x → Expression file p ts x
  | .expression, .expression, _, h => h
  | .expression, .additive, _, h => h.of_operand
  | .expression, .term, _, h => h.of_operand.of_operand
  | .expression, .primary, _, h => h.of_operand.of_operand.of_operand
  | .additive, .additive, _, h => h
  | .additive, .term, _, h => h.of_operand
  | .additive, .primary, _, h => h.of_operand.of_operand
  | .term, .term, _, h => h
  | .term, .primary, _, h => h.of_operand
  | .primary, .primary, _, h => h

theorem Grammar.Expression.of_primary {file : String} {ts : List Token} {x : Tree}
    (h : Expression file .primary ts x) (p : Phrase) : Expression file p ts x := by
  refine h.of_rank_le ?_
  cases p with
  | _ => decide

namespace Tree

/-- Tokens of these kinds are the tree, as a phrase that it does not bind too loose for. -/
def ReadsBack (file : String) (x : Tree) (ks : List Token.Kind) (p : Phrase) : Prop :=
  ∀ ts : List Token, ts.map Token.kind = ks →
    ∃ y, Expression file p ts y ∧ y.unplaced = x.bare.unplaced

theorem bindsBelow_zero (x : Tree) : x.bindsBelow 0 = false := by
  cases x with
  | _ => rfl

/-- An expression in parentheses is a phrase of any kind. -/
theorem readsBack_enclosed {file : String} {x : Tree} {level : Nat}
    (h : ∀ p : Phrase, x.bindsBelow p.rank = false → ReadsBack file x x.printed p) (p : Phrase)
    (hp : p.rank = level) : ReadsBack file x (enclosed (x.bindsBelow level) x.printed) p := by
  subst hp
  intro ts hts
  rw [enclosed] at hts
  split at hts
  next =>
    obtain ⟨l, ts', rfl, hl, hts'⟩ := List.map_eq_cons_iff.1 hts
    obtain ⟨us, rs, rfl, hus, hrs⟩ := List.map_eq_append_iff.1 hts'
    obtain ⟨r, rfl, hr⟩ := List.map_eq_singleton_iff.1 hrs
    obtain ⟨y, hy, heq⟩ := h .expression x.bindsBelow_zero us hus
    exact ⟨y, (Expression.parentheses hl hy hr).of_primary p, heq⟩
  next hb => exact h p (Bool.not_eq_true _ ▸ hb) ts hts

/-- The tokens of a printed expression are the expression. -/
theorem exists_expression (file : String) : ∀ (x : Tree), x.IsExpression →
    ∀ p : Phrase, x.bindsBelow p.rank = false → ReadsBack file x x.printed p
  | operation site op left right, ⟨hl, hr⟩, p, hp => by
      intro ts hts
      rw [printed] at hts
      obtain ⟨ls, ts', rfl, hls, hts'⟩ := List.map_eq_append_iff.1 hts
      obtain ⟨t, rs, rfl, ht, hrs⟩ := List.map_eq_cons_iff.1 hts'
      have hrank := rank_phraseOf op
      have hoperand := Phrase.rank_operand (phraseOf_ne_primary op)
      rw [hrank] at hoperand
      -- The left operand is a phrase of the operator, and the right one an operand of the phrase.
      obtain ⟨x, hx, hxl⟩ := readsBack_enclosed (exists_expression file left hl) _ hrank ls hls
      obtain ⟨y, hy, hyr⟩ := readsBack_enclosed (exists_expression file right hr) _ hoperand rs hrs
      refine ⟨.operate op x y, (Expression.operation hx ht hy).of_rank_le ?_, ?_⟩
      · rw [hrank]
        simpa [bindsBelow] using hp
      · rw [operate, unplaced, bare, unplaced, hxl, hyr]
        rfl
  | identifier site name binding, _, p, _ => by
      intro ts hts
      obtain ⟨t, rfl, ht⟩ := List.map_eq_singleton_iff.1 hts
      exact ⟨_, (Expression.identifier ht).of_primary p, rfl⟩
  | literal site (.integer n) constant, ⟨hn, _⟩, p, _ => by
      intro ts hts
      obtain ⟨t, rfl, ht⟩ := List.map_eq_singleton_iff.1 hts
      refine ⟨_, (Expression.integer ht).of_primary p, ?_⟩
      rw [Int.toNat_of_nonneg hn]
      rfl
  | literal site (.float x) constant, _, p, _ => by
      intro ts hts
      obtain ⟨t, rfl, ht⟩ := List.map_eq_singleton_iff.1 hts
      exact ⟨_, (Expression.float ht).of_primary p, rfl⟩

mutual

/-- The tokens of a printed statement are the statement. -/
theorem exists_statement (file : String) : ∀ (t : Tree), t.IsStatement → ∀ {ts : List Token},
    ts.map Token.kind = t.printed →
    ∃ y, Statement file ts (some y) ∧ y.unplaced = t.bare.unplaced
  | block site body, h, ts, hts => by
      rw [printed] at hts
      obtain ⟨l, ts', rfl, hl, hts'⟩ := List.map_eq_cons_iff.1 hts
      obtain ⟨us, rs, rfl, hus, hrs⟩ := List.map_eq_append_iff.1 hts'
      obtain ⟨r, rfl, hr⟩ := List.map_eq_singleton_iff.1 hrs
      obtain ⟨body', hbody, heq⟩ := exists_statements file body h hus
      refine ⟨_, .block hl hbody hr, ?_⟩
      rw [unplaced, bare, unplaced, heq]
      rfl
  | declaration site name slot init, ⟨_, hinit⟩, ts, hts => by
      rw [printed] at hts
      obtain ⟨v, ts₁, rfl, hv, hts₁⟩ := List.map_eq_cons_iff.1 hts
      obtain ⟨i, ts₂, rfl, hi, hts₂⟩ := List.map_eq_cons_iff.1 hts₁
      obtain ⟨q, ts₃, rfl, hq, hts₃⟩ := List.map_eq_cons_iff.1 hts₂
      obtain ⟨us, rs, rfl, hus, hrs⟩ := List.map_eq_append_iff.1 hts₃
      obtain ⟨t, rfl, ht⟩ := List.map_eq_singleton_iff.1 hrs
      obtain ⟨x, hx, heq⟩ := exists_expression file init hinit .expression
        (bindsBelow_zero init) us hus
      refine ⟨_, .declaration hv hi hq hx (.semicolon ht), ?_⟩
      rw [unplaced, bare, unplaced, heq]
      rfl

/-- The tokens of printed statements are the statements. -/
theorem exists_statements (file : String) : ∀ (body : List Tree), AreStatements body →
    ∀ {ts : List Token}, ts.map Token.kind = printedAll body →
    ∃ body', Statements file ts body' ∧ unplacedAll body' = unplacedAll (bareAll body)
  | [], _, ts, hts => by
      obtain rfl := List.map_eq_nil_iff.1 hts
      exact ⟨[], .nil, rfl⟩
  | t :: body, ⟨ht, hbody⟩, ts, hts => by
      rw [printedAll] at hts
      obtain ⟨us, vs, rfl, hus, hvs⟩ := List.map_eq_append_iff.1 hts
      obtain ⟨x, hx, hxt⟩ := exists_statement file t ht hus
      obtain ⟨body', hbody', heq⟩ := exists_statements file body hbody hvs
      refine ⟨x :: body', .cons hx hbody', ?_⟩
      rw [unplacedAll, bareAll, unplacedAll, hxt, heq]

end

end Tree

/-- A printed form of a program is parsed as the program. -/
theorem Program.parse_of_printedAs {p : Program} (h : p.Printable) {text : String}
    (htext : p.PrintedAs text) (file : String) :
    ∃ q, parse file text = .ok q ∧ q.unplaced = p.bare.unplaced := by
  obtain ⟨body, hbody, heq⟩ := Tree.exists_statements file p.body h htext.map_kind
  refine ⟨_, parse_of_source (.intro hbody (Tokens.kind_finish_ofSource text)), ?_⟩
  rw [unplaced, bare, unplaced, heq]
  rfl

/-! ## Printed trees have spellings -/

theorem Operator.exists_spelled (op : Operator) : ∃ w, op.kind.Spelled w := by
  match op with
  | .arithmetic .add => exact ⟨['+'], Token.Kind.spelled_iff.2 (.symbol rfl)⟩
  | .arithmetic .sub => exact ⟨['-'], Token.Kind.spelled_iff.2 (.symbol rfl)⟩
  | .arithmetic .mul => exact ⟨['*'], Token.Kind.spelled_iff.2 (.symbol rfl)⟩
  | .arithmetic .div => exact ⟨['/'], Token.Kind.spelled_iff.2 (.symbol rfl)⟩
  | .equal => exact ⟨_, Token.Kind.spelled_iff.2 .equalEqual⟩
  | .notEqual => exact ⟨_, Token.Kind.spelled_iff.2 .notEqual⟩

namespace Tree

/-- Every token has a spelling. -/
def Spellable (ks : List Token.Kind) : Prop := ∀ k ∈ ks, ∃ w, k.Spelled w

theorem Spellable.append {ks ks' : List Token.Kind} (h : Spellable ks) (h' : Spellable ks') :
    Spellable (ks ++ ks') := List.forall_mem_append.2 ⟨h, h'⟩

theorem Spellable.cons {k : Token.Kind} {ks : List Token.Kind} (hk : ∃ w, k.Spelled w)
    (h : Spellable ks) : Spellable (k :: ks) := List.forall_mem_cons.2 ⟨hk, h⟩

theorem Spellable.cons_symbol {c : Char} {k : Token.Kind} {ks : List Token.Kind}
    (hk : Token.Kind.ofSymbol? c = some k) (h : Spellable ks) : Spellable (k :: ks) :=
  h.cons ⟨[c], Token.Kind.spelled_iff.2 (.symbol hk)⟩

theorem Spellable.nil : Spellable [] := by simp [Spellable]

theorem Spellable.enclosed {ks : List Token.Kind} (h : Spellable ks) (needed : Bool) :
    Spellable (enclosed needed ks) := by
  rw [Tree.enclosed]
  split
  · exact .cons_symbol (c := '(') rfl (h.append (.cons_symbol (c := ')') rfl .nil))
  · exact h

theorem spellable_printed : ∀ (x : Tree), x.IsExpression → Spellable x.printed
  | operation site op left right, ⟨hl, hr⟩ =>
      ((spellable_printed left hl).enclosed _).append
        (((spellable_printed right hr).enclosed _).cons op.exists_spelled)
  | identifier site name binding, h =>
      .cons ⟨name.toList, Token.Kind.spelled_identifier_iff.2 ⟨rfl, h⟩⟩ .nil
  | literal site (.integer n) constant, ⟨hn, hbound⟩ => by
      have hlt : n.toNat < Numeral.integerBound := by
        rw [Numeral.integerBound]
        omega
      exact .cons ⟨_, Token.Kind.spelled_integer hlt⟩ .nil
  | literal site (.float x) constant, h => .cons h .nil

mutual

theorem spellable_statement : ∀ (t : Tree), t.IsStatement → Spellable t.printed
  | block site body, h =>
      .cons_symbol (c := '\x7b') rfl
        ((spellable_statements body h).append (.cons_symbol (c := '\x7d') rfl .nil))
  | declaration site name slot init, ⟨hname, hinit⟩ => by
      have hvar : Token.Kind.var.Spelled ['v', 'a', 'r'] := ⟨by simp, 'v', ['a', 'r'], rfl, rfl⟩
      refine .cons ⟨_, hvar⟩ (.cons ⟨_, Token.Kind.spelled_identifier_iff.2 ⟨rfl, hname⟩⟩ ?_)
      exact .cons_symbol (c := '=') rfl
        ((spellable_printed init hinit).append (.cons_symbol (c := ';') rfl .nil))

theorem spellable_statements : ∀ (body : List Tree), AreStatements body →
    Spellable (printedAll body)
  | [], _ => .nil
  | t :: body, ⟨ht, hbody⟩ => (spellable_statement t ht).append (spellable_statements body hbody)

end

end Tree

/-- A program that can be printed has a printed form. -/
theorem Program.exists_printedAs {p : Program} (h : p.Printable) : ∃ text, p.PrintedAs text := by
  obtain ⟨text, htext⟩ := Written.exists_of_spelled (Tree.spellable_statements p.body h)
  exact ⟨String.ofList text, by rwa [PrintedAs, String.toList_ofList]⟩

/-! ## Parsed trees can be printed -/

/-- Every token is spelled by its text, if it is valid. -/
def AllSpelled (ts : List Token) : Prop := ∀ t ∈ ts, t.kind ≠ .invalid → t.kind.Spelled t.text

theorem AllSpelled.append {ts us : List Token} (h : AllSpelled (ts ++ us)) :
    AllSpelled ts ∧ AllSpelled us := List.forall_mem_append.1 h

theorem AllSpelled.cons {t : Token} {ts : List Token} (h : AllSpelled (t :: ts)) :
    (t.kind ≠ .invalid → t.kind.Spelled t.text) ∧ AllSpelled ts := List.forall_mem_cons.1 h

theorem isVariableName_of_spelled {t : Token} {name : String} (ht : t.kind = .identifier name)
    (h : t.kind ≠ .invalid → t.kind.Spelled t.text) : IsVariableName name := by
  rw [ht] at h
  exact (Token.Kind.spelled_identifier_iff.1 (h (by simp))).2

mutual

/-- The tree of an expression can be printed, and it has no notes. -/
theorem Grammar.Expression.printable {file : String} {p : Phrase} {ts : List Token} {x : Tree}
    (h : Expression file p ts x) (hts : AllSpelled ts) : x.IsExpression ∧ x.bare = x := by
  match h with
  | .integer hk =>
      have hw := hts.cons.1
      rw [hk] at hw
      have hlt := Token.Kind.lt_of_spelled_integer (hw (by simp))
      rw [Numeral.integerBound] at hlt
      exact ⟨⟨by omega, by omega⟩, rfl⟩
  | .float hk =>
      have hw := hts.cons.1
      rw [hk] at hw
      exact ⟨⟨_, hw (by simp)⟩, rfl⟩
  | .identifier hk => exact ⟨isVariableName_of_spelled hk hts.cons.1, rfl⟩
  | .parentheses _ hx _ => exact hx.printable hts.cons.2.append.1
  | .chain _ hx hops => exact hops.printable (hx.printable hts.append.1) hts.append.2

theorem Grammar.Operations.printable {file : String} {p : Phrase} {ts : List Token} {x y : Tree}
    (h : Operations file p x ts y) (hx : x.IsExpression ∧ x.bare = x) (hts : AllSpelled ts) :
    y.IsExpression ∧ y.bare = y := by
  match h with
  | .nil => exact hx
  | .cons _ _ hy hops =>
      obtain ⟨hy', hrest⟩ := hts.cons.2.append
      obtain ⟨hyp, hyb⟩ := hy.printable hy'
      refine hops.printable ⟨⟨hx.1, hyp⟩, ?_⟩ hrest
      rw [Tree.operate, Tree.bare, hx.2, hyb]
      rfl

end

mutual

/-- The node of a statement can be printed, and it has no notes. -/
theorem Grammar.Statement.printable {file : String} {ts : List Token} {x : Option Tree}
    (h : Statement file ts x) (hts : AllSpelled ts) :
    Tree.AreStatements x.toList ∧ Tree.bareAll x.toList = x.toList := by
  match h with
  | .empty _ => exact ⟨trivial, rfl⟩
  | .declaration _ hi _ hx _ =>
      obtain ⟨hi', hrest⟩ := hts.cons.2.cons
      obtain ⟨hxp, hxb⟩ := hx.printable hrest.cons.2.append.1
      refine ⟨⟨⟨isVariableName_of_spelled hi hi', hxp⟩, trivial⟩, ?_⟩
      simp only [Option.toList_some, Tree.bareAll, Tree.bare, hxb]
      rfl
  | .block _ hbody _ =>
      obtain ⟨hp, hb⟩ := hbody.printable hts.cons.2.append.1
      refine ⟨⟨hp, trivial⟩, ?_⟩
      simp only [Option.toList_some, Tree.bareAll, Tree.bare, hb]
      rfl

theorem Grammar.Statements.printable {file : String} {ts : List Token} {body : List Tree}
    (h : Statements file ts body) (hts : AllSpelled ts) :
    Tree.AreStatements body ∧ Tree.bareAll body = body := by
  match h with
  | .nil => exact ⟨trivial, rfl⟩
  | .cons (x := x) hx hbody =>
      obtain ⟨hxs, hrest⟩ := hts.append
      obtain ⟨hxp, hxb⟩ := hx.printable hxs
      obtain ⟨hp, hb⟩ := hbody.printable hrest
      cases x with
      | none => exact ⟨hp, hb⟩
      | some x =>
          refine ⟨⟨hxp.1, hp⟩, ?_⟩
          simp only [Option.toList_some, List.singleton_append, Tree.bareAll, hb]
          rw [(List.cons.inj hxb).1]

end

/-- A program that is parsed from a source can be printed, and it has no notes. -/
theorem Program.printable_of_parse {file source : String} {p : Program}
    (h : parse file source = .ok p) : p.Printable ∧ p.bare = p := by
  have hsource := source_of_parse h
  generalize hall : (Tokens.ofSource source).toList = all at hsource
  cases hsource with
  | intro hs _ =>
      obtain ⟨rfl, -⟩ := List.append_inj' hall rfl
      obtain ⟨hp, hb⟩ := hs.printable Tokens.spelled_of_mem
      refine ⟨hp, ?_⟩
      rw [bare, hb]
      rfl

/-! ## Parsing and printing -/

/-- Parsing undoes printing.  A program that can be printed has a printed form, and parsing any of
them gives the program up to its notes and locations.  A program that is parsed from a source can be
printed; so it has a printed form, and parsing any of them gives the program up to its locations. -/
theorem Program.parse_printed (file : String) :
    (∀ p : Program, p.Printable →
      (∃ text, p.PrintedAs text) ∧
      ∀ text, p.PrintedAs text →
        ∃ q, parse file text = .ok q ∧ q.unplaced = p.bare.unplaced) ∧
    ∀ (source : String) (p : Program), parse file source = .ok p →
      (∃ text, p.PrintedAs text) ∧
      ∀ text, p.PrintedAs text → ∃ q, parse file text = .ok q ∧ q.unplaced = p.unplaced := by
  refine ⟨?_, ?_⟩
  · intro p hp
    exact ⟨exists_printedAs hp, fun text htext => parse_of_printedAs hp htext file⟩
  · intro source p hparse
    obtain ⟨hp, hbare⟩ := printable_of_parse hparse
    refine ⟨exists_printedAs hp, ?_⟩
    intro text htext
    obtain ⟨q, hq, heq⟩ := parse_of_printedAs hp htext file
    rw [hbare] at heq
    exact ⟨q, hq, heq⟩

/-- The program `var y = 0.5 - (y - 1);`. -/
def Program.difference : Program where
  site := .nowhere
  body := [.declaration .nowhere "y" none
    (.operation .nowhere (.arithmetic .sub) (.literal .nowhere (.float ⟨0x3FE0000000000000⟩) none)
      (.operation .nowhere (.arithmetic .sub) (.identifier .nowhere "y" none)
        (.literal .nowhere (.integer 1) none)))]

theorem Program.printedAs_difference : difference.PrintedAs "var y = 0.5 - (y - 1);" := by
  have hblank : ∀ (k : Token.Kind) (text : List Char), ∀ c ∈ (' ' :: text).head?, k.stopsAt c := by
    rintro k text _ ⟨⟩
    exact k.stopsAt_blank
  have hparen : ∀ c ∈ [')', ';'].head?, (Token.Kind.integer 1).stopsAt c := by
    rintro _ ⟨⟩
    rfl
  show Written [.var, .identifier "y", .equal, .float ⟨0x3FE0000000000000⟩, .minus, .leftParen,
    .identifier "y", .minus, .integer 1, .rightParen, .semicolon] _
  refine .next (w := ['v', 'a', 'r']) ⟨by simp, _, _, rfl, rfl⟩ (hblank _ _) (.blank ?_)
  refine .next (w := ['y']) ⟨by simp, _, _, rfl, rfl⟩ (hblank _ _) (.blank ?_)
  refine .next (w := ['=']) ⟨by simp, _, _, rfl, rfl⟩ (hblank _ _) (.blank ?_)
  refine .next (w := ['0', '.', '5']) ⟨by simp, _, _, rfl, rfl⟩ (hblank _ _) (.blank ?_)
  refine .next (w := ['-']) ⟨by simp, _, _, rfl, rfl⟩ (hblank _ _) (.blank ?_)
  refine .next (w := ['(']) ⟨by simp, _, _, rfl, rfl⟩ (fun _ _ => rfl) ?_
  refine .next (w := ['y']) ⟨by simp, _, _, rfl, rfl⟩ (hblank _ _) (.blank ?_)
  refine .next (w := ['-']) ⟨by simp, _, _, rfl, rfl⟩ (hblank _ _) (.blank ?_)
  refine .next (w := ['1']) ⟨by simp, _, _, rfl, rfl⟩ hparen ?_
  refine .next (w := [')']) ⟨by simp, _, _, rfl, rfl⟩ (fun _ _ => rfl) ?_
  exact .next (w := [';']) ⟨by simp, _, _, rfl, rfl⟩ (fun _ _ => rfl) (.nil (by simp))

theorem Program.parse_printed_difference :
    difference.Printable ∧ difference.PrintedAs "var y = 0.5 - (y - 1);" ∧
      ∃ q, parse "" "var y = 0.5 - (y - 1);" = .ok q ∧ q.unplaced = difference.unplaced := by
  have hname : IsVariableName "y" := ⟨⟨'y', [], rfl, rfl, by simp⟩, by simp⟩
  have hfloat : Number.Printable (.float ⟨0x3FE0000000000000⟩) :=
    ⟨['0', '.', '5'], by simp, _, _, rfl, rfl⟩
  have hprintable : difference.Printable := ⟨⟨hname, hfloat, hname, by simp, by simp⟩, trivial⟩
  exact ⟨hprintable, printedAs_difference,
    ((parse_printed "").1 difference hprintable).2 _ printedAs_difference⟩

end BlockScript
