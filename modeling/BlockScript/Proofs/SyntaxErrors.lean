import BlockScript.Proofs.Locations

/-!
# Where syntax errors point

A syntax error points at the first token that is impossible where it stands
(`Program.parse_error`).  This has two sides.

The tokens in front of it can go on to what the grammar derives, since reading accounts for them
(`Parsed.Accounts`): an operand and the closing parentheses complete an expression, and the closing
braces complete a block.

With that token they cannot go on.  Reading looks at no token behind it (`Ending.Looks`), so it
would fail in the same place whatever stands there; but it reads all that the grammar derives.
-/

namespace BlockScript

open Grammar

/-! ## One token of lookahead -/

/-- Reading takes some of the tokens and looks at the token behind them, but no further.  With any
other tokens behind that one it comes to the same, though a failure may name another fault. -/
inductive Ending.Looks {α : Type} (e : Ending) (f : List Token → Parsed α) : List Token → Prop where
  | done {a : α} {used rest : List Token} :
      (∀ more, e.current more = e.current rest → f (used ++ more) = .done a more) →
      Looks e f (used ++ rest)
  | failed {used rest : List Token} :
      (∀ more, e.current more = e.current rest → ∃ fault, f (used ++ more) = e.fail more fault) →
      Looks e f (used ++ rest)

namespace Ending

variable {e : Ending} {α β : Type}

theorem current_append {more rest : List Token} (h : e.current more = e.current rest)
    (ts : List Token) : e.current (ts ++ more) = e.current (ts ++ rest) := by
  cases ts with
  | nil => exact h
  | cons t ts => rfl

namespace Looks

variable {f g : List Token → Parsed α} {t : Token} {ts : List Token}

/-- Reading stops in front of the tokens with a value. -/
theorem stop {a : α} (h : ∀ more, e.current more = e.current ts → f more = .done a more) :
    e.Looks f ts := @done _ _ _ a [] ts h

/-- Reading fails in front of the tokens. -/
theorem fail (h : ∀ more, e.current more = e.current ts → ∃ fault, f more = e.fail more fault) :
    e.Looks f ts := @failed _ _ _ [] ts h

/-- Reading takes a token and then reads on. -/
theorem cons (h : ∀ ts, f (t :: ts) = g ts) (hg : e.Looks g ts) : e.Looks f (t :: ts) := by
  cases hg with
  | @done a used rest hg =>
      exact @done _ _ _ a (t :: used) rest fun more hmore => (h _).trans (hg more hmore)
  | @failed used rest hg =>
      refine @failed _ _ _ (t :: used) rest fun more hmore => ?_
      obtain ⟨fault, hfault⟩ := hg more hmore
      exact ⟨fault, (h _).trans hfault⟩

theorem map (hf : e.Looks f ts) (k : α → β) : e.Looks (fun ts => (f ts).map k) ts := by
  cases hf with
  | @done a used rest hf =>
      refine @done _ _ _ (k a) used rest fun more hmore => ?_
      rw [hf more hmore]
      rfl
  | @failed used rest hf =>
      refine @failed _ _ _ used rest fun more hmore => ?_
      obtain ⟨fault, hfault⟩ := hf more hmore
      exact ⟨fault, by rw [hfault]; rfl⟩

/-- One reading behind the other. -/
theorem andThen {k : α → List Token → Parsed β} (hf : e.Looks f ts)
    (hk : ∀ a us, f ts = .done a us → e.Looks (k a) us) :
    e.Looks (fun ts => (f ts).andThen k) ts := by
  cases hf with
  | @done a used rest hf =>
      have hrest := hk a rest (hf rest rfl)
      cases hrest with
      | @done b used' rest hrest =>
          rw [← List.append_assoc]
          refine @done _ _ _ b (used ++ used') rest fun more hmore => ?_
          rw [List.append_assoc, hf _ (current_append hmore used')]
          exact hrest more hmore
      | @failed used' rest hrest =>
          rw [← List.append_assoc]
          refine @failed _ _ _ (used ++ used') rest fun more hmore => ?_
          rw [List.append_assoc, hf _ (current_append hmore used')]
          exact hrest more hmore
  | @failed used rest hf =>
      refine @failed _ _ _ used rest fun more hmore => ?_
      obtain ⟨fault, hfault⟩ := hf more hmore
      exact ⟨fault, by rw [hfault]; rfl⟩

/-- What is left behind a value was only looked at. -/
theorem of_done {a : α} {rest : List Token} (hf : e.Looks f ts) (h : f ts = .done a rest) :
    ∃ used, ts = used ++ rest ∧
      ∀ more, e.current more = e.current rest → f (used ++ more) = .done a more := by
  cases hf with
  | @done b used rest' hf =>
      cases h.symm.trans (hf rest' rfl)
      exact ⟨used, rfl, hf⟩
  | @failed used rest' hf =>
      obtain ⟨fault, hfault⟩ := hf rest' rfl
      cases h.symm.trans hfault

/-- What is left behind a failure was only looked at. -/
theorem of_failed {error : SyntaxError} {rest : List Token} (hf : e.Looks f ts)
    (h : f ts = .failed error rest) : ∃ used, ts = used ++ rest ∧
      error.location = .ofPosition e.file (e.current rest).start ∧
      ∀ more, e.current more = e.current rest → ∃ fault, f (used ++ more) = e.fail more fault := by
  cases hf with
  | @done b used rest' hf => cases h.symm.trans (hf rest' rfl)
  | @failed used rest' hf =>
      obtain ⟨fault, hfault⟩ := hf rest' rfl
      cases h.symm.trans hfault
      exact ⟨used, rfl, rfl, hf⟩

end Looks

/-! ### Expressions -/

theorem expressionFrom_expected {ts : List Token} (h : e.operand? (e.current ts) = none)
    (hl : (e.current ts).kind ≠ .leftParen) (outer : List Pending) (w : Pending) :
    e.expressionFrom outer w none ts = e.fail ts .expectedExpression := by
  cases ts with
  | nil => rw [expressionFrom]
  | cons t ts =>
      have h' : e.operand? t = none := h
      rw [expressionFrom, h']
      exact if_neg hl

theorem expressionFrom_whole {ts : List Token} (h : Operator.ofKind? (e.current ts).kind = none)
    (w : Pending) (x : Tree) : e.expressionFrom [] w (some x) ts = .done (w.whole x) ts := by
  cases ts with
  | nil => rw [expressionFrom]
  | cons t ts =>
      have h' : Operator.ofKind? t.kind = none := h
      rw [expressionFrom, h']

theorem expressionFrom_unclosed {ts : List Token} (h : Operator.ofKind? (e.current ts).kind = none)
    (hr : (e.current ts).kind ≠ .rightParen) (w w' : Pending) (outer : List Pending) (x : Tree) :
    e.expressionFrom (w :: outer) w' (some x) ts = e.fail ts (.expected .rightParen) := by
  cases ts with
  | nil => rw [expressionFrom]
  | cons t ts =>
      have h' : Operator.ofKind? t.kind = none := h
      rw [expressionFrom, h']
      exact if_neg hr

theorem looks_expressionFrom (hfinish : e.finish.kind = .eof) (outer : List Pending) (w : Pending)
    (x : Option Tree) (ts : List Token) : e.Looks (e.expressionFrom outer w x) ts := by
  have hend : e.current [] = e.finish := rfl
  fun_induction expressionFrom e outer w x ts with
  | case1 outer w =>
      refine .fail fun more hmore => ⟨_, expressionFrom_expected ?_ ?_ outer w⟩
      · rw [hmore, hend, operand?, hfinish]
      · simp [hmore, hend, hfinish]
  | case2 outer w t ts x hx ih => exact .cons (expressionFrom_operand hx outer w) ih
  | case3 outer w t ts _ hl ih => exact .cons (expressionFrom_leftParen hl outer w) ih
  | case4 outer w t ts hx hl =>
      refine .fail fun more hmore => ⟨_, expressionFrom_expected ?_ ?_ outer w⟩
      · rwa [hmore]
      · rwa [hmore]
  | case5 w x =>
      refine .stop fun more hmore => expressionFrom_whole ?_ w x
      rw [hmore, hend, hfinish]
      rfl
  | case6 w x q outer =>
      refine .fail fun more hmore => ⟨_, expressionFrom_unclosed ?_ ?_ q w outer x⟩
      · rw [hmore, hend, hfinish]
        rfl
      · simp [hmore, hend, hfinish]
  | case7 outer w x t ts op hop ih =>
      exact .cons (expressionFrom_operator (Operator.ofKind?_eq_some.1 hop) outer w x) ih
  | case8 w x t ts hop =>
      refine .stop fun more hmore => expressionFrom_whole ?_ w x
      rwa [hmore]
  | case9 w x t ts hop q outer hr ih =>
      exact .cons (expressionFrom_rightParen hr outer q w x) ih
  | case10 w x t ts hop q outer hr =>
      refine .fail fun more hmore => ⟨_, expressionFrom_unclosed ?_ ?_ q w outer x⟩
      · rwa [hmore]
      · rwa [hmore]

/-! ### Statements -/

theorem looks_name (hfinish : e.finish.kind = .eof) (ts : List Token) : e.Looks e.name ts := by
  by_cases h : ∃ name, (e.current ts).kind = .identifier name
  · obtain ⟨name, hk⟩ := h
    cases ts with
    | nil => cases hfinish.symm.trans hk
    | cons i ts =>
        refine .cons (g := .done name) (fun us => ?_) (.stop fun _ _ => rfl)
        have hi : i.kind = .identifier name := hk
        simp [Ending.name, current, hi]
  · refine .fail fun more hmore => ⟨.expectedIdentifier, ?_⟩
    rw [Ending.name]
    split
    next hk => exact absurd ⟨_, hmore ▸ hk⟩ h
    next => rfl

theorem looks_expect {wanted : Token.Kind} (hwanted : e.finish.kind ≠ wanted) (ts : List Token) :
    e.Looks (e.expect wanted) ts := by
  by_cases hk : (e.current ts).kind = wanted
  · cases ts with
    | nil => exact absurd hk hwanted
    | cons t ts => exact .cons (g := .done ()) (fun _ => if_pos hk) (.stop fun _ _ => rfl)
  · exact .fail fun more hmore => ⟨_, if_neg (hmore ▸ hk)⟩

theorem looks_optionalSemicolon (hfinish : e.finish.kind = .eof) (a : α) (ts : List Token) :
    e.Looks (fun ts => .done a (e.optionalSemicolon ts)) ts := by
  by_cases hk : (e.current ts).kind = .semicolon
  · cases ts with
    | nil => cases hfinish.symm.trans hk
    | cons t ts =>
        refine .cons (g := .done a) (fun us => ?_) (.stop fun _ _ => rfl)
        rw [optionalSemicolon]
        exact congrArg _ (if_pos hk)
  · exact .stop fun more hmore => congrArg _ (if_neg (hmore ▸ hk))

theorem looks_declaration (hfinish : e.finish.kind = .eof) (site : Site) (ts : List Token) :
    e.Looks (e.declaration site) ts := by
  refine (looks_name hfinish ts).andThen fun name us _ => ?_
  refine (looks_expect (by simp [hfinish]) us).andThen fun _ us _ => ?_
  refine (looks_expressionFrom hfinish [] {} none us).andThen fun init us _ => ?_
  exact looks_optionalSemicolon hfinish _ us

/-- In a block a token is out of place that neither starts a statement nor closes the block. -/
theorem blockFrom_misplaced {ts : List Token} (hs : (e.current ts).kind ≠ .semicolon)
    (hl : (e.current ts).kind ≠ .leftBrace) (hr : (e.current ts).kind ≠ .rightBrace)
    (hv : (e.current ts).kind ≠ .var) (b : OpenBlock) (outer : List OpenBlock) :
    ∃ fault, e.blockFrom b outer ts = e.fail ts fault := by
  cases ts with
  | nil => exact ⟨.expected .rightBrace, by rw [blockFrom]⟩
  | cons t ts =>
      refine ⟨.ofStatement, ?_⟩
      rw [blockFrom.eq_def]
      dsimp only
      split
      next hk => exact absurd hk hs
      next hk => exact absurd hk hl
      next hk => exact absurd hk hr
      next hk => exact absurd hk hv
      next => rfl

theorem blockFrom_declaration {t : Token} (h : t.kind = .var) (b : OpenBlock)
    (outer : List OpenBlock) (ts : List Token) : e.blockFrom b outer (t :: ts) =
      (e.declaration (e.siteOf t) ts).andThen fun d => e.blockFrom (b.add d) outer := by
  rw [blockFrom.eq_def]
  simp only [h]
  cases e.declaration (e.siteOf t) ts with
  | done d rest => rfl
  | failed error rest => rfl

theorem looks_blockFrom (hfinish : e.finish.kind = .eof) (b : OpenBlock) (outer : List OpenBlock)
    (ts : List Token) : e.Looks (e.blockFrom b outer) ts := by
  fun_induction blockFrom e b outer ts with
  | case1 b outer =>
      refine .fail fun more hmore => ?_
      have hend : (e.current more).kind = .eof := by rw [hmore]; exact hfinish
      exact blockFrom_misplaced (by simp [hend]) (by simp [hend]) (by simp [hend]) (by simp [hend])
        b outer
  | case2 b outer t ts hk ih => exact .cons (blockFrom_semicolon hk b outer) ih
  | case3 b outer t ts hk ih => exact .cons (blockFrom_leftBrace hk b outer) ih
  | case4 b t ts hk => exact .cons (blockFrom_close hk b) (.stop fun _ _ => rfl)
  | case5 b t ts hk o outer ih => exact .cons (blockFrom_rightBrace hk b o outer) ih
  | case6 b outer t ts hk error rest hd =>
      refine .cons (blockFrom_declaration hk b outer)
        ((looks_declaration hfinish _ ts).andThen fun d us hdone => ?_)
      cases hd.symm.trans hdone
  | case7 b outer t ts hk d rest hd ih =>
      refine .cons (blockFrom_declaration hk b outer)
        ((looks_declaration hfinish _ ts).andThen fun d us hdone => ?_)
      cases hd.symm.trans hdone
      exact ih
  | case8 b outer t ts hs hl hr hv =>
      refine .fail fun more hmore => ?_
      have hkind : (e.current more).kind = t.kind := congrArg _ hmore
      rw [← hkind] at hs hl hr hv
      exact blockFrom_misplaced hs hl hr hv b outer

theorem statement_misplaced {ts : List Token} (hs : (e.current ts).kind ≠ .semicolon)
    (hv : (e.current ts).kind ≠ .var) (hl : (e.current ts).kind ≠ .leftBrace) :
    e.statement ts = e.fail ts .ofStatement := by
  cases ts with
  | nil => rfl
  | cons t ts =>
      rw [statement]
      split
      next hk => exact absurd hk hs
      next hk => exact absurd hk hv
      next hk => exact absurd hk hl
      next => rfl

theorem looks_statement (hfinish : e.finish.kind = .eof) (ts : List Token) :
    e.Looks e.statement ts := by
  fun_cases statement e ts with
  | case1 =>
      refine .fail fun more hmore => ⟨.ofStatement, ?_⟩
      have hend : (e.current more).kind = .eof := by rw [hmore]; exact hfinish
      exact statement_misplaced (by simp [hend]) (by simp [hend]) (by simp [hend])
  | case2 t ts hk =>
      refine .cons (g := .done none) (fun us => ?_) (.stop fun _ _ => rfl)
      rw [statement, hk]
  | case3 t ts hk =>
      refine .cons (fun us => ?_) ((looks_declaration hfinish (e.siteOf t) ts).map some)
      rw [statement, hk]
  | case4 t ts hk =>
      refine .cons (fun us => ?_) ((looks_blockFrom hfinish ⟨e.siteOf t, []⟩ [] ts).map some)
      rw [statement, hk]
  | case5 t ts hs hv hl =>
      refine .fail fun more hmore => ⟨.ofStatement, ?_⟩
      have hkind : (e.current more).kind = t.kind := congrArg _ hmore
      rw [← hkind] at hs hv hl
      exact statement_misplaced hs hv hl

theorem statements_of_failed {ts rest : List Token} {error : SyntaxError} (hts : ts ≠ [])
    (h : e.statement ts = .failed error rest) (reversed : List Tree) :
    e.statements reversed ts = .failed error rest := by
  cases ts with
  | nil => exact absurd rfl hts
  | cons t ts =>
      rw [statements, h]
      rfl

/-- In front of the rest are statements, and they are read whatever stands behind its first
token. -/
def ReadsUpTo (e : Ending) (ts rest : List Token) : Prop :=
  ∃ read body, ts = read ++ rest ∧ Statements e.file read body ∧
    ∀ reversed more, e.current more = e.current rest →
      e.statements reversed (read ++ more) = e.statements (body.reverse ++ reversed) more

theorem ReadsUpTo.refl (ts : List Token) : e.ReadsUpTo ts ts :=
  ⟨[], [], rfl, .nil, fun _ _ _ => rfl⟩

theorem ReadsUpTo.step (hfinish : e.finish.kind = .eof) {ts us rest : List Token} {x : Option Tree}
    (h : e.statement ts = .done x us) (h' : e.ReadsUpTo us rest) : e.ReadsUpTo ts rest := by
  obtain ⟨read, body, rfl, hbody, hread⟩ := h'
  obtain ⟨used, rfl, hx⟩ := statement_sound hfinish h
  obtain ⟨used', heq, hused⟩ := (looks_statement hfinish _).of_done h
  obtain rfl := List.append_cancel_right heq
  refine ⟨used ++ read, x.toList ++ body, by rw [List.append_assoc], .cons hx hbody, ?_⟩
  intro reversed more hmore
  rw [List.append_assoc, statements_of_statement (hused _ (current_append hmore read)),
    hread _ _ hmore]
  cases x with
  | none => rfl
  | some x => simp

/-- Reading statements fails where reading one of them does. -/
theorem statements_failed (hfinish : e.finish.kind = .eof) {reversed : List Tree}
    {ts rest : List Token} {error : SyntaxError}
    (h : e.statements reversed ts = .failed error rest) :
    ∃ us, e.ReadsUpTo ts us ∧ e.statement us = .failed error rest := by
  fun_induction statements e reversed ts with
  | case1 => cases h
  | case2 reversed ts _ error rest hstatement =>
      cases h
      exact ⟨ts, .refl ts, hstatement⟩
  | case3 reversed ts _ rest' hstatement ih | case4 reversed ts _ t rest' hstatement ih =>
      obtain ⟨us, hreads, hfailed⟩ := ih h
      exact ⟨us, hreads.step hfinish hstatement, hfailed⟩

end Ending

/-! ## The first impossible token -/

namespace Grammar

/-- The grammar derives the tokens as an expression. -/
def IsExpression (file : String) (ts : List Token) : Prop := ∃ x, Expression file .expression ts x

/-- The grammar derives the tokens as a statement. -/
def IsStatement (file : String) (ts : List Token) : Prop := ∃ x, Statement file ts x

/-- The grammar derives the tokens, with the one at the end, as a program. -/
def IsSource (file : String) (ts : List Token) : Prop := ∃ p, Source file ts p

end Grammar

/-- The tokens up to `t` cannot go on to something derivable, and each part in front of `t` can. -/
structure FirstImpossible (derivable : List Token → Prop) (before : List Token) (t : Token) :
    Prop where
  viable : ∀ us, us <+: before → Viable derivable us
  impossible : ¬ Viable derivable (before ++ [t])

/-- The tokens in front of `rest` were taken off `ts`, and behind them the token in front of `rest`
is the first that is impossible. -/
def Ending.StopsAtFirst (e : Ending) (derivable : List Token → Prop) (ts rest : List Token) :
    Prop :=
  ∃ before, ts = before ++ rest ∧ FirstImpossible derivable before (e.current rest)

namespace Ending

variable {e : Ending} {ts rest : List Token} {error : SyntaxError}

/-- Reading stops at the first impossible token, if it accounts for the tokens in front and looks at
no other, and does not fail on what is derivable. -/
theorem Looks.stopsAtFirst {α : Type} {f : List Token → Parsed α} {derives : List Token → α → Prop}
    (h : f ts = .failed error rest) (hlooks : e.Looks f ts)
    (haccounts : Parsed.Accounts derives [] ts (f ts))
    (hreads : ∀ us a, derives us a → ∀ error rest, f us ≠ .failed error rest) :
    error.location = .ofPosition e.file (e.current rest).start ∧
      e.StopsAtFirst (fun us => ∃ a, derives us a) ts rest := by
  rw [h] at haccounts
  obtain ⟨used, rfl, hviable⟩ := haccounts.of_failed
  obtain ⟨used', heq, hlocation, hsame⟩ := hlooks.of_failed h
  obtain rfl := List.append_cancel_right heq
  refine ⟨hlocation, used, rfl, fun us hus => hviable.of_isPrefix hus, ?_⟩
  rintro ⟨more, a, ha⟩
  rw [List.append_assoc] at ha
  obtain ⟨fault, hfault⟩ := hsame (e.current rest :: more) rfl
  exact hreads _ a ha _ _ hfault

theorem expression_stopsAtFirst (hfinish : e.finish.kind = .eof)
    (h : e.expression ts = .failed error rest) :
    error.location = .ofPosition e.file (e.current rest).start ∧
      e.StopsAtFirst (IsExpression e.file) ts rest := by
  refine Looks.stopsAtFirst h (looks_expressionFrom hfinish [] {} none ts)
    (expression_accounts ts) ?_
  intro us x hx error rest hfailed
  have hend : NoOperator [] := fun _ ht => nomatch ht
  have hdone := hx.expression hend
  rw [List.append_nil] at hdone
  cases hdone.symm.trans hfailed

theorem statement_stopsAtFirst (hfinish : e.finish.kind = .eof)
    (h : e.statement ts = .failed error rest) :
    error.location = .ofPosition e.file (e.current rest).start ∧
      e.StopsAtFirst (IsStatement e.file) ts rest := by
  refine Looks.stopsAtFirst h (looks_statement hfinish ts) (statement_accounts hfinish ts) ?_
  intro us x hx error rest hfailed
  have hne : us ≠ [] := by
    rintro rfl
    cases hx
  have hend : NoOperator [] := fun _ ht => nomatch ht
  have hdone := hx.statements [] hend
  rw [List.append_nil, statements_of_failed hne hfailed, statements] at hdone
  cases hdone

/-- Behind statements, what is impossible in a statement is impossible in statements. -/
theorem statements_stopsAtFirst (hfinish : e.finish.kind = .eof)
    (h : e.statements [] ts = .failed error rest) :
    error.location = .ofPosition e.file (e.current rest).start ∧
      e.StopsAtFirst (fun us => ∃ body, Statements e.file us body) ts rest := by
  obtain ⟨us, ⟨read, body, rfl, hbody, hread⟩, hstatement⟩ := statements_failed hfinish h
  have haccounts := statement_accounts hfinish us
  rw [hstatement] at haccounts
  obtain ⟨used, rfl, more, x, hx⟩ := haccounts.of_failed
  obtain ⟨used', heq, hlocation, hsame⟩ := (looks_statement hfinish _).of_failed hstatement
  obtain rfl := List.append_cancel_right heq
  have hviable : Viable (fun us => ∃ body, Statements e.file us body) (read ++ used) := by
    refine ⟨more, body ++ x.toList, ?_⟩
    rw [List.append_assoc]
    exact hbody.append hx.toStatements
  refine ⟨hlocation, read ++ used, (List.append_assoc ..).symm,
    fun vs hvs => hviable.of_isPrefix hvs, ?_⟩
  rintro ⟨more, body', hvs⟩
  -- the parser fails in the same place, whatever stands behind the token
  obtain ⟨fault, hfault⟩ := hsame (e.current rest :: more) rfl
  have hcurrent : e.current (e.current rest :: more) = e.current rest := rfl
  have hnext := hread [] (used ++ e.current rest :: more) (current_append hcurrent used)
  rw [statements_of_failed (by simp) hfault] at hnext
  have hdone := hvs.statements (e := e) []
  rw [List.append_assoc, List.append_assoc] at hdone
  cases hdone.symm.trans hnext

/-- The token at the end is impossible too, if the tokens in front of it are not statements. -/
theorem program_stopsAtFirst (hfinish : e.finish.kind = .eof) (hts : ∀ t ∈ ts, t.kind ≠ .eof)
    (h : e.program ts = .failed error rest) :
    error.location = .ofPosition e.file (e.current rest).start ∧
      e.StopsAtFirst (IsSource e.file) ts rest := by
  have hfailed : e.statements [] ts = .failed error rest := by
    rw [program] at h
    split at h
    next => cases h
    next hs =>
      cases h
      exact hs
  obtain ⟨hlocation, before, rfl, hfirst⟩ := statements_stopsAtFirst hfinish hfailed
  refine ⟨hlocation, before, rfl, fun us hus => ?_, ?_⟩
  · obtain ⟨more, body, hbody⟩ := hfirst.viable us hus
    have hend : (Token.ofKind .eof).kind = .eof := rfl
    have hsource := Source.intro hbody hend
    rw [List.append_assoc] at hsource
    exact ⟨more ++ [.ofKind .eof], _, hsource⟩
  rintro ⟨more, p, hp⟩
  generalize hall : before ++ [e.current rest] ++ more = all at hp
  cases hp with
  | @intro vs z body hvs hz =>
      obtain rfl | ⟨more, y, rfl⟩ := List.eq_nil_or_concat more
      · -- the current token ends a program, so there is none behind it and nothing has failed
        rw [List.append_nil] at hall
        obtain ⟨rfl, hlast⟩ := List.append_inj' hall rfl
        have hrest : rest = [] := by
          cases rest with
          | nil => rfl
          | cons t rest =>
              cases hlast
              exact absurd hz (hts t (by simp))
        rw [hrest, List.append_nil, hvs.statements] at hfailed
        cases hfailed
      · rw [List.concat_eq_append, ← List.append_assoc] at hall
        obtain ⟨rfl, -⟩ := List.append_inj' hall rfl
        exact hfirst.impossible ⟨more, body, hvs⟩

end Ending

/-! ## Sources -/

/-- What every parsing function knows of a source. -/
def Ending.ofSource (file source : String) : Ending := ⟨file, (Tokens.ofSource source).finish⟩

/-- Reading the tokens `ts` of a source stopped in front of `rest` with an error, which points at
the first impossible token.  It is located where the line index finds the current token; the tokens
in front of that one, and no others, were taken; and behind them it is the first impossible one. -/
structure SyntaxError.PointsAt (error : SyntaxError) (file source : String)
    (derivable : List Token → Prop) (ts rest : List Token) : Prop where
  location : error.location =
    .ofOffset file source ((Ending.ofSource file source).current rest).start.offset
  first : (Ending.ofSource file source).StopsAtFirst derivable ts rest

theorem SyntaxError.pointsAt_of_stopsAtFirst {error : SyntaxError} {file source : String}
    {derivable : List Token → Prop} {ts rest : List Token}
    (hts : ts <:+ (Tokens.ofSource source).items)
    (h : error.location =
        .ofPosition file ((Ending.ofSource file source).current rest).start ∧
      (Ending.ofSource file source).StopsAtFirst derivable ts rest) :
    error.PointsAt file source derivable ts rest := by
  obtain ⟨hlocation, hfirst⟩ := h
  refine ⟨?_, hfirst⟩
  obtain ⟨before, rfl, -⟩ := hfirst
  have hmem : (Ending.ofSource file source).current rest ∈ (Tokens.ofSource source).toList := by
    cases rest with
    | nil => exact List.mem_append_right _ (List.mem_singleton_self _)
    | cons t rest => exact List.mem_append_left _ (hts.subset (by simp [Ending.current]))
  rw [hlocation, Tokens.location_eq file hmem]

/-- Syntax errors point at the first impossible token.  Where the parser fails, be it on a source as
a program, or on its tokens from any of them on as a statement or an expression, it has taken the
tokens in front of the current one.  They, and any part of them in front, can go on to what the
grammar derives; with the current token they cannot.  The error is located at that token. -/
theorem Program.parse_error (file source : String) :
    (∀ error, parse file source = .error error → ∃ rest,
      (Ending.ofSource file source).program (Tokens.ofSource source).items = .failed error rest ∧
        error.PointsAt file source (IsSource file) (Tokens.ofSource source).items rest) ∧
    ∀ ts, ts <:+ (Tokens.ofSource source).items →
      (∀ error rest, (Ending.ofSource file source).statement ts = .failed error rest →
        error.PointsAt file source (IsStatement file) ts rest) ∧
      ∀ error rest, (Ending.ofSource file source).expression ts = .failed error rest →
        error.PointsAt file source (IsExpression file) ts rest := by
  have hfinish : (Ending.ofSource file source).finish.kind = .eof :=
    Tokens.kind_finish_ofSource source
  refine ⟨?_, fun ts hts => ⟨?_, ?_⟩⟩
  · intro error h
    have hitems : ∀ t ∈ (Tokens.ofSource source).items, t.kind ≠ .eof :=
      fun t ht => ((Tokens.ofSource_laid source).nonempty t ht).1
    obtain ⟨rest, hfailed⟩ : ∃ rest,
        (Ending.ofSource file source).program (Tokens.ofSource source).items =
          .failed error rest := Parsed.result_eq_error.1 h
    exact ⟨rest, hfailed, SyntaxError.pointsAt_of_stopsAtFirst List.suffix_rfl
      (Ending.program_stopsAtFirst hfinish hitems hfailed)⟩
  · intro error rest h
    exact SyntaxError.pointsAt_of_stopsAtFirst hts (Ending.statement_stopsAtFirst hfinish h)
  · intro error rest h
    exact SyntaxError.pointsAt_of_stopsAtFirst hts (Ending.expression_stopsAtFirst hfinish h)

-- a declaration cannot go on with the second number, and no statement starts with it
theorem Program.parse_error_stray :
    parse "main" "\x7b var a = 1 2 \x7d" = .error ⟨.expressionStatement, ⟨"main", 1, 13⟩⟩ ∧
      ∃ rest, SyntaxError.PointsAt ⟨.expressionStatement, ⟨"main", 1, 13⟩⟩ "main"
        "\x7b var a = 1 2 \x7d" (IsSource "main")
        (Tokens.ofSource "\x7b var a = 1 2 \x7d").items rest := by
  have hmap : (parse "main" "\x7b var a = 1 2 \x7d").map (fun _ => ()) =
      .error ⟨.expressionStatement, ⟨"main", 1, 13⟩⟩ := by
    decide +kernel
  have herror : parse "main" "\x7b var a = 1 2 \x7d" =
      .error ⟨.expressionStatement, ⟨"main", 1, 13⟩⟩ := by
    cases hparse : parse "main" "\x7b var a = 1 2 \x7d" with
    | ok p =>
        rw [hparse] at hmap
        cases hmap
    | error error =>
        rw [hparse] at hmap
        cases hmap
        rfl
  obtain ⟨rest, -, hpoints⟩ := (parse_error "main" "\x7b var a = 1 2 \x7d").1 _ herror
  exact ⟨herror, rest, hpoints⟩

end BlockScript
