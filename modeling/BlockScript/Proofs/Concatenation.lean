import BlockScript.Proofs.LineIndex
import BlockScript.Proofs.Parsing
import BlockScript.Proofs.Token.Spacing

/-!
# Sources one behind the other

Two programs with a line feed between them are one program, which has the statements of both
(`Program.parse_append`).

At the seam the line feed ends what the first source leaves open.  No token goes over a line feed
(`lexeme_lineFeed`), and a line comment ends in front of one.  Only a block comment that is never
closed would go on in the second source, but that is an invalid token, and no program has one.  So
the tokens of both are the tokens of the first and behind them those of the second
(`Taken.append`), and statements behind statements are statements.

The second source starts on a line of its own.  So its tokens keep their columns, and are as many
lines further down as the first source has (`Taken.lowered`); and the same holds for the nodes that
the grammar gives them (`Grammar.Statements.lowered`).
-/

namespace BlockScript

open Grammar

/-! ## Tokens in front of a line feed -/

namespace Text

/-- A run of characters that cannot be line feeds ends at a line feed. -/
theorem takeWhile_lineFeed {p : Char → Bool} (hp : p '\n' = false) (cs more : List Char) :
    (cs ++ '\n' :: more).takeWhile p = cs.takeWhile p ∧
      (cs ++ '\n' :: more).dropWhile p = cs.dropWhile p ++ '\n' :: more := by
  induction cs with
  | nil => simp [hp]
  | cons c cs ih =>
      by_cases hc : p c
      · simp [hc, ih]
      · simp [hc]

end Text

namespace Numeral

variable (cs more : List Char)

theorem splitSign_lineFeed : splitSign (cs ++ '\n' :: more) =
    ((splitSign cs).1, (splitSign cs).2 ++ '\n' :: more) := by
  cases cs with
  | nil => rfl
  | cons c cs =>
      rw [List.cons_append, splitSign.eq_def, splitSign.eq_def]
      split
      next heq =>
        cases heq
        rfl
      next heq =>
        cases heq
        rfl
      next hplus hminus =>
        split
        next heq =>
          cases heq
          exact absurd rfl (hplus _)
        next heq =>
          cases heq
          exact absurd rfl (hminus _)
        next => rfl

theorem splitFraction_lineFeed : splitFraction (cs ++ '\n' :: more) =
    ((splitFraction cs).1, (splitFraction cs).2 ++ '\n' :: more) := by
  cases cs with
  | nil => rfl
  | cons c cs =>
      by_cases hc : c = '.'
      · subst hc
        cases cs with
        | nil => rfl
        | cons d cs =>
            rw [List.cons_append, List.cons_append, splitFraction, splitFraction]
            split
            next =>
              obtain ⟨htake, hdrop⟩ :=
                Text.takeWhile_lineFeed (p := inRun) (by decide) (d :: cs) more
              rw [← List.cons_append, htake, hdrop]
            next => rfl
      · rw [List.cons_append, splitFraction_of_ne (by simpa using hc),
          splitFraction_of_ne (by simpa using hc), List.cons_append]

theorem splitExponent_lineFeed : splitExponent (cs ++ '\n' :: more) =
    ((splitExponent cs).1, (splitExponent cs).2 ++ '\n' :: more) := by
  cases cs with
  | nil => rfl
  | cons m r =>
      rw [List.cons_append, splitExponent, splitExponent]
      split
      next =>
        obtain ⟨htake, hdrop⟩ :=
          Text.takeWhile_lineFeed (p := inRun) (by decide) (splitSign r).2 more
        simp only [splitSign_lineFeed, htake, hdrop]
      next => rfl

theorem split_lineFeed : split (cs ++ '\n' :: more) =
    ((split cs).1, (split cs).2 ++ '\n' :: more) := by
  obtain ⟨htake, hdrop⟩ := Text.takeWhile_lineFeed (p := inRun) (by decide) cs more
  rw [split, split, htake, hdrop, splitFraction_lineFeed, splitExponent_lineFeed]

end Numeral

/-- A line feed is no part of a pair of characters. -/
theorem pair_prefix_lineFeed {a b c : Char} (hb : b ≠ '\n') (cs more : List Char) :
    [a, b] <+: c :: (cs ++ '\n' :: more) ↔ [a, b] <+: c :: cs := by
  cases cs with
  | nil => simp [List.cons_prefix_cons, hb]
  | cons d cs => simp [List.cons_prefix_cons]

/-- A character that starts neither a numeral nor a name is a token by itself, unless it is the
first of a pair. -/
theorem lexeme_single {c : Char} {cs : List Char} (hd : ¬ Text.isDigit c)
    (hn : ¬ Text.isNameStart c) (hcomment : ¬ ['/', '*'] <+: c :: cs)
    (hequal : ¬ ['=', '='] <+: c :: cs) (hnot : ¬ ['!', '='] <+: c :: cs) :
    lexeme c cs = ⟨(Token.Kind.ofSymbol? c).getD .invalid, [c], cs⟩ := by
  rw [lexeme.eq_def]
  split
  next r => exact absurd ⟨r, rfl⟩ hcomment
  next r => exact absurd ⟨r, rfl⟩ hequal
  next r => exact absurd ⟨r, rfl⟩ hnot
  next =>
    rw [if_neg hd, if_neg hn]
    cases Token.Kind.ofSymbol? c with
    | none => rfl
    | some k => rfl

/-- A token ends in front of a line feed, if it is no comment. -/
theorem lexeme_lineFeed {c : Char} {cs : List Char} (h : ¬ ['/', '*'] <+: c :: cs)
    (more : List Char) : lexeme c (cs ++ '\n' :: more) =
      ⟨(lexeme c cs).kind, (lexeme c cs).text, (lexeme c cs).rest ++ '\n' :: more⟩ := by
  by_cases hd : Text.isDigit c
  · rw [lexeme_of_isDigit hd, lexeme_of_isDigit hd, ← List.cons_append, Numeral.split_lineFeed]
  by_cases hn : Text.isNameStart c
  · obtain ⟨htake, hdrop⟩ := Text.takeWhile_lineFeed (p := Text.isNamePart) (by decide) cs more
    rw [lexeme_of_isNameStart hn, lexeme_of_isNameStart hn, htake, hdrop]
  by_cases hequal : ['=', '='] <+: c :: cs
  · obtain ⟨r, hr⟩ := hequal
    cases hr
    rfl
  by_cases hnot : ['!', '='] <+: c :: cs
  · obtain ⟨r, hr⟩ := hnot
    cases hr
    rfl
  have hpair : ∀ {a b : Char}, b ≠ '\n' → ¬ [a, b] <+: c :: cs →
      ¬ [a, b] <+: c :: (cs ++ '\n' :: more) :=
    fun hb => mt (pair_prefix_lineFeed hb cs more).1
  rw [lexeme_single hd hn h hequal hnot, lexeme_single hd hn (hpair (by decide) h)
    (hpair (by decide) hequal) (hpair (by decide) hnot)]

/-! ## Gaps in front of a line feed -/

theorem EndsLine.lineFeed {rest : List Char} (h : EndsLine rest) (more : List Char) :
    EndsLine (rest ++ '\n' :: more) := by
  cases rest with
  | nil => simp [EndsLine]
  | cons c rest => exact h

theorem GapPiece.lineFeed {rest piece : List Char} (h : GapPiece rest piece) (more : List Char) :
    GapPiece (rest ++ '\n' :: more) piece := by
  cases h with
  | blank hc => exact .blank hc
  | line hn hr hrest => exact .line hn hr (hrest.lineFeed more)
  | comment hbody => exact .comment hbody

/-- A gap is a gap also if a line feed follows. -/
theorem Gap.lineFeed {rest gap : List Char} (h : Gap rest gap) (more : List Char) :
    Gap (rest ++ '\n' :: more) gap := by
  induction h with
  | nil => exact .nil
  | cons hpiece _ ih =>
      refine .cons ?_ ih
      rw [← List.append_assoc]
      exact hpiece.lineFeed more

/-- Where a gap stops, it stops also if a line feed follows, except in front of an open comment. -/
theorem StopsGap.lineFeed {c : Char} {cs : List Char} (h : StopsGap (c :: cs))
    (hcomment : ¬ ['/', '*'] <+: c :: cs) (more : List Char) :
    StopsGap (c :: (cs ++ '\n' :: more)) := by
  intro piece rest htext hpiece
  cases hpiece with
  | blank hc =>
      have hblank := h.isBlank
      cases htext
      rw [Cursor.isBlank_iff.2 hc] at hblank
      cases hblank
  | @line body _ _ _ =>
      have hpair : ['/', '/'] <+: c :: (cs ++ '\n' :: more) := ⟨body ++ rest, htext.symm⟩
      obtain ⟨text, hcs⟩ := (pair_prefix_lineFeed (by decide) cs more).1 hpair
      obtain ⟨line, rest', rfl, hn, hr, hrest⟩ := Cursor.exists_line text
      exact h ('/' :: '/' :: line) rest' hcs.symm (.line hn hr hrest)
  | @comment body _ =>
      have hpair : ['/', '*'] <+: c :: (cs ++ '\n' :: more) :=
        ⟨body ++ ['*', '/'] ++ rest, htext.symm⟩
      exact hcomment ((pair_prefix_lineFeed (by decide) cs more).1 hpair)

/-! ## Tokens of a text and of the text behind it -/

namespace Taken

variable {p : Position} {text : List Char} {ts us : List Token}

/-- The tokens of a text and behind them those of the text behind a line feed. -/
theorem append (h : Taken p text ts) (hts : ∀ t ∈ ts, Grammar.IsProper t) {more : List Char}
    (h' : Taken (p.after (text ++ ['\n'])) more us) :
    Taken p (text ++ '\n' :: more) (ts ++ us) := by
  induction h with
  | @finish p start text hskip =>
      obtain ⟨gap, rfl, rfl, hgap, -⟩ := Cursor.exists_gap hskip
      rw [List.append_nil] at h' ⊢
      rw [Position.after_append] at h'
      refine h'.skip ?_
      have hfeed := (hgap.lineFeed more).skipGap_append p
      exact hfeed.trans (Cursor.skipGap_blank rfl (p.after gap) more)
  | @token p start text cs c ts hskip _ ih =>
      obtain ⟨gap, rfl, rfl, hgap, hstop⟩ := Cursor.exists_gap hskip
      obtain ⟨hproper, hts⟩ := List.forall_mem_cons.1 hts
      have hcomment : ¬ ['/', '*'] <+: c :: cs := by
        rintro ⟨body, hbody⟩
        cases hbody
        exact hproper.2 rfl
      have hskip : Cursor.skipGap p (gap ++ c :: (cs ++ '\n' :: more)) =
          ⟨p.after gap, c :: (cs ++ '\n' :: more)⟩ :=
        (hgap.lineFeed more).skipGap (hstop.lineFeed hcomment more) p
      have hlex := lexeme_lineFeed hcomment more
      rw [List.append_assoc, Position.after_append, ← lexeme_append c cs, List.append_assoc,
        Position.after_append] at h'
      have hafter : Taken ((p.after gap).after (lexeme c (cs ++ '\n' :: more)).text)
          (lexeme c (cs ++ '\n' :: more)).rest (ts ++ us) := by
        rw [hlex]
        exact ih hts h'
      have hnext := Taken.token hskip hafter
      rw [hlex] at hnext
      rw [List.append_assoc]
      exact hnext

end Taken

/-! ## Tokens further down -/

/-- The place some bytes and lines further on, in the same column. -/
def Position.lowered (bytes lines : Nat) (p : Position) : Position :=
  ⟨p.offset + bytes, p.line + lines, p.column⟩

/-- The token some bytes and lines further on. -/
def Token.lowered (bytes lines : Nat) (t : Token) : Token :=
  { t with start := t.start.lowered bytes lines, stop := t.stop.lowered bytes lines }

theorem Position.lowered_after (bytes lines : Nat) (text : List Char) (p : Position) :
    (p.after text).lowered bytes lines = (p.lowered bytes lines).after text := by
  induction text generalizing p with
  | nil => rfl
  | cons c text ih =>
      have hstep : (p.advance c).lowered bytes lines = (p.lowered bytes lines).advance c := by
        simp only [advance, lowered]
        split
        next => simp only [mk.injEq, and_true]; omega
        next => simp only [mk.injEq, and_true]; omega
      rw [after_cons, after_cons, ih, hstep]

/-- The same text further down has the same tokens further down. -/
theorem Taken.lowered {p : Position} {text : List Char} {ts : List Token} (h : Taken p text ts)
    (bytes lines : Nat) :
    Taken (p.lowered bytes lines) text (ts.map (Token.lowered bytes lines)) := by
  induction h with
  | @finish p start text hskip =>
      obtain ⟨gap, rfl, rfl, hgap, -⟩ := Cursor.exists_gap hskip
      exact .finish (hgap.skipGap stopsGap_nil _)
  | @token p start text cs c ts hskip _ ih =>
      obtain ⟨gap, rfl, rfl, hgap, hstop⟩ := Cursor.exists_gap hskip
      rw [Position.lowered_after, Position.lowered_after] at ih
      have hnext := Taken.token (hgap.skipGap hstop (p.lowered bytes lines)) ih
      rw [← Position.lowered_after, ← Position.lowered_after] at hnext
      exact hnext

/-! ## Trees further down -/

/-- The location some lines further down, in the same column. -/
def Location.lowered (lines : Nat) (l : Location) : Location := { l with line := l.line + lines }

/-- The site some lines further down. -/
def Site.lowered (lines : Nat) (s : Site) : Site := ⟨s.location.lowered lines, s.context⟩

namespace Tree

mutual

/-- The tree with all its nodes some lines further down. -/
def lowered (lines : Nat) : Tree → Tree
  | block site body => block (site.lowered lines) (loweredAll lines body)
  | declaration site name slot init =>
    declaration (site.lowered lines) name slot (init.lowered lines)
  | operation site op left right =>
    operation (site.lowered lines) op (left.lowered lines) (right.lowered lines)
  | identifier site name binding => identifier (site.lowered lines) name binding
  | literal site value constant => literal (site.lowered lines) value constant

/-- Trees with all their nodes some lines further down. -/
def loweredAll (lines : Nat) : List Tree → List Tree
  | [] => []
  | t :: ts => t.lowered lines :: loweredAll lines ts

end

variable (lines : Nat)

theorem loweredAll_append (ts us : List Tree) :
    loweredAll lines (ts ++ us) = loweredAll lines ts ++ loweredAll lines us := by
  induction ts with
  | nil => rfl
  | cons t ts ih => rw [List.cons_append, loweredAll, loweredAll, ih, List.cons_append]

theorem lowered_operate (op : Operator) (left right : Tree) :
    (operate op left right).lowered lines =
      operate op (left.lowered lines) (right.lowered lines) := by
  have hsite : left.site.location.lowered lines = (left.lowered lines).site.location := by
    cases left with
    | _ => simp only [lowered, site, Site.lowered]
  rw [operate, lowered, operate, location, location, Site.lowered, hsite]

end Tree

section

variable {file : String} {bytes lines : Nat}

mutual

/-- Tokens further down are a phrase with the tree further down. -/
theorem Grammar.Expression.lowered {p : Phrase} {ts : List Token} {x : Tree}
    (h : Expression file p ts x) :
    Expression file p (ts.map (Token.lowered bytes lines)) (x.lowered lines) := by
  match h with
  | .integer hk => exact .integer hk
  | .float hk => exact .float hk
  | .identifier hk => exact .identifier hk
  | .parentheses hl hx hr =>
      rw [List.map_cons, List.map_append]
      exact .parentheses hl hx.lowered hr
  | .chain hp hx hops =>
      rw [List.map_append]
      exact .chain hp hx.lowered hops.lowered

theorem Grammar.Operations.lowered {p : Phrase} {ts : List Token} {x y : Tree}
    (h : Operations file p x ts y) :
    Operations file p (x.lowered lines) (ts.map (Token.lowered bytes lines)) (y.lowered lines) := by
  match h with
  | .nil => exact .nil
  | @Operations.cons _ _ op _ _ us x y z hp ht hy hops =>
      have hrest : Operations file p ((Tree.operate op x y).lowered lines)
          (us.map (Token.lowered bytes lines)) (z.lowered lines) := hops.lowered
      rw [Tree.lowered_operate] at hrest
      rw [List.map_cons, List.map_append]
      exact .cons hp ht hy.lowered hrest

end

theorem Grammar.Terminator.lowered {ts : List Token} (h : Terminator ts) :
    Terminator (ts.map (Token.lowered bytes lines)) := by
  cases h with
  | none => exact .none
  | semicolon ht => exact .semicolon ht

mutual

theorem Grammar.Statement.lowered {ts : List Token} {x : Option Tree} (h : Statement file ts x) :
    Statement file (ts.map (Token.lowered bytes lines)) (x.map (Tree.lowered lines)) := by
  match h with
  | .empty hk => exact .empty hk
  | .declaration hv hi hq hx hus =>
      rw [List.map_cons, List.map_cons, List.map_cons, List.map_append]
      exact .declaration hv hi hq hx.lowered hus.lowered
  | .block hl hbody hr =>
      rw [List.map_cons, List.map_append]
      exact .block hl hbody.lowered hr

/-- Tokens further down are statements with the trees further down. -/
theorem Grammar.Statements.lowered {ts : List Token} {body : List Tree}
    (h : Statements file ts body) :
    Statements file (ts.map (Token.lowered bytes lines)) (Tree.loweredAll lines body) := by
  match h with
  | .nil => exact .nil
  | .cons (x := x) hx h =>
      have hnode : Tree.loweredAll lines x.toList = (x.map (Tree.lowered lines)).toList := by
        cases x with
        | none => rfl
        | some x => rfl
      rw [List.map_append, Tree.loweredAll_append, hnode]
      exact .cons hx.lowered h.lowered

end

end

/-! ## Programs -/

/-- Two programs one behind the other, with a line feed between them, are a program.  Its statements
are those of the first, where they are, and then those of the second, as many lines further down as
the first has and in the same columns. -/
theorem Program.parse_append {file source₁ source₂ : String} {p₁ p₂ : Program}
    (h₁ : parse file source₁ = .ok p₁) (h₂ : parse file source₂ = .ok p₂) :
    ∃ p, parse file (source₁ ++ "\n" ++ source₂) = .ok p ∧
      p.body = p₁.body ++ Tree.loweredAll (1 + source₁.toList.count '\n') p₂.body := by
  have hs₁ := exists_parse_iff.1 ⟨p₁, h₁, rfl⟩
  have hs₂ := exists_parse_iff.1 ⟨p₂, h₂, rfl⟩
  -- the second source starts where the line feed behind the first leads
  have hplace : Position.start.after (source₁.toList ++ ['\n']) =
      Position.start.lowered (byteCount source₁.toList + 1) (1 + source₁.toList.count '\n') := by
    rw [Position.after_append, Position.after_start, Position.after_cons, Position.after_nil,
      Position.advance, if_pos rfl, Position.lowered, Position.start]
    simp only [Position.mk.injEq, and_true, Nat.zero_add]
    exact ⟨rfl, by omega⟩
  have htail := (Tokens.ofSource_taken source₂).lowered (byteCount source₁.toList + 1)
    (1 + source₁.toList.count '\n')
  rw [← hplace] at htail
  have htaken := (Tokens.ofSource_taken source₁).append hs₁.isProper htail
  have hsource :
      (source₁ ++ "\n" ++ source₂).toList = source₁.toList ++ '\n' :: source₂.toList := by
    simp
  rw [← hsource] at htaken
  refine exists_parse_iff.2 ?_
  rw [(Tokens.ofSource_taken _).unique htaken]
  exact hs₁.append hs₂.lowered

-- the line feed ends the comment, and the semicolon ends the declaration in front of it
theorem Program.parse_append_comment : ∃ p₁ p₂ p,
    parse "main" "var a = 1 // one" = .ok p₁ ∧ parse "main" "; var b = a" = .ok p₂ ∧
      parse "main" ("var a = 1 // one" ++ "\n" ++ "; var b = a") = .ok p ∧
      p.body = p₁.body ++ Tree.loweredAll 1 p₂.body ∧
      p.body.map (fun x => (x.location.line, x.location.column)) = [(1, 1), (2, 3)] := by
  obtain ⟨p₁, h₁, -⟩ := exists_parse_of_map (show
    (parse "main" "var a = 1 // one").toOption.map (·.body.length) = some 1 by decide +kernel)
  obtain ⟨p₂, h₂, -⟩ := exists_parse_of_map (show
    (parse "main" "; var b = a").toOption.map (·.body.length) = some 1 by decide +kernel)
  obtain ⟨p, hp, hlocations⟩ := exists_parse_of_map (show
    (parse "main" ("var a = 1 // one" ++ "\n" ++ "; var b = a")).toOption.map
      (fun p => p.body.map fun x => (x.location.line, x.location.column)) =
        some [(1, 1), (2, 3)] by decide +kernel)
  obtain ⟨p', hp', hbody⟩ := parse_append h₁ h₂
  cases hp.symm.trans hp'
  exact ⟨p₁, p₂, p, h₁, h₂, hp, hbody, hlocations⟩

end BlockScript
