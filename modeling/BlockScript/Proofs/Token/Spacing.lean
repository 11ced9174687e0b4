import BlockScript.Proofs.Token.Partition

/-!
# Tokens and the space between them

Where a token ends may hang on the character behind it: a name goes on with letters, `=` with
another `=`, and the point of a numeral belongs to it only in front of a digit.  Still a token that
was taken off a text is the same token if a blank or the end of the text stands behind it
(`lexeme_respaced`), an invalid one included.  Only a comment that is never closed takes all of the
text behind it, and then there is no text behind it.

So the texts of the tokens of a source, written with one blank between two, are scanned as the same
tokens: the main statement, `Tokens.ofSource_respaced`.
-/

namespace BlockScript

/-! ## Tokens one by one -/

/-- Scanning takes these tokens off the text at `p`, one after the other. -/
inductive Taken : Position → List Char → List Token → Prop where
  | finish {p start : Position} {text : List Char} : Cursor.skipGap p text = ⟨start, []⟩ →
      Taken p text []
  | token {p start : Position} {text cs : List Char} {c : Char} {ts : List Token} :
      Cursor.skipGap p text = ⟨start, c :: cs⟩ →
      Taken (start.after (lexeme c cs).text) (lexeme c cs).rest ts →
      Taken p text (⟨(lexeme c cs).kind, (lexeme c cs).text, start,
        start.after (lexeme c cs).text⟩ :: ts)

theorem Tokens.exists_taken (found : List Token) (p : Position) (text : List Char) :
    ∃ ts, (scan found p text).items = found.reverse ++ ts ∧ Taken p text ts := by
  fun_induction scan found p text with
  | case1 found p text start hskip => exact ⟨[], (List.append_nil _).symm, .finish hskip⟩
  | case2 found p text start c cs hskip l stop ih =>
      obtain ⟨ts, hitems, htaken⟩ := ih
      refine ⟨_, ?_, .token hskip htaken⟩
      rw [hitems, List.reverse_cons, List.append_assoc]
      rfl

theorem Tokens.ofSource_taken (source : String) :
    Taken .start source.toList (ofSource source).items := by
  obtain ⟨ts, hitems, htaken⟩ := exists_taken [] .start source.toList
  obtain rfl : (ofSource source).items = ts := hitems
  exact htaken

namespace Taken

variable {p : Position} {text : List Char} {ts ts' : List Token}

/-- The tokens are determined by the text. -/
theorem unique (h : Taken p text ts) (h' : Taken p text ts') : ts = ts' := by
  induction h generalizing ts' with
  | finish hskip =>
      cases h' with
      | finish _ => rfl
      | token hskip' _ => cases hskip.symm.trans hskip'
  | token hskip _ ih =>
      cases h' with
      | finish hskip' => cases hskip.symm.trans hskip'
      | token hskip' htaken =>
          cases hskip.symm.trans hskip'
          rw [ih htaken]

theorem eq_nil (h : Taken p [] ts) : ts = [] := h.unique (.finish (by rw [Cursor.skipGap]))

/-- What is passed over in front of a text takes nothing away from its tokens. -/
theorem skip {p' : Position} {text' : List Char} (h : Taken p' text' ts)
    (hskip : Cursor.skipGap p text = Cursor.skipGap p' text') : Taken p text ts := by
  cases h with
  | finish h => exact .finish (hskip.trans h)
  | token h htaken => exact .token (hskip.trans h) htaken

/-- A blank in front changes only the place. -/
theorem blank (h : Taken (p.advance ' ') text ts) : Taken p (' ' :: text) ts :=
  h.skip (Cursor.skipGap_blank rfl p text)

/-- A token was taken off the source where it stands, and no gap goes on there. -/
theorem exists_lexeme {source : String} (h : Taken p text ts) (hs : GoesOn source p.offset text) :
    ∀ t ∈ ts, ∃ c cs, GoesOn source t.start.offset (c :: cs) ∧ StopsGap (c :: cs) ∧
      t.kind = (lexeme c cs).kind ∧ t.text = (lexeme c cs).text ∧
      t.stop = t.start.after t.text := by
  induction h with
  | finish _ => simp
  | @token p start text cs c ts hskip _ ih =>
      obtain ⟨gap, rfl, rfl, -, hstop⟩ := Cursor.exists_gap hskip
      have htoken := hs.skip
      rw [← Position.offset_after] at htoken
      refine List.forall_mem_cons.2 ⟨⟨c, cs, htoken, hstop, rfl, rfl, rfl⟩, ih ?_⟩
      rw [Position.offset_after]
      rw [← lexeme_append c cs] at htoken
      exact htoken.skip

end Taken

/-! ## A token in front of a blank -/

/-- A character that no token starts with, the first half of `!=` included. -/
structure Stray (c : Char) : Prop where
  symbol : Token.Kind.ofSymbol? c = none
  digit : Text.isDigit c = false
  name : Text.isNameStart c = false

/-- An invalid token is a numeral, a comment that is never closed, or one stray character. -/
theorem lexeme_invalid {c : Char} {cs : List Char} (h : (lexeme c cs).kind = .invalid) :
    Text.isDigit c = true ∨ (c = '/' ∧ ∃ body, cs = '*' :: body) ∨
      (Stray c ∧ lexeme c cs = ⟨.invalid, [c], cs⟩) := by
  rw [lexeme.eq_def] at h ⊢
  split at h
  next => exact Or.inr (Or.inl ⟨rfl, _, rfl⟩)
  next => cases h
  next => cases h
  next =>
    split at h
    next hk => exact absurd h (Token.Kind.ofSymbol?_ne hk).1
    next hsymbol =>
      split at h
      next hd => exact Or.inl hd
      next hd =>
        split at h
        next hn =>
          have hparts : ∀ d ∈ cs.takeWhile Text.isNamePart, Text.isNamePart d :=
            fun d hd => List.mem_takeWhile_imp hd
          exact absurd h (Lexical.name hn hparts).ne_invalid
        next hn =>
          rw [Bool.not_eq_true] at hd hn
          exact Or.inr (Or.inr ⟨⟨hsymbol, hd, hn⟩, by simp [hd, hn]⟩)

namespace Stray

variable {c : Char} {rest : List Char}

theorem lexeme (h : Stray c) (hrest : ∀ d ∈ rest.head?, d = ' ') :
    BlockScript.lexeme c rest = ⟨.invalid, [c], rest⟩ := by
  obtain ⟨hsymbol, hd, hn⟩ := h
  rw [lexeme.eq_def]
  split
  next => cases hsymbol
  next => cases hsymbol
  next => cases hrest _ rfl
  next => simp [hsymbol, hd, hn]

theorem ne_slash (h : Stray c) : c ≠ '/' := by
  rintro rfl
  cases h.symbol

end Stray

theorem StopsGap.isBlank {c : Char} {cs : List Char} (h : StopsGap (c :: cs)) :
    Cursor.isBlank c = false := by
  rw [← Bool.not_eq_true]
  intro hblank
  exact h [c] cs rfl (.blank (Cursor.isBlank_iff.1 hblank))

theorem Cursor.skipGap_of_head {c : Char} (hblank : isBlank c = false) (hslash : c ≠ '/')
    (p : Position) (cs : List Char) : skipGap p (c :: cs) = ⟨p, c :: cs⟩ := by
  rw [skipGap.eq_def]
  simp [hblank, hslash]

/-- A numeral is the same numeral in front of a blank, whatever it denotes. -/
theorem lexeme_respaced_of_isDigit {c : Char} (hd : Text.isDigit c) (cs : List Char)
    {rest : List Char} (hrest : ∀ d ∈ rest.head?, d = ' ') :
    ∃ ds, (lexeme c cs).text = c :: ds ∧
      lexeme c (ds ++ rest) = ⟨(lexeme c cs).kind, c :: ds, rest⟩ := by
  obtain ⟨hvalid, happend⟩ := Numeral.split_spec hd cs
  -- a blank is neither part of a numeral nor a sign
  have hends : Numeral.Ends rest := fun d hd => by simp [hrest d hd]; decide
  have hsplit := Numeral.split_text hvalid (fun _ _ _ d hd => by simp [hrest d hd]) hends
  obtain ⟨d, ds, hcons, -⟩ := Numeral.text_eq_cons hvalid
  rw [hcons] at happend hsplit
  obtain rfl : d = c := (List.cons.inj happend).1
  refine ⟨ds, ?_, ?_⟩
  · rw [lexeme_of_isDigit hd, hcons]
  · rw [lexeme_of_isDigit hd, lexeme_of_isDigit hd, ← List.cons_append, hsplit, hcons]

/-- A token is the same token in front of a blank and at the end of the text, also an invalid one.
A comment that is never closed is so at the end. -/
theorem lexeme_respaced {c : Char} {cs rest : List Char} (hstop : StopsGap (c :: cs))
    (hrest : ∀ d ∈ rest.head?, d = ' ') (hcomment : ['/', '*'] <+: c :: cs → rest = []) :
    ∃ ds, (lexeme c cs).text = c :: ds ∧
      lexeme c (ds ++ rest) = ⟨(lexeme c cs).kind, c :: ds, rest⟩ ∧
      ∀ p, Cursor.skipGap p (c :: (ds ++ rest)) = ⟨p, c :: (ds ++ rest)⟩ := by
  by_cases hk : (lexeme c cs).kind = .invalid
  · obtain hd | ⟨rfl, body, rfl⟩ | ⟨hstray, hl⟩ := lexeme_invalid hk
    · have hslash : c ≠ '/' := by
        rintro rfl
        cases hd
      obtain ⟨ds, hds, hlex⟩ := lexeme_respaced_of_isDigit hd cs hrest
      exact ⟨ds, hds, hlex, fun p => Cursor.skipGap_of_head hstop.isBlank hslash p _⟩
    · obtain rfl := hcomment ⟨body, rfl⟩
      refine ⟨'*' :: body, rfl, ?_, ?_⟩
      · rw [List.append_nil]
        rfl
      · rw [List.append_nil]
        exact Cursor.skipGap_stops hstop
    · exact ⟨[], by rw [hl], by rw [hl]; exact hstray.lexeme hrest,
        fun p => Cursor.skipGap_of_head hstop.isBlank hstray.ne_slash p _⟩
  · have hlex := Lexical.of_lexeme hk
    have hstops : ∀ d ∈ rest.head?, (lexeme c cs).kind.stopsAt d := by
      intro d hd
      rw [hrest d hd]
      exact Token.Kind.stopsAt_blank _
    obtain ⟨d, ds, hcons⟩ := hlex.exists_cons
    have happend := lexeme_append c cs
    rw [hcons] at hlex happend
    obtain rfl : d = c := (List.cons.inj happend).1
    exact ⟨ds, hcons, hlex.lexeme hstops, Cursor.skipGap_lexical hlex hstops⟩

/-! ## Sources -/

/-- The texts of tokens, one blank between two. -/
def Token.spaced (ts : List Token) : List Char := [' '].intercalate (ts.map Token.text)

/-- The same behind another token: there is a blank in front of each text. -/
def Token.spacedBehind : List Token → List Char
  | [] => []
  | ts => ' ' :: Token.spaced ts

theorem Token.spaced_cons (t : Token) (ts : List Token) :
    Token.spaced (t :: ts) = t.text ++ Token.spacedBehind ts := by
  cases ts with
  | nil => simp [spaced, spacedBehind]
  | cons u ts => simp [spaced, spacedBehind]

theorem Token.head?_spacedBehind (ts : List Token) : ∀ d ∈ (spacedBehind ts).head?, d = ' ' := by
  cases ts with
  | nil => simp [spacedBehind]
  | cons t ts => simp [spacedBehind]

/-- The tokens have the same kinds and texts. -/
def Token.Alike (ts ts' : List Token) : Prop :=
  ts'.map kind = ts.map kind ∧ ts'.map text = ts.map text

/-- Texts of tokens with blanks between them are scanned as these tokens. -/
theorem Taken.respaced {p : Position} {text : List Char} {ts : List Token} (h : Taken p text ts) :
    ∀ q, ∃ ts', Taken q (Token.spaced ts) ts' ∧ Token.Alike ts ts' := by
  induction h with
  | finish _ => exact fun q => ⟨[], .finish (Cursor.skipGap_stops stopsGap_nil q), rfl, rfl⟩
  | @token p start text cs c ts hskip htaken ih =>
      intro q
      obtain ⟨gap, rfl, rfl, -, hstop⟩ := Cursor.exists_gap hskip
      have hcomment : ['/', '*'] <+: c :: cs → Token.spacedBehind ts = [] := by
        rintro ⟨body, hbody⟩
        cases hbody
        rw [htaken.eq_nil, Token.spacedBehind]
      obtain ⟨ds, hds, hlex, hstart⟩ :=
        lexeme_respaced hstop (Token.head?_spacedBehind ts) hcomment
      obtain ⟨ts', htaken', hkinds, htexts⟩ : ∃ ts',
          Taken (q.after (c :: ds)) (Token.spacedBehind ts) ts' ∧ Token.Alike ts ts' := by
        cases ts with
        | nil => exact ih (q.after (c :: ds))
        | cons t ts =>
            obtain ⟨ts', htaken', halike⟩ := ih ((q.after (c :: ds)).advance ' ')
            exact ⟨ts', htaken'.blank, halike⟩
      refine ⟨⟨(lexeme c cs).kind, c :: ds, q, q.after (c :: ds)⟩ :: ts', ?_, by simp [hkinds],
        by simp [htexts, hds]⟩
      rw [Token.spaced_cons, hds]
      have hafter : Taken (q.after (lexeme c (ds ++ Token.spacedBehind ts)).text)
          (lexeme c (ds ++ Token.spacedBehind ts)).rest ts' := by
        rw [hlex]
        exact htaken'
      have hnext := Taken.token (hstart q) hafter
      rw [hlex] at hnext
      exact hnext

/-- The kind of a token can be told from its text alone. -/
theorem Taken.kind_eq {source : String} {p : Position} {text : List Char} {ts : List Token}
    (h : Taken p text ts) (hs : GoesOn source p.offset text) :
    ∀ t ∈ ts, ∃ c cs, t.text = c :: cs ∧ t.kind = (lexeme c cs).kind := by
  intro t ht
  obtain ⟨c, cs, -, hstop, hkind, htext, -⟩ := h.exists_lexeme hs t ht
  have hend : ∀ d ∈ ([] : List Char).head?, d = ' ' := nofun
  obtain ⟨ds, hds, hlex, -⟩ := lexeme_respaced hstop hend fun _ => rfl
  rw [List.append_nil] at hlex
  exact ⟨c, ds, htext.trans hds, by rw [hlex, hkind]⟩

namespace Tokens

/-- A source as it is read again: the texts of its tokens, one blank between two. -/
def respaced (ts : Tokens) : String := String.ofList (Token.spaced ts.items)

/-- Scanning is stable under other spaces.  The texts of all tokens of a source, the invalid ones
included, joined with single blanks are scanned as tokens of the same kinds, with the same numbers
and names and the same texts.  The text of a token is what the source has between its places, and
wherever a token with this text stands in a source, it has the same kind. -/
theorem ofSource_respaced (source : String) :
    (ofSource (ofSource source).respaced).toList.map Token.kind =
      (ofSource source).toList.map Token.kind ∧
    (ofSource (ofSource source).respaced).items.map Token.text =
      (ofSource source).items.map Token.text ∧
    (∀ t ∈ (ofSource source).items, ∃ rest,
      Excerpt source t.start.offset t.stop.offset t.text rest) ∧
    ∀ t ∈ (ofSource source).items, ∀ source', ∀ t' ∈ (ofSource source').items,
      t'.text = t.text → t'.kind = t.kind := by
  have hs : ∀ source : String, GoesOn source Position.start.offset source.toList :=
    fun _ => ⟨[], rfl, rfl⟩
  have htaken := ofSource_taken source
  have hagain := ofSource_taken (ofSource source).respaced
  have hrespaced : (ofSource source).respaced.toList = Token.spaced (ofSource source).items :=
    String.toList_ofList
  rw [hrespaced] at hagain
  obtain ⟨ts', htaken', hkinds, htexts⟩ := htaken.respaced .start
  rw [← hagain.unique htaken'] at hkinds htexts
  refine ⟨?_, htexts, ?_, ?_⟩
  · simp only [toList, List.map_append, hkinds, List.map_cons, kind_finish_ofSource]
  · intro t ht
    obtain ⟨c, cs, hgoes, -, -, htext, hstop⟩ := htaken.exists_lexeme (hs source) t ht
    refine ⟨(lexeme c cs).rest, ?_, by rw [hstop, Position.offset_after]⟩
    rw [htext, lexeme_append]
    exact hgoes
  · intro t ht source' t' ht' heq
    obtain ⟨c, cs, htext, hkind⟩ := htaken.kind_eq (hs source) t ht
    obtain ⟨c', cs', htext', hkind'⟩ := (ofSource_taken source').kind_eq (hs source') t' ht'
    rw [heq, htext] at htext'
    cases htext'
    rw [hkind, hkind']

-- neither the comment nor the missing space behind `1e+` is seen
example : (ofSource "a=1e+/**/2 /*").respaced = "a = 1e+ 2 /*" := by decide +kernel

end Tokens

end BlockScript
