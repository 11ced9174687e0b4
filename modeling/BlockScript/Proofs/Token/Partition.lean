import BlockScript.Proofs.Token.Gap

/-!
# Tokens partition a source

The tokens of a source stand in it one after the other, with gaps between them, and nothing of the
source is lost or used twice.  `Tokens.Partition` says so in terms of offsets: between two tokens,
before the first and behind the last the source has a gap, each token has the text of its span, and
the token at the end is at the end.  A block comment that is never closed is the last token.
`Tokens.ofSource_partition` proves it for every source.

Scanning is a loop; the same tokens come one by one from `Cursor.next`, which can be called for ever
(`Cursor.call`).

The proof has two steps.  Scanning lays out the tokens in the text, as the rules of `Laid` say.
What follows from that about offsets is then proved by induction on these rules.
-/

namespace BlockScript

/-! ## Bytes -/

/-- The number of bytes of a text. -/
def byteCount (text : List Char) : Nat := (String.ofList text).utf8ByteSize

@[simp] theorem byteCount_nil : byteCount [] = 0 := rfl

@[simp] theorem byteCount_append (text rest : List Char) :
    byteCount (text ++ rest) = byteCount text + byteCount rest := by
  rw [byteCount, String.ofList_append, String.utf8ByteSize_append]
  rfl

theorem byteCount_toList (source : String) : byteCount source.toList = source.utf8ByteSize := by
  rw [byteCount, String.ofList_toList]

theorem byteCount_cons (c : Char) (text : List Char) :
    byteCount (c :: text) = c.utf8Size + byteCount text := by
  have : byteCount [c] = c.utf8Size := by
    simp [byteCount]
  rw [← this, ← byteCount_append]
  rfl

theorem byteCount_pos {text : List Char} (h : text ≠ []) : 0 < byteCount text := by
  cases text with
  | nil => exact absurd rfl h
  | cons c text =>
      rw [byteCount_cons]
      have := c.utf8Size_pos
      omega

theorem Position.offset_after (p : Position) (text : List Char) :
    (p.after text).offset = p.offset + byteCount text := by
  induction text generalizing p with
  | nil => rfl
  | cons c text ih =>
      have hc : (p.advance c).offset = p.offset + c.utf8Size := by
        rw [advance]
        split
        next => rfl
        next => rfl
      rw [after_cons, ih, hc, byteCount_cons]
      omega

/-! ## Calls -/

namespace Cursor

/-- Takes the next token off the text.  At the end of the text it is the token at the end, again and
again. -/
def next (k : Cursor) : Token × Cursor :=
  match skipGap k.position k.rest with
  | ⟨start, []⟩ => (⟨.eof, [], start, start⟩, ⟨start, []⟩)
  | ⟨start, c :: cs⟩ =>
    let l := lexeme c cs
    let stop := start.after l.text
    (⟨l.kind, l.text, start, stop⟩, ⟨stop, l.rest⟩)

/-- The token that a call gives, where the calls before it are counted. -/
def call (k : Cursor) : Nat → Token
  | 0 => k.next.1
  | n + 1 => k.next.2.call n

/-- The cursor in front of a source. -/
def ofSource (source : String) : Cursor := ⟨.start, source.toList⟩

theorem next_of_nil {p start : Position} {text : List Char} (h : skipGap p text = ⟨start, []⟩) :
    next ⟨p, text⟩ = (⟨.eof, [], start, start⟩, ⟨start, []⟩) := by
  rw [next, h]

theorem next_of_cons {p start : Position} {text cs : List Char} {c : Char}
    (h : skipGap p text = ⟨start, c :: cs⟩) :
    next ⟨p, text⟩ = (⟨(lexeme c cs).kind, (lexeme c cs).text, start,
      start.after (lexeme c cs).text⟩, ⟨start.after (lexeme c cs).text, (lexeme c cs).rest⟩) := by
  rw [next, h]

/-- At the end of the text there is only the token at the end. -/
theorem call_nil (p : Position) (n : Nat) : call ⟨p, []⟩ n = ⟨.eof, [], p, p⟩ := by
  have hnext : next ⟨p, []⟩ = (⟨.eof, [], p, p⟩, ⟨p, []⟩) := next_of_nil (by rw [skipGap])
  induction n with
  | zero => rw [call, hnext]
  | succ n ih => rw [call, hnext, ih]

end Cursor

/-! ## Tokens in a text -/

/-- A token and the text behind it are the text it was taken off. -/
theorem lexeme_append (c : Char) (cs : List Char) :
    (lexeme c cs).text ++ (lexeme c cs).rest = c :: cs := by
  by_cases hd : Text.isDigit c
  · rw [lexeme_of_isDigit hd]
    exact (Numeral.split_spec hd cs).2
  by_cases hn : Text.isNameStart c
  · rw [lexeme_of_isNameStart hn]
    exact congrArg (c :: ·) List.takeWhile_append_dropWhile
  rw [lexeme.eq_def]
  split
  next => exact List.append_nil _
  next => rfl
  next => rfl
  next =>
    split
    next => rfl
    next => simp [hd, hn]

theorem Lexical.ne_eof {k : Token.Kind} {text : List Char} (h : Lexical k text) : k ≠ .eof := by
  cases h with
  | symbol hc =>
      rintro rfl
      rw [Token.Kind.ofSymbol?.eq_def] at hc
      split at hc
      all_goals cases hc
  | equalEqual | notEqual => simp
  | @numeral n _ _ =>
      obtain hk | ⟨x, hk⟩ | ⟨v, hk, -⟩ := n.kind_cases
      all_goals simp [hk]
  | name _ _ =>
      rw [Token.Kind.ofName]
      split
      · simp
      · simp

theorem lexeme_kind_ne_eof (c : Char) (cs : List Char) : (lexeme c cs).kind ≠ .eof := by
  by_cases h : (lexeme c cs).kind = .invalid
  · simp [h]
  · exact (Lexical.of_lexeme h).ne_eof

/--
Gaps and tokens alternate in the text at `p`, and the token at the end comes last.  A token stands
where the gap before it stops.  One that starts like a block comment is invalid, and takes the rest
of the text.
-/
inductive Laid : Position → List Char → List Token → Token → Prop where
  | finish {p : Position} {gap : List Char} : Gap [] gap →
      Laid p gap [] ⟨.eof, [], p.after gap, p.after gap⟩
  | token {p : Position} {gap text rest : List Char} {kind : Token.Kind} {ts : List Token}
      {e : Token} : Gap (text ++ rest) gap → StopsGap (text ++ rest) → text ≠ [] → kind ≠ .eof →
      (['/', '*'] <+: text ++ rest → kind = .invalid ∧ rest = []) →
      Laid ((p.after gap).after text) rest ts e →
      Laid p (gap ++ (text ++ rest)) (⟨kind, text, p.after gap, (p.after gap).after text⟩ :: ts) e

/-- Scanning lays the tokens out in the text, and calls give them one after the other. -/
theorem Tokens.scan_laid (found : List Token) (p : Position) (text : List Char) : ∃ ts,
    (scan found p text).items = found.reverse ++ ts ∧
      Laid p text ts (scan found p text).finish ∧
      ∀ n, Cursor.call ⟨p, text⟩ n = ts[n]?.getD (scan found p text).finish := by
  fun_induction scan found p text with
  | case1 found p text start hskip =>
      obtain ⟨gap, rfl, rfl, hgap, -⟩ := Cursor.exists_gap hskip
      refine ⟨[], (List.append_nil _).symm, ?_, ?_⟩
      · rw [List.append_nil]
        exact .finish hgap
      · intro n
        cases n with
        | zero => rw [Cursor.call, Cursor.next_of_nil hskip]; rfl
        | succ n => rw [Cursor.call, Cursor.next_of_nil hskip, Cursor.call_nil]; rfl
  | case2 found p text start c cs hskip l stop ih =>
      obtain ⟨gap, rfl, rfl, hgap, hstop⟩ := Cursor.exists_gap hskip
      obtain ⟨ts, hitems, hlaid, hcall⟩ := ih
      have happend : l.text ++ l.rest = c :: cs := lexeme_append c cs
      refine ⟨⟨l.kind, l.text, p.after gap, stop⟩ :: ts, ?_, ?_, ?_⟩
      · rw [hitems, List.reverse_cons, List.append_assoc]
        rfl
      · rw [← happend] at hgap hstop ⊢
        refine .token hgap hstop ?_ (lexeme_kind_ne_eof c cs) ?_ hlaid
        · intro hnil
          have hlen := lexeme_length_lt c cs
          rw [← happend, hnil] at hlen
          exact Nat.lt_irrefl _ hlen
        · rw [happend]
          rintro ⟨body, hbody⟩
          cases hbody
          exact ⟨rfl, rfl⟩
      · intro n
        cases n with
        | zero => rw [Cursor.call, Cursor.next_of_cons hskip]; rfl
        | succ n => rw [Cursor.call, Cursor.next_of_cons hskip]; exact hcall n

/-! ## Offsets -/

/-- From an offset on, the source has this text. -/
def GoesOn (source : String) (offset : Nat) (text : List Char) : Prop :=
  ∃ before, source.toList = before ++ text ∧ byteCount before = offset

namespace GoesOn

variable {source : String} {offset : Nat} {text rest : List Char}

theorem isValid (h : GoesOn source offset text) : String.Pos.Raw.IsValid source ⟨offset⟩ := by
  obtain ⟨before, hsource, rfl⟩ := h
  refine String.Pos.Raw.isValid_iff_exists_append.2
    ⟨String.ofList before, String.ofList text, ?_, rfl⟩
  rw [← String.ofList_append, ← hsource, String.ofList_toList]

theorem skip (h : GoesOn source offset (text ++ rest)) :
    GoesOn source (offset + byteCount text) rest := by
  obtain ⟨before, hsource, rfl⟩ := h
  exact ⟨before ++ text, by rw [hsource, List.append_assoc], byteCount_append before text⟩

theorem utf8ByteSize_eq (h : GoesOn source offset text) :
    offset + byteCount text = source.utf8ByteSize := by
  obtain ⟨before, hsource, rfl⟩ := h
  rw [← byteCount_append, ← hsource, byteCount_toList]

/-- The text from an offset on is determined by the offset. -/
theorem unique (h : GoesOn source offset text) (h' : GoesOn source offset rest) : text = rest := by
  obtain ⟨before, hsource, hbefore⟩ := h
  obtain ⟨before', hsource', hbefore'⟩ := h'
  -- one of the two texts in front goes on with the other, by no byte and so by nothing
  obtain ⟨more, rfl, rfl⟩ | ⟨more, rfl, rfl⟩ :=
    List.append_eq_append_iff.1 (hsource.symm.trans hsource')
  · have hmore : more = [] := by
      by_contra hne
      have := byteCount_pos hne
      rw [byteCount_append] at hbefore'
      omega
    rw [hmore, List.nil_append]
  · have hmore : more = [] := by
      by_contra hne
      have := byteCount_pos hne
      rw [byteCount_append] at hbefore
      omega
    rw [hmore, List.nil_append]

end GoesOn

/-- Between two offsets the source has a text, and behind it the text `rest`. -/
structure Excerpt (source : String) (start stop : Nat) (text rest : List Char) : Prop where
  goesOn : GoesOn source start (text ++ rest)
  stop_eq : stop = start + byteCount text

theorem Excerpt.isValid {source : String} {start stop : Nat} {text rest : List Char}
    (h : Excerpt source start stop text rest) :
    String.Pos.Raw.IsValid source ⟨start⟩ ∧ String.Pos.Raw.IsValid source ⟨stop⟩ :=
  ⟨h.goesOn.isValid, h.stop_eq ▸ h.goesOn.skip.isValid⟩

namespace Laid

variable {source : String} {p : Position} {text : List Char} {ts : List Token} {e : Token}

theorem finish_eq (h : Laid p text ts e) : e = ⟨.eof, [], p.after text, p.after text⟩ := by
  induction h with
  | finish _ => rfl
  | token _ _ _ _ _ _ ih => rw [ih, Position.after_append, Position.after_append]

theorem nonempty (h : Laid p text ts e) :
    ∀ t ∈ ts, t.kind ≠ .eof ∧ t.start.offset < t.stop.offset := by
  induction h with
  | finish _ => simp
  | @token p gap text rest kind ts e _ _ htext hkind _ _ ih =>
      refine List.forall_mem_cons.2 ⟨⟨hkind, ?_⟩, ih⟩
      have hpos := byteCount_pos htext
      have hstop := Position.offset_after (p.after gap) text
      dsimp only
      omega

theorem excerpts (h : Laid p text ts e) (hs : GoesOn source p.offset text) :
    ∀ t ∈ ts ++ [e], ∃ rest, Excerpt source t.start.offset t.stop.offset t.text rest ∧
      StopsGap (t.text ++ rest) := by
  induction h with
  | @finish p gap _ =>
      rintro t ht
      obtain rfl := List.mem_singleton.1 ht
      rw [← List.append_nil gap] at hs
      have hend := hs.skip
      rw [← Position.offset_after] at hend
      exact ⟨[], ⟨hend, rfl⟩, stopsGap_nil⟩
  | @token p gap text rest kind ts e _ hstop _ _ _ _ ih =>
      have htoken := hs.skip
      rw [← Position.offset_after] at htoken
      have hrest := htoken.skip
      rw [← Position.offset_after] at hrest
      exact List.forall_mem_cons.2
        ⟨⟨rest, ⟨htoken, Position.offset_after _ _⟩, hstop⟩, ih hrest⟩

theorem gaps (h : Laid p text ts e) (hs : GoesOn source p.offset text) :
    ∀ g ∈ (p.offset :: ts.map (·.stop.offset)).zip ((ts ++ [e]).map (·.start.offset)),
      ∃ gap rest, Excerpt source g.1 g.2 gap rest ∧ Gap rest gap := by
  induction h with
  | @finish p gap hgap =>
      intro g hg
      obtain rfl := List.mem_singleton.1 hg
      rw [← List.append_nil gap] at hs
      exact ⟨gap, [], ⟨hs, Position.offset_after _ _⟩, hgap⟩
  | @token p gap text rest kind ts e hgap _ _ _ _ _ ih =>
      have hrest := hs.skip.skip
      rw [← Position.offset_after, ← Position.offset_after] at hrest
      exact List.forall_mem_cons.2
        ⟨⟨gap, text ++ rest, ⟨hs, Position.offset_after _ _⟩, hgap⟩, ih hrest⟩

/-- The tokens in a text start behind the place where it starts, each behind the one before. -/
theorem ordered (h : Laid p text ts e) :
    (∀ t ∈ ts ++ [e], p.offset ≤ t.start.offset) ∧
      (ts ++ [e]).Pairwise fun t u => t.stop.offset ≤ u.start.offset := by
  induction h with
  | @finish p gap _ =>
      have hle := Position.offset_after p gap
      refine ⟨?_, List.pairwise_singleton _ _⟩
      intro t ht
      obtain rfl := List.mem_singleton.1 ht
      dsimp only
      omega
  | @token p gap text rest kind ts e _ _ _ _ _ _ ih =>
      have hgap := Position.offset_after p gap
      have htext := Position.offset_after (p.after gap) text
      obtain ⟨hbehind, hpair⟩ := ih
      refine ⟨?_, List.pairwise_cons.2 ⟨hbehind, hpair⟩⟩
      refine List.forall_mem_cons.2 ⟨by dsimp only; omega, ?_⟩
      intro t ht
      have := hbehind t ht
      omega

/-- Behind the last character there are no tokens. -/
theorem eq_nil (h : Laid p [] ts e) : ts = [] := by
  generalize htext : ([] : List Char) = text at h
  cases h with
  | finish _ => rfl
  | token _ _ hne _ _ _ =>
      rw [eq_comm, List.append_eq_nil_iff, List.append_eq_nil_iff] at htext
      exact absurd htext.2.1 hne

/-- A token that starts like a block comment is one that is never closed, and the last token. -/
theorem comments (h : Laid p text ts e) : ∀ t ∈ ts, ['/', '*'] <+: t.text →
    t.kind = .invalid ∧ Unclosed (t.text.drop 2) ∧ ts.getLast? = some t ∧ t.stop = e.start := by
  induction h with
  | finish _ => simp
  | @token p gap text rest kind ts e _ hstop _ _ hcomment hlaid ih =>
      refine List.forall_mem_cons.2 ⟨?_, ?_⟩
      · intro hstart
        obtain ⟨hkind, rfl⟩ := hcomment (hstart.trans (List.prefix_append _ _))
        obtain rfl := hlaid.eq_nil
        obtain ⟨body, rfl⟩ := hstart
        refine ⟨hkind, ?_, rfl, by rw [hlaid.finish_eq]; rfl⟩
        by_contra hclosed
        obtain ⟨inner, rest, hbody, hinner⟩ := Cursor.exists_comment hclosed
        refine hstop ('/' :: '*' :: (inner ++ ['*', '/'])) rest ?_ (.comment hinner)
        have hbody : body = inner ++ '*' :: '/' :: rest := hbody
        simp [hbody]
      · intro t ht hstart
        obtain ⟨hkind, hun, hlast, hend⟩ := ih t ht hstart
        refine ⟨hkind, hun, ?_, hend⟩
        rw [List.getLast?_cons, hlast]
        rfl

/-- Behind a gap, a block comment that is never closed is the only token. -/
theorem unclosed_head (h : Laid p text ts e) {gap body : List Char}
    (htext : text = gap ++ '/' :: '*' :: body) (hgap : Gap ('/' :: '*' :: body) gap)
    (hbody : Unclosed body) :
    ts = [⟨.invalid, '/' :: '*' :: body, p.after gap, e.start⟩] := by
  have hskip := hgap.skipGap hbody.stopsGap p
  rw [← htext] at hskip
  cases h with
  | finish hgap' =>
      have hskip' := hgap'.skipGap stopsGap_nil p
      rw [List.append_nil] at hskip'
      cases congrArg Cursor.rest (hskip'.symm.trans hskip)
  | @token _ gap' text' rest kind ts e hgap' hstop _ _ hcomment hlaid =>
      have hskip' := hgap'.skipGap hstop p
      obtain ⟨hplace, hrest⟩ := Cursor.mk.inj (hskip'.symm.trans hskip)
      obtain ⟨rfl, rfl⟩ := hcomment ⟨body, hrest.symm⟩
      obtain rfl := hlaid.eq_nil
      rw [List.append_nil] at hrest
      rw [hlaid.finish_eq, hplace, hrest]
      rfl

/-- The same behind some of the tokens: the comment is one token more, and the last. -/
theorem unclosed (h : Laid p text ts e) (hs : GoesOn source p.offset text) {n start stop : Nat}
    {gap body : List Char} (hn : (p.offset :: ts.map (·.stop.offset))[n]? = some start)
    (hx : Excerpt source start stop gap ('/' :: '*' :: body))
    (hgap : Gap ('/' :: '*' :: body) gap) (hbody : Unclosed body) :
    ts.length = n + 1 ∧ ∃ t, ts[n]? = some t ∧ t.kind = .invalid ∧ t.start.offset = stop ∧
      t.stop = e.start := by
  induction h generalizing n with
  | @finish p text hgap' =>
      cases n with
      | zero =>
          obtain rfl := Option.some.inj hn
          have := (Laid.finish (p := p) hgap').unclosed_head (hs.unique hx.goesOn) hgap hbody
          cases this
      | succ n => cases hn
  | @token p gap' text rest kind ts e hgap' hstop htext hkind hcomment hlaid ih =>
      cases n with
      | zero =>
          obtain rfl := Option.some.inj hn
          have hts := (Laid.token hgap' hstop htext hkind hcomment hlaid).unclosed_head
            (hs.unique hx.goesOn) hgap hbody
          rw [hts]
          refine ⟨rfl, _, rfl, rfl, ?_, rfl⟩
          rw [Position.offset_after, hx.stop_eq]
      | succ n =>
          have hrest := hs.skip.skip
          rw [← Position.offset_after, ← Position.offset_after] at hrest
          obtain ⟨hlen, ht⟩ := ih hrest hn
          exact ⟨congrArg (· + 1) hlen, ht⟩

end Laid

/-! ## Sources -/

namespace Tokens

/-- The offsets between which the source has no token, from the first gap to the last. -/
def gaps (ts : Tokens) : List (Nat × Nat) :=
  (0 :: ts.items.map (·.stop.offset)).zip (ts.toList.map (·.start.offset))

/-- The tokens stand in the source one after the other, and nothing but gaps between them. -/
structure Partition (source : String) (ts : Tokens) : Prop where
  /-- Call after call gives the tokens in order, and then the one at the end for ever. -/
  calls : ∀ n, (Cursor.ofSource source).call n = ts.items[n]?.getD ts.finish
  /-- Before the end no token is empty. -/
  nonempty : ∀ t ∈ ts.items, t.kind ≠ .eof ∧ t.start.offset < t.stop.offset
  /-- The token at the end is empty and stands at the end of the source. -/
  finish : ts.finish.kind = .eof ∧ ts.finish.start.offset = source.utf8ByteSize ∧
    ts.finish.stop.offset = source.utf8ByteSize
  /-- Tokens start and stop between characters. -/
  boundaries : ∀ t ∈ ts.toList, String.Pos.Raw.IsValid source ⟨t.start.offset⟩ ∧
    String.Pos.Raw.IsValid source ⟨t.stop.offset⟩
  /-- No token starts before the one in front of it stops. -/
  ordered : ts.toList.Pairwise fun t u => t.stop.offset ≤ u.start.offset
  /-- The source has the text of a token where the token stands, and there no gap goes on. -/
  texts : ∀ t ∈ ts.toList, ∃ rest, Excerpt source t.start.offset t.stop.offset t.text rest ∧
    StopsGap (t.text ++ rest)
  /-- Elsewhere it has gaps. -/
  between : ∀ g ∈ ts.gaps, ∃ gap rest, Excerpt source g.1 g.2 gap rest ∧ Gap rest gap
  /-- If behind `n` of the tokens and a gap a block comment starts that is never closed, it is one
  token more, invalid, and the last before the end. -/
  unclosed : ∀ (n start stop : Nat) (gap body : List Char),
    (0 :: ts.items.map (·.stop.offset))[n]? = some start →
    Excerpt source start stop gap ('/' :: '*' :: body) → Gap ('/' :: '*' :: body) gap →
    Unclosed body →
    ts.items.length = n + 1 ∧ ∃ t, ts.items[n]? = some t ∧ t.kind = .invalid ∧
      t.start.offset = stop ∧ t.stop.offset = source.utf8ByteSize
  /-- A token that starts like a block comment is such a comment. -/
  comments : ∀ t ∈ ts.items, ['/', '*'] <+: t.text → t.kind = .invalid ∧
    Unclosed (t.text.drop 2) ∧ ts.items.getLast? = some t ∧
      t.stop.offset = source.utf8ByteSize

/-- The tokens of every source partition it. -/
theorem ofSource_partition (source : String) : (ofSource source).Partition source := by
  obtain ⟨ts, hitems, hlaid, hcalls⟩ := scan_laid [] .start source.toList
  have hs : GoesOn source Position.start.offset source.toList := ⟨[], rfl, rfl⟩
  obtain rfl : (ofSource source).items = ts := hitems
  have hend : (ofSource source).finish.start.offset = source.utf8ByteSize := by
    rw [ofSource, hlaid.finish_eq, Position.offset_after]
    exact hs.utf8ByteSize_eq
  constructor
  case calls => exact hcalls
  case nonempty => exact hlaid.nonempty
  case finish =>
    refine ⟨by rw [ofSource, hlaid.finish_eq], hend, ?_⟩
    rw [← hend, ofSource, hlaid.finish_eq]
  case boundaries =>
    intro t ht
    obtain ⟨rest, hx, -⟩ := hlaid.excerpts hs t ht
    exact hx.isValid
  case ordered => exact hlaid.ordered.2
  case texts => exact hlaid.excerpts hs
  case between => exact hlaid.gaps hs
  case unclosed =>
    intro n start stop gap body hn hx hgap hbody
    obtain ⟨hlen, t, ht, hkind, hstart, hstop⟩ := hlaid.unclosed hs hn hx hgap hbody
    exact ⟨hlen, t, ht, hkind, hstart, hstop ▸ hend⟩
  case comments =>
    intro t ht hstart
    obtain ⟨hkind, hun, hlast, hstop⟩ := hlaid.comments t ht hstart
    exact ⟨hkind, hun, hlast, hstop ▸ hend⟩

-- the star of `/*` does not close the comment, so `/*/` is open up to the end
example : (ofSource "1 /**/ /*/ open *").items.map
    (fun t => (t.kind, t.start.offset, t.stop.offset)) =
      [(.integer 1, 0, 1), (.invalid, 7, 17)] := by
  decide +kernel

end Tokens

end BlockScript
