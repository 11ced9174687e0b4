import BlockScript.Token.Scan
import Mathlib.Data.List.TakeWhile

/-!
# Spellings of tokens

A text *spells* a token if scanning takes the whole of it for the token (`Token.Kind.Spelled`).  The
texts that do are given by rules here (`Lexical`), and two statements tie them to scanning:

* `Lexical.of_lexeme`: what scanning takes off a text spells the token that it takes it for.
* `Lexical.lexeme`: a text that spells a token is taken for it in front of any text that does not
  start with a character that goes on with the token (`Token.Kind.stopsAt`).

Then a text that has spellings of tokens one after the other, with blanks between them where they
would run together, is scanned as these tokens (`Written.scan`).
-/

namespace BlockScript

/-! ## Characters -/

theorem takeWhile_append_of_stop {p : Char → Bool} {run rest : List Char} (hrun : ∀ c ∈ run, p c)
    (hrest : ∀ c ∈ rest.head?, p c = false) :
    (run ++ rest).takeWhile p = run ∧ (run ++ rest).dropWhile p = rest := by
  rw [List.takeWhile_append_of_pos hrun, List.dropWhile_append_of_pos hrun]
  cases rest with
  | nil => exact ⟨List.append_nil run, rfl⟩
  | cons c rest => simp [hrest c rfl]

namespace Text

theorem isDigit_cases {c : Char} (h : isDigit c) : c = '0' ∨ c = '1' ∨ c = '2' ∨ c = '3' ∨
    c = '4' ∨ c = '5' ∨ c = '6' ∨ c = '7' ∨ c = '8' ∨ c = '9' := by
  simp only [isDigit, Bool.and_eq_true, decide_eq_true_eq, Char.le_def,
    UInt32.le_iff_toNat_le] at h
  have hfirst : '0'.val.toNat = 48 := rfl
  have hlast : '9'.val.toNat = 57 := rfl
  have hcases : c.toNat = 48 ∨ c.toNat = 49 ∨ c.toNat = 50 ∨ c.toNat = 51 ∨ c.toNat = 52 ∨
      c.toNat = 53 ∨ c.toNat = 54 ∨ c.toNat = 55 ∨ c.toNat = 56 ∨ c.toNat = 57 := by
    have : c.toNat = c.val.toNat := rfl
    omega
  rw [← Char.ofNat_toNat c]
  rcases hcases with h | h | h | h | h | h | h | h | h | h
  all_goals
    rw [h]
    simp

/-- A digit goes on with a name, but starts none, and is no token by itself. -/
theorem isDigit_spec {c : Char} (h : isDigit c) : isNamePart c = true ∧ isNameStart c = false ∧
    Token.Kind.ofSymbol? c = none ∧ Cursor.isBlank c = false ∧ c ≠ '!' := by
  rcases isDigit_cases h with rfl | rfl | rfl | rfl | rfl | rfl | rfl | rfl | rfl | rfl
  all_goals exact ⟨rfl, rfl, rfl, rfl, by simp⟩

/-- A character that goes on with no name goes on with no run of digits. -/
theorem inRun_of_not_isNamePart {c : Char} (h : isNamePart c = false) :
    Numeral.inRun c = false := by
  rw [Numeral.inRun, Bool.or_eq_false_iff]
  constructor
  · by_contra hd
    rw [(isDigit_spec (Bool.not_eq_false _ ▸ hd)).1] at h
    cases h
  · rw [beq_eq_false_iff_ne]
    rintro rfl
    cases h

end Text

/-- A token of one fixed character carries nothing and is valid. -/
theorem Token.Kind.ofSymbol?_ne {c : Char} {k : Token.Kind} (h : ofSymbol? c = some k) :
    k ≠ .invalid ∧ (∀ n, k ≠ .integer n) ∧ ∀ name, k ≠ .identifier name := by
  rw [ofSymbol?.eq_def] at h
  split at h
  case h_11 => cases h
  all_goals
    cases h
    simp

theorem Token.Kind.ofSymbol?_spec {c : Char} {k : Token.Kind} (h : ofSymbol? c = some k) :
    Text.isNameStart c = false ∧ Cursor.isBlank c = false ∧ (c = '/' → k = .slash) := by
  rw [ofSymbol?.eq_def] at h
  split at h
  case h_11 => cases h
  all_goals
    cases h
    decide

/-! ## Numerals -/

namespace Numeral

/-- Digits and underscores, the first a digit. -/
def IsRun (run : List Char) : Prop :=
  (∃ d r, run = d :: r ∧ Text.isDigit d) ∧ ∀ c ∈ run, inRun c

/-- The exponent has the letter, the sign and the digits that an exponent can have. -/
structure Exponent.Valid (e : Exponent) : Prop where
  mark : e.mark = 'e' ∨ e.mark = 'E'
  sign : e.sign = none ∨ e.sign = some '+' ∨ e.sign = some '-'
  digits : ∀ c ∈ e.digits, inRun c

/-- The parts of the numeral are such as numerals can have. -/
structure Valid (n : Numeral) : Prop where
  whole : IsRun n.whole
  fraction : ∀ f ∈ n.fraction, IsRun f
  exponent : ∀ e ∈ n.exponent, e.Valid

/-- The text goes on with no numeral in front of it. -/
def Ends (text : List Char) : Prop := ∀ c ∈ text.head?, Text.isNamePart c = false ∧ c ≠ '.'

theorem inRun_of_isDigit {c : Char} (h : Text.isDigit c) : inRun c := by
  rw [inRun, h, Bool.true_or]

theorem ne_sign_of_inRun {c : Char} (h : inRun c) : c ≠ '+' ∧ c ≠ '-' := by
  constructor
  · rintro rfl
    cases h
  · rintro rfl
    cases h

/-! ### Splitting takes off a numeral -/

theorem splitSign_spec (cs : List Char) :
    ((splitSign cs).1 = none ∨ (splitSign cs).1 = some '+' ∨ (splitSign cs).1 = some '-') ∧
      (splitSign cs).1.toList ++ (splitSign cs).2 = cs := by
  rw [splitSign.eq_def]
  split
  · exact ⟨Or.inr (Or.inl rfl), rfl⟩
  · exact ⟨Or.inr (Or.inr rfl), rfl⟩
  · exact ⟨Or.inl rfl, rfl⟩

theorem splitFraction_spec (cs : List Char) :
    (∀ f ∈ (splitFraction cs).1, IsRun f) ∧
      (splitFraction cs).1.elim [] ('.' :: ·) ++ (splitFraction cs).2 = cs := by
  rw [splitFraction.eq_def]
  split
  next d r =>
    by_cases hd : Text.isDigit d
    · rw [if_pos hd]
      refine ⟨?_, congrArg ('.' :: ·) List.takeWhile_append_dropWhile⟩
      rintro _ ⟨⟩
      refine ⟨⟨d, r.takeWhile inRun, ?_, hd⟩, fun c hc => List.mem_takeWhile_imp hc⟩
      rw [List.takeWhile_cons, if_pos (inRun_of_isDigit hd)]
    · rw [if_neg hd]
      exact ⟨by simp, rfl⟩
  next => exact ⟨by simp, rfl⟩

theorem splitExponent_spec (cs : List Char) :
    (∀ e ∈ (splitExponent cs).1, e.Valid) ∧
      (splitExponent cs).1.elim [] Exponent.text ++ (splitExponent cs).2 = cs := by
  cases cs with
  | nil =>
      rw [splitExponent]
      exact ⟨by simp, rfl⟩
  | cons m r =>
      obtain ⟨hsign, hr⟩ := splitSign_spec r
      rw [splitExponent]
      by_cases hm : (m == 'e' || m == 'E') = true
      · rw [if_pos hm]
        constructor
        · rintro _ ⟨⟩
          exact ⟨by simpa using hm, hsign, fun c hc => List.mem_takeWhile_imp hc⟩
        · simp only [Option.elim_some, Exponent.text, List.cons_append, List.append_assoc,
            List.takeWhile_append_dropWhile, hr]
      · rw [if_neg hm]
        exact ⟨by simp, rfl⟩

/-- What is split off a text is a numeral in front of it. -/
theorem split_spec {c : Char} (hc : Text.isDigit c) (cs : List Char) :
    (split (c :: cs)).1.Valid ∧ (split (c :: cs)).1.text ++ (split (c :: cs)).2 = c :: cs := by
  obtain ⟨hf, hftext⟩ := splitFraction_spec ((c :: cs).dropWhile inRun)
  obtain ⟨he, hetext⟩ := splitExponent_spec (splitFraction ((c :: cs).dropWhile inRun)).2
  constructor
  · refine ⟨⟨⟨c, cs.takeWhile inRun, ?_, hc⟩, fun d hd => List.mem_takeWhile_imp hd⟩, hf, he⟩
    rw [split, List.takeWhile_cons, if_pos (inRun_of_isDigit hc)]
  · rw [text, split, List.append_assoc, List.append_assoc, hetext, hftext]
    exact List.takeWhile_append_dropWhile

/-! ### A numeral is split off as it is -/

theorem Ends.not_inRun {text : List Char} (h : Ends text) : ∀ c ∈ text.head?, inRun c = false :=
  fun c hc => Text.inRun_of_not_isNamePart (h c hc).1

theorem splitSign_text {sign : Option Char}
    (h : sign = none ∨ sign = some '+' ∨ sign = some '-') {cs : List Char}
    (hcs : ∀ c ∈ cs.head?, c ≠ '+' ∧ c ≠ '-') : splitSign (sign.toList ++ cs) = (sign, cs) := by
  obtain rfl | rfl | rfl := h
  · cases cs with
    | nil => rfl
    | cons c cs => simp [splitSign, hcs c rfl]
  · rfl
  · rfl

theorem splitExponent_text {e : Exponent} (h : e.Valid) {rest : List Char}
    (hsign : e.digits = [] → ∀ c ∈ rest.head?, c ≠ '+' ∧ c ≠ '-') (hrest : Ends rest) :
    splitExponent (e.text ++ rest) = (some e, rest) := by
  have hsplit : splitSign (e.sign.toList ++ (e.digits ++ rest)) = (e.sign, e.digits ++ rest) := by
    refine splitSign_text h.sign ?_
    cases hd : e.digits with
    | nil => exact hsign hd
    | cons d ds =>
        rintro _ ⟨⟩
        exact ne_sign_of_inRun (h.digits d (by simp [hd]))
  obtain ⟨htake, hdrop⟩ := takeWhile_append_of_stop h.digits hrest.not_inRun
  rw [Exponent.text, List.cons_append, List.cons_append, List.append_assoc, splitExponent,
    if_pos (by simpa using h.mark), hsplit]
  simp only [htake, hdrop]

theorem splitExponent_of_ends {rest : List Char} (hrest : Ends rest) :
    splitExponent rest = (none, rest) := by
  cases rest with
  | nil => rfl
  | cons c rest =>
      rw [splitExponent, if_neg]
      rw [Bool.or_eq_true, beq_iff_eq, beq_iff_eq]
      rintro (rfl | rfl)
      · cases (hrest _ rfl).1
      · cases (hrest _ rfl).1

theorem splitFraction_text {f : List Char} (h : IsRun f) {rest : List Char}
    (hrest : ∀ c ∈ rest.head?, inRun c = false) :
    splitFraction ('.' :: (f ++ rest)) = (some f, rest) := by
  obtain ⟨⟨d, r, rfl, hd⟩, hrun⟩ := h
  obtain ⟨htake, hdrop⟩ := takeWhile_append_of_stop hrun hrest
  rw [List.cons_append] at htake hdrop ⊢
  rw [splitFraction, if_pos hd, htake, hdrop]

theorem splitFraction_of_ne {rest : List Char} (hrest : ∀ c ∈ rest.head?, c ≠ '.') :
    splitFraction rest = (none, rest) := by
  rw [splitFraction.eq_def]
  split
  next => exact absurd rfl (hrest _ rfl)
  next => rfl

/-- Behind the digits of a numeral come a point, a letter or the end, and no digit. -/
theorem not_inRun_of_parts {f : Option (List Char)} {e : Option Exponent}
    (he : ∀ x ∈ e, x.Valid) {rest : List Char} (hrest : Ends rest) :
    ∀ c ∈ (f.elim [] ('.' :: ·) ++ (e.elim [] Exponent.text ++ rest)).head?, inRun c = false := by
  cases f with
  | some f =>
      rintro _ ⟨⟩
      rfl
  | none =>
      cases e with
      | none => exact hrest.not_inRun
      | some x =>
          rintro _ ⟨⟩
          obtain hm | hm := (he x rfl).mark
          · rw [hm]
            rfl
          · rw [hm]
            rfl

theorem digits_ne_nil {n : Numeral} (hk : n.kind ≠ .invalid) :
    ∀ e ∈ n.exponent, e.digits ≠ [] := by
  intro e he hd
  have hvalue : e.value? = none := by simp [Exponent.value?, hd, digitsOf]
  refine hk ?_
  rw [kind, Option.mem_def.1 he]
  simp only [hvalue]

/-- A numeral is split off in front of a text that does not go on with it.  An exponent without a
digit goes on with a sign. -/
theorem split_text {n : Numeral} (hn : n.Valid) {rest : List Char}
    (hsign : ∀ e ∈ n.exponent, e.digits = [] → ∀ c ∈ rest.head?, c ≠ '+' ∧ c ≠ '-')
    (hrest : Ends rest) : split (n.text ++ rest) = (n, rest) := by
  obtain ⟨whole, f, e⟩ := n
  obtain ⟨htake, hdrop⟩ := takeWhile_append_of_stop hn.whole.2
    (not_inRun_of_parts (f := f) hn.exponent hrest)
  have hexponent : splitExponent (e.elim [] Exponent.text ++ rest) = (e, rest) := by
    cases e with
    | none => exact splitExponent_of_ends hrest
    | some x => exact splitExponent_text (hn.exponent x rfl) (hsign x rfl) hrest
  have hfraction : splitFraction (f.elim [] ('.' :: ·) ++ (e.elim [] Exponent.text ++ rest)) =
      (f, e.elim [] Exponent.text ++ rest) := by
    cases f with
    | some f =>
        refine splitFraction_text (hn.fraction f rfl) ?_
        exact not_inRun_of_parts (f := none) hn.exponent hrest
    | none =>
        refine splitFraction_of_ne ?_
        cases e with
        | none => exact fun c hc => (hrest c hc).2
        | some x =>
            rintro _ ⟨⟩
            obtain hm | hm := (hn.exponent x rfl).mark
            · simp [hm]
            · simp [hm]
  rw [split, text, List.append_assoc, List.append_assoc, htake, hdrop, hfraction]
  simp only [hexponent]

end Numeral

/-! ## Lexemes -/

/-- Scanning takes the whole text for one token of the kind, and not for an invalid one. -/
def Token.Kind.Spelled (k : Token.Kind) (text : List Char) : Prop :=
  k ≠ .invalid ∧ ∃ c cs, text = c :: cs ∧ lexeme c cs = ⟨k, text, []⟩

/-- Whether a token ends in front of a character. -/
def Token.Kind.stopsAt (k : Token.Kind) (c : Char) : Bool :=
  match k with
  | integer _ | float _ => !Text.isNamePart c && c != '.'
  | identifier _ | var => !Text.isNamePart c
  | slash => c != '/' && c != '*'
  | equal => c != '='
  | _ => true

/-- The texts of tokens, by the kind of the token. -/
inductive Lexical : Token.Kind → List Char → Prop where
  | symbol {c : Char} {k : Token.Kind} : Token.Kind.ofSymbol? c = some k → Lexical k [c]
  | equalEqual : Lexical .equalEqual ['=', '=']
  | notEqual : Lexical .notEqual ['!', '=']
  | numeral {n : Numeral} : n.Valid → n.kind ≠ .invalid → Lexical n.kind n.text
  | name {c : Char} {cs : List Char} : Text.isNameStart c → (∀ d ∈ cs, Text.isNamePart d) →
      Lexical (.ofName (c :: cs)) (c :: cs)

section

variable {c : Char} {cs rest : List Char} {k : Token.Kind}

theorem lexeme_of_symbol (h : Token.Kind.ofSymbol? c = some k)
    (hrest : ∀ d ∈ rest.head?, k.stopsAt d) : lexeme c rest = ⟨k, [c], rest⟩ := by
  rw [lexeme.eq_def]
  split
  next =>
    cases h
    cases hrest _ rfl
  next =>
    cases h
    cases hrest _ rfl
  next => cases h
  next => rw [h]

theorem lexeme_of_isDigit (h : Text.isDigit c) (cs : List Char) :
    lexeme c cs =
      ⟨(Numeral.split (c :: cs)).1.kind, (Numeral.split (c :: cs)).1.text,
        (Numeral.split (c :: cs)).2⟩ := by
  obtain ⟨-, -, hsymbol, -, hbang⟩ := Text.isDigit_spec h
  rw [lexeme.eq_def]
  split
  next => cases hsymbol
  next => cases hsymbol
  next => exact absurd rfl hbang
  next => rw [hsymbol, if_pos h]

theorem lexeme_of_isNameStart (h : Text.isNameStart c) (cs : List Char) :
    lexeme c cs =
      ⟨.ofName (c :: cs.takeWhile Text.isNamePart), c :: cs.takeWhile Text.isNamePart,
        cs.dropWhile Text.isNamePart⟩ := by
  have hdigit : Text.isDigit c = false := by
    by_contra hd
    rw [(Text.isDigit_spec (Bool.not_eq_false _ ▸ hd)).2.1] at h
    cases h
  have hsymbol : Token.Kind.ofSymbol? c = none := by
    rw [Option.eq_none_iff_forall_ne_some]
    intro k hk
    rw [(Token.Kind.ofSymbol?_spec hk).1] at h
    cases h
  rw [lexeme.eq_def]
  split
  next => cases h
  next => cases h
  next => cases h
  next => rw [hsymbol, hdigit, if_neg (by simp), if_pos h]

end

/-- What scanning takes off a text spells the token that it is taken for. -/
theorem Lexical.of_lexeme {c : Char} {cs : List Char}
    (h : (BlockScript.lexeme c cs).kind ≠ .invalid) :
    Lexical (BlockScript.lexeme c cs).kind (BlockScript.lexeme c cs).text := by
  by_cases hd : Text.isDigit c
  · rw [lexeme_of_isDigit hd] at h ⊢
    exact .numeral (Numeral.split_spec hd cs).1 h
  by_cases hn : Text.isNameStart c
  · rw [lexeme_of_isNameStart hn]
    exact .name hn fun d hd => List.mem_takeWhile_imp hd
  rw [BlockScript.lexeme.eq_def] at h ⊢
  split at h
  next => exact absurd rfl h
  next => exact .equalEqual
  next => exact .notEqual
  next =>
    split at h
    next hk => exact .symbol hk
    next => simp [hd, hn] at h

theorem Numeral.text_eq_cons {n : Numeral} (h : n.Valid) :
    ∃ c cs, n.text = c :: cs ∧ Text.isDigit c := by
  obtain ⟨⟨d, r, hwhole, hd⟩, -⟩ := h.whole
  exact ⟨d, _, by rw [text, hwhole, List.cons_append, List.cons_append], hd⟩

/-- A numeral that denotes a number denotes it as an integer below the bound, or as a double. -/
theorem Numeral.kind_cases (n : Numeral) :
    n.kind = .invalid ∨ (∃ x, n.kind = .float x) ∨ ∃ v, n.kind = .integer v ∧ v < integerBound := by
  rw [kind.eq_def]
  split
  next =>
    dsimp only
    split
    next hv => exact Or.inr (Or.inr ⟨_, rfl, hv⟩)
    next => exact Or.inl rfl
  next => exact Or.inr (Or.inl ⟨_, rfl⟩)
  next =>
    split
    next => exact Or.inl rfl
    next => exact Or.inr (Or.inl ⟨_, rfl⟩)

namespace Lexical

variable {k : Token.Kind} {c : Char} {cs rest : List Char}

/-- A text that spells a token is taken for it, in front of a text that does not go on with it. -/
theorem lexeme (h : Lexical k (c :: cs)) (hrest : ∀ d ∈ rest.head?, k.stopsAt d) :
    BlockScript.lexeme c (cs ++ rest) = ⟨k, c :: cs, rest⟩ := by
  generalize htext : c :: cs = text at h
  cases h with
  | symbol hk =>
      cases htext
      exact lexeme_of_symbol hk hrest
  | equalEqual =>
      cases htext
      rfl
  | notEqual =>
      cases htext
      rfl
  | @numeral n hn hk =>
      obtain ⟨d, ds, hcons, hd⟩ := Numeral.text_eq_cons hn
      cases htext.trans hcons
      have hends : Numeral.Ends rest := by
        intro d hd
        have hstop := hrest d hd
        obtain hkind | ⟨x, hkind⟩ | ⟨v, hkind, -⟩ := n.kind_cases
        · exact absurd hkind hk
        · simpa [hkind, Token.Kind.stopsAt] using hstop
        · simpa [hkind, Token.Kind.stopsAt] using hstop
      have hsign : ∀ e ∈ n.exponent, e.digits = [] → ∀ c ∈ rest.head?, c ≠ '+' ∧ c ≠ '-' :=
        fun e he hnil => absurd hnil (Numeral.digits_ne_nil hk e he)
      rw [lexeme_of_isDigit hd, ← List.cons_append, htext, Numeral.split_text hn hsign hends]
  | name hc hcs =>
      cases htext
      have hends : ∀ d ∈ rest.head?, Text.isNamePart d = false := by
        intro d hd
        have hstop := hrest d hd
        rw [Token.Kind.ofName] at hstop
        split at hstop
        · simpa [Token.Kind.stopsAt] using hstop
        · simpa [Token.Kind.stopsAt] using hstop
      obtain ⟨htake, hdrop⟩ := takeWhile_append_of_stop hcs hends
      rw [lexeme_of_isNameStart hc, htake, hdrop]

/-- A spelling starts with no blank, and with a slash only if it is the slash. -/
theorem head (h : Lexical k (c :: cs)) :
    Cursor.isBlank c = false ∧ (c = '/' → cs = [] ∧ k = .slash) := by
  generalize htext : c :: cs = text at h
  cases h with
  | symbol hk =>
      cases htext
      obtain ⟨-, hblank, hslash⟩ := Token.Kind.ofSymbol?_spec hk
      exact ⟨hblank, fun hc => ⟨rfl, hslash hc⟩⟩
  | equalEqual | notEqual =>
      cases htext
      exact ⟨rfl, fun hc => nomatch hc⟩
  | numeral hn _ =>
      obtain ⟨d, ds, hcons, hd⟩ := Numeral.text_eq_cons hn
      cases htext.trans hcons
      refine ⟨(Text.isDigit_spec hd).2.2.2.1, ?_⟩
      rintro rfl
      cases hd
  | name hc _ =>
      cases htext
      refine ⟨?_, ?_⟩
      · by_contra hblank
        simp only [Cursor.isBlank, Bool.not_eq_false, Bool.or_eq_true, beq_iff_eq] at hblank
        obtain ((rfl | rfl) | rfl) | rfl := hblank
        all_goals cases hc
      · rintro rfl
        cases hc

theorem exists_cons {text : List Char} (h : Lexical k text) : ∃ c cs, text = c :: cs := by
  cases h with
  | symbol _ | equalEqual | notEqual | name _ _ => exact ⟨_, _, rfl⟩
  | numeral hn _ =>
      obtain ⟨c, cs, hcons, -⟩ := Numeral.text_eq_cons hn
      exact ⟨c, cs, hcons⟩

theorem ne_invalid (h : Lexical k cs) : k ≠ .invalid := by
  cases h with
  | symbol hk => exact (Token.Kind.ofSymbol?_ne hk).1
  | equalEqual | notEqual => simp
  | numeral _ hk => exact hk
  | name _ _ =>
      rw [Token.Kind.ofName]
      split
      · simp
      · simp

end Lexical

theorem Token.Kind.spelled_iff {k : Token.Kind} {text : List Char} :
    k.Spelled text ↔ Lexical k text := by
  constructor
  · rintro ⟨hk, c, cs, rfl, hl⟩
    have h := @Lexical.of_lexeme c cs
    rw [hl] at h
    exact h hk
  · intro h
    refine ⟨h.ne_invalid, ?_⟩
    obtain ⟨c, cs, rfl⟩ := h.exists_cons
    have hl : lexeme c (cs ++ []) = ⟨k, c :: cs, []⟩ := h.lexeme (by simp)
    rw [List.append_nil] at hl
    exact ⟨c, cs, rfl, hl⟩

/-! ## Names and integers -/

/-- A name that can be written: one for a variable, and not the keyword. -/
def IsVariableName (name : String) : Prop :=
  (∃ c cs, name.toList = c :: cs ∧ Text.isNameStart c ∧ ∀ d ∈ cs, Text.isNamePart d) ∧ name ≠ "var"

namespace Token.Kind

theorem spelled_identifier_iff {name : String} {text : List Char} :
    (identifier name).Spelled text ↔ text = name.toList ∧ IsVariableName name := by
  rw [spelled_iff]
  constructor
  · intro h
    generalize hk : identifier name = k at h
    cases h with
    | symbol hc => exact absurd hk.symm ((ofSymbol?_ne hc).2.2 name)
    | equalEqual | notEqual => cases hk
    | @numeral n _ _ =>
        obtain hn | ⟨x, hn⟩ | ⟨v, hn, -⟩ := n.kind_cases
        all_goals
          rw [hn] at hk
          cases hk
    | @name c cs hc hcs =>
        rw [ofName] at hk
        split at hk
        next => cases hk
        next hvar =>
          cases hk
          refine ⟨String.toList_ofList.symm, ⟨c, cs, String.toList_ofList, hc, hcs⟩, ?_⟩
          intro heq
          exact hvar (String.toList_ofList.symm.trans (congrArg String.toList heq))
  · rintro ⟨rfl, ⟨c, cs, hname, hc, hcs⟩, hvar⟩
    have h := Lexical.name hc hcs
    rw [ofName, if_neg, ← hname, String.ofList_toList] at h
    · exact h
    · intro heq
      rw [← hname] at heq
      exact hvar (String.toList_injective heq)

theorem lt_of_spelled_integer {n : Nat} {text : List Char} (h : (integer n).Spelled text) :
    n < Numeral.integerBound := by
  replace h := spelled_iff.1 h
  generalize hk : integer n = k at h
  cases h with
  | symbol hc => exact absurd hk.symm ((ofSymbol?_ne hc).2.1 n)
  | equalEqual | notEqual => cases hk
  | @numeral m _ _ =>
      obtain hm | ⟨x, hm⟩ | ⟨v, hm, hv⟩ := m.kind_cases
      · rw [hm] at hk
        cases hk
      · rw [hm] at hk
        cases hk
      · rw [hm] at hk
        cases hk
        exact hv
  | name _ _ =>
      rw [ofName] at hk
      split at hk
      all_goals cases hk

/-- An integer below the bound is spelled by its decimal digits. -/
theorem spelled_integer {n : Nat} (h : n < Numeral.integerBound) :
    (integer n).Spelled (Nat.toDigits 10 n) := by
  have hdigits : ∀ c ∈ Nat.toDigits 10 n, Text.isDigit c :=
    fun c hc => Nat.isDigit_of_mem_toDigits (by decide) (by decide) hc
  have hrun : Numeral.IsRun (Nat.toDigits 10 n) := by
    refine ⟨?_, fun c hc => Numeral.inRun_of_isDigit (hdigits c hc)⟩
    obtain ⟨d, r, hcons⟩ := List.exists_cons_of_ne_nil (Nat.toDigits_ne_nil (n := n) (b := 10))
    exact ⟨d, r, hcons, hdigits d (by simp [hcons])⟩
  have hplain : Numeral.digitsOf (Nat.toDigits 10 n) = Nat.toDigits 10 n := by
    refine List.filter_eq_self.2 ?_
    intro c hc
    rw [bne_iff_ne]
    rintro rfl
    cases hdigits _ hc
  have hvalue : Text.digitsValue (Nat.toDigits 10 n) = n :=
    Nat.ofDigitChars_toDigits (by decide) (by decide)
  have hkind : Numeral.kind ⟨Nat.toDigits 10 n, none, none⟩ = integer n := by
    simp only [Numeral.kind, hplain, hvalue, if_pos h]
  have htext : Numeral.text ⟨Nat.toDigits 10 n, none, none⟩ = Nat.toDigits 10 n := by
    simp [Numeral.text]
  have hlex : Lexical _ _ := .numeral (n := ⟨Nat.toDigits 10 n, none, none⟩)
    ⟨hrun, by simp, by simp⟩ (by rw [hkind]; simp)
  rw [hkind, htext] at hlex
  exact spelled_iff.2 hlex

end Token.Kind

/-! ## Texts -/

namespace Cursor

theorem skipGap_blank {c : Char} (h : isBlank c) (p : Position) (cs : List Char) :
    skipGap p (c :: cs) = skipGap (p.advance c) cs := by
  have hslash : c ≠ '/' := by
    rintro rfl
    cases h
  rw [skipGap.eq_def]
  simp [h, hslash]

theorem skipGap_lexical {k : Token.Kind} {c : Char} {cs rest : List Char} (h : Lexical k (c :: cs))
    (hrest : ∀ d ∈ rest.head?, k.stopsAt d) (p : Position) :
    skipGap p (c :: (cs ++ rest)) = ⟨p, c :: (cs ++ rest)⟩ := by
  obtain ⟨hblank, hslash⟩ := h.head
  rw [skipGap.eq_def]
  by_cases hc : c = '/'
  · obtain ⟨rfl, rfl⟩ := hslash hc
    subst hc
    cases rest with
    | nil => simp [hblank]
    | cons d rest =>
        have hd : d ≠ '/' ∧ d ≠ '*' := by simpa [Token.Kind.stopsAt] using hrest d rfl
        simp [hblank, hd.1, hd.2]
  · simp [hblank, hc]

end Cursor

/-- The text has spellings of tokens of these kinds, one after the other.  Blanks may stand anywhere
between them, and do where a token would not end in front of the next. -/
inductive Written : List Token.Kind → List Char → Prop where
  | nil {gap : List Char} : (∀ c ∈ gap, Cursor.isBlank c) → Written [] gap
  | cons {k : Token.Kind} {ks : List Token.Kind} {gap w text : List Char} :
      (∀ c ∈ gap, Cursor.isBlank c) → k.Spelled w → (∀ c ∈ text.head?, k.stopsAt c) →
      Written ks text → Written (k :: ks) (gap ++ (w ++ text))

namespace Tokens

theorem scan_congr {p p' : Position} {cs cs' : List Char}
    (h : Cursor.skipGap p cs = Cursor.skipGap p' cs') (found : List Token) :
    scan found p cs = scan found p' cs' := by
  rw [scan, scan, h]

theorem scan_of_lexeme {p : Position} {c : Char} {cs : List Char}
    (h : Cursor.skipGap p (c :: cs) = ⟨p, c :: cs⟩) {l : Lexeme} (hl : lexeme c cs = l)
    (found : List Token) :
    scan found p (c :: cs) =
      scan (⟨l.kind, l.text, p, p.after l.text⟩ :: found) (p.after l.text) l.rest := by
  rw [scan, h, ← hl]

theorem scan_gap {gap : List Char} (h : ∀ c ∈ gap, Cursor.isBlank c) (found : List Token)
    (text : List Char) : ∀ p, ∃ p', scan found p (gap ++ text) = scan found p' text := by
  induction gap with
  | nil => exact fun p => ⟨p, rfl⟩
  | cons c gap ih =>
      intro p
      obtain ⟨p', hscan⟩ := ih (fun d hd => h d (List.mem_cons_of_mem c hd)) (p.advance c)
      refine ⟨p', Eq.trans ?_ hscan⟩
      exact scan_congr (Cursor.skipGap_blank (h c List.mem_cons_self) p (gap ++ text)) found

end Tokens

/-- A text with spellings of tokens is scanned as these tokens. -/
theorem Written.scan {ks : List Token.Kind} {text : List Char} (h : Written ks text) :
    ∀ (found : List Token) (p : Position), ∃ ts,
      (Tokens.scan found p text).items = found.reverse ++ ts ∧ ts.map Token.kind = ks := by
  induction h with
  | @nil gap hgap =>
      intro found p
      obtain ⟨p', hscan⟩ := Tokens.scan_gap hgap found [] p
      rw [List.append_nil] at hscan
      refine ⟨[], ?_, rfl⟩
      rw [hscan, Tokens.scan, Cursor.skipGap, List.append_nil]
  | @cons k ks gap w text hgap hw hstop _ ih =>
      intro found p
      have hlex := Token.Kind.spelled_iff.1 hw
      obtain ⟨c, cs, rfl⟩ := hlex.exists_cons
      obtain ⟨p', hscan⟩ := Tokens.scan_gap hgap found (c :: cs ++ text) p
      rw [hscan, List.cons_append,
        Tokens.scan_of_lexeme (Cursor.skipGap_lexical hlex hstop p') (hlex.lexeme hstop)]
      obtain ⟨ts, hitems, hkinds⟩ := ih (⟨k, c :: cs, p', p'.after (c :: cs)⟩ :: found)
        (p'.after (c :: cs))
      refine ⟨⟨k, c :: cs, p', p'.after (c :: cs)⟩ :: ts, ?_, by simp [hkinds]⟩
      rw [hitems, List.reverse_cons, List.append_assoc]
      rfl

theorem Written.map_kind {ks : List Token.Kind} {source : String} (h : Written ks source.toList) :
    (Tokens.ofSource source).items.map Token.kind = ks := by
  obtain ⟨ts, hitems, hkinds⟩ := h.scan [] .start
  rw [Tokens.ofSource, hitems]
  exact hkinds

theorem Written.next {k : Token.Kind} {ks : List Token.Kind} {w text : List Char}
    (hw : k.Spelled w) (hstop : ∀ c ∈ text.head?, k.stopsAt c) (h : Written ks text) :
    Written (k :: ks) (w ++ text) := by
  rw [← List.nil_append (w ++ text)]
  exact .cons (by simp) hw hstop h

theorem Written.blank {ks : List Token.Kind} {text : List Char} (h : Written ks text) :
    Written ks (' ' :: text) := by
  cases h with
  | nil hgap => exact .nil (List.forall_mem_cons.2 ⟨rfl, hgap⟩)
  | cons hgap hw hstop h =>
      rw [← List.cons_append]
      exact .cons (List.forall_mem_cons.2 ⟨rfl, hgap⟩) hw hstop h

theorem Token.Kind.stopsAt_blank (k : Token.Kind) : k.stopsAt ' ' := by
  cases k with
  | _ => rfl

/-- Tokens that have spellings can be written: one blank between two tokens is enough. -/
theorem Written.exists_of_spelled {ks : List Token.Kind} (h : ∀ k ∈ ks, ∃ w, k.Spelled w) :
    ∃ text, Written ks text := by
  induction ks with
  | nil => exact ⟨[], .nil (by simp)⟩
  | cons k ks ih =>
      obtain ⟨hk, hks⟩ := List.forall_mem_cons.1 h
      obtain ⟨w, hw⟩ := hk
      obtain ⟨text, htext⟩ := ih hks
      exact ⟨w ++ ' ' :: text, htext.blank.next hw (by simpa using k.stopsAt_blank)⟩

theorem Tokens.kind_finish_scan (found : List Token) (p : Position) (text : List Char) :
    (scan found p text).finish.kind = .eof := by
  fun_induction scan found p text with
  | case1 => rfl
  | case2 _ _ _ _ _ _ _ _ _ ih => exact ih

theorem Tokens.kind_finish_ofSource (source : String) : (ofSource source).finish.kind = .eof :=
  kind_finish_scan [] .start source.toList

/-- What is scanned is invalid, or spelled by its text. -/
theorem Tokens.spelled_of_mem_scan {found : List Token} {p : Position} {text : List Char}
    (h : ∀ t ∈ found, t.kind ≠ .invalid → t.kind.Spelled t.text) :
    ∀ t ∈ (scan found p text).items, t.kind ≠ .invalid → t.kind.Spelled t.text := by
  fun_induction scan found p text with
  | case1 found => simpa using h
  | case2 found p text start c cs _ l stop ih =>
      refine ih ?_
      intro t ht hk
      obtain rfl | ht := List.mem_cons.1 ht
      · exact Token.Kind.spelled_iff.2 (Lexical.of_lexeme hk)
      · exact h t ht hk

theorem Tokens.spelled_of_mem {source : String} :
    ∀ t ∈ (ofSource source).items, t.kind ≠ .invalid → t.kind.Spelled t.text :=
  spelled_of_mem_scan (by simp)

end BlockScript
