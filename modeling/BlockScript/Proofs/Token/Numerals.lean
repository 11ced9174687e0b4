import BlockScript.Proofs.Token.Spacing
import Mathlib.Data.Nat.Digits.Defs

/-!
# Numerals in a source

A token that starts with a digit is a numeral.  It is the longest one that stands there: no numeral
in front of the rest of the source is longer (`Numeral.split_longest`).  What it denotes can be told
from its text without the underscores (`Numeral.Denotes`): a double as `Double.ofText?` reads it, or
the integer with these decimal digits.

The main statement is `Tokens.numeral_of_mem`, for every source and every token of it.
-/

namespace BlockScript

namespace Numeral

/-! ## The longest numeral -/

/-- A run and what stands behind it, in front of a text: the run ends before the text stops being
one and nothing stands behind it, or they end together. -/
theorem run_longest {run tail cs : List Char} (hrun : ∀ c ∈ run, inRun c)
    (htail : ∀ c ∈ tail.head?, inRun c = false) (h : run ++ tail <+: cs) :
    (tail = [] ∧ run <+: cs.takeWhile inRun) ∨
      (run = cs.takeWhile inRun ∧ tail <+: cs.dropWhile inRun) := by
  obtain ⟨rest, rfl⟩ := h
  rw [List.append_assoc]
  cases tail with
  | nil =>
      rw [List.nil_append, List.takeWhile_append_of_pos hrun]
      exact Or.inl ⟨rfl, List.prefix_append _ _⟩
  | cons c tail =>
      have hstop : ∀ d ∈ (c :: tail ++ rest).head?, inRun d = false := htail
      obtain ⟨htake, hdrop⟩ := takeWhile_append_of_stop hrun hstop
      rw [htake, hdrop]
      exact Or.inr ⟨rfl, List.prefix_append _ _⟩

/-- Digits in front of a text are among those that are taken off it. -/
theorem digits_longest {run cs : List Char} (hrun : ∀ c ∈ run, inRun c) (h : run <+: cs) :
    run <+: cs.takeWhile inRun := by
  rw [← List.append_nil run] at h
  obtain ⟨-, hle⟩ | ⟨heq, -⟩ := run_longest hrun (by simp) h
  · exact hle
  · exact heq ▸ List.prefix_rfl

theorem splitSign_longest {sign : Option Char} {digits : List Char}
    (hsign : sign = none ∨ sign = some '+' ∨ sign = some '-') (hdigits : ∀ c ∈ digits, inRun c)
    (rest : List Char) :
    sign.toList ++ digits <+:
      (splitSign (sign.toList ++ (digits ++ rest))).1.toList ++
        (splitSign (sign.toList ++ (digits ++ rest))).2.takeWhile inRun := by
  cases digits with
  | nil =>
      rw [List.append_nil, List.nil_append]
      obtain rfl | rfl | rfl := hsign
      · exact List.nil_prefix
      · exact List.prefix_append _ _
      · exact List.prefix_append _ _
  | cons d ds =>
      have hsplit : splitSign (sign.toList ++ (d :: ds ++ rest)) = (sign, d :: ds ++ rest) := by
        refine splitSign_text hsign ?_
        rintro _ ⟨⟩
        exact ne_sign_of_inRun (hdigits d (List.mem_cons_self ..))
      rw [hsplit]
      exact List.prefix_append_right_inj _ |>.2 (digits_longest hdigits (List.prefix_append _ _))

/-- What stands behind the whole part does not go on with its run. -/
theorem not_inRun_of_tail (f : Option (List Char)) {e : Option Exponent} (he : ∀ x ∈ e, x.Valid) :
    ∀ c ∈ (f.elim [] ('.' :: ·) ++ e.elim [] Exponent.text).head?, inRun c = false := by
  have hends : Ends [] := nofun
  have hparts := not_inRun_of_parts (f := f) he hends
  rwa [List.append_nil] at hparts

/-- An exponent in front of a text is among what is taken off as an exponent. -/
theorem splitExponent_longest {e : Option Exponent} (he : ∀ x ∈ e, x.Valid) {cs : List Char}
    (h : e.elim [] Exponent.text <+: cs) :
    e.elim [] Exponent.text <+: (splitExponent cs).1.elim [] Exponent.text := by
  cases e with
  | none => exact List.nil_prefix
  | some x =>
      obtain ⟨hmark, hsign, hdigits⟩ := he x rfl
      obtain ⟨rest, rfl⟩ := h
      rw [Option.elim_some, Exponent.text, List.cons_append, List.cons_append, List.append_assoc,
        splitExponent, if_pos (by simpa using hmark)]
      exact List.cons_prefix_cons.2 ⟨rfl, splitSign_longest hsign hdigits rest⟩

/-- The same of a fraction and an exponent behind it. -/
theorem splitFraction_longest {f : Option (List Char)} {e : Option Exponent}
    (hf : ∀ x ∈ f, IsRun x) (he : ∀ x ∈ e, x.Valid) {cs : List Char}
    (h : f.elim [] ('.' :: ·) ++ e.elim [] Exponent.text <+: cs) :
    f.elim [] ('.' :: ·) ++ e.elim [] Exponent.text <+:
      (splitFraction cs).1.elim [] ('.' :: ·) ++
        (splitExponent (splitFraction cs).2).1.elim [] Exponent.text := by
  cases f with
  | none =>
      cases e with
      | none => exact List.nil_prefix
      | some x =>
          obtain ⟨rest, rfl⟩ := h
          have hsplit : splitFraction (x.text ++ rest) = (none, x.text ++ rest) := by
            refine splitFraction_of_ne ?_
            rintro _ ⟨⟩
            obtain hm | hm := (he x rfl).mark
            · simp [hm]
            · simp [hm]
          have hfront : (some x).elim [] Exponent.text <+: x.text ++ rest := List.prefix_append _ _
          have hexponent := splitExponent_longest he hfront
          simpa [hsplit] using hexponent
  | some f =>
      obtain ⟨⟨d, r, rfl, hd⟩, hrun⟩ := hf f rfl
      obtain ⟨rest, rfl⟩ := h
      have htail : ∀ c ∈ (e.elim [] Exponent.text).head?, inRun c = false :=
        not_inRun_of_tail none he
      have hsplit : splitFraction ('.' :: (d :: r) ++ e.elim [] Exponent.text ++ rest) =
          (some ((d :: r ++ e.elim [] Exponent.text ++ rest).takeWhile inRun),
            (d :: r ++ e.elim [] Exponent.text ++ rest).dropWhile inRun) := if_pos hd
      rw [Option.elim_some, hsplit]
      refine List.cons_prefix_cons.2 ⟨rfl, ?_⟩
      change d :: r ++ _ <+: List.takeWhile inRun _ ++ _
      obtain ⟨hnil, hle⟩ | ⟨heq, hbehind⟩ := run_longest hrun htail (List.prefix_append _ rest)
      · rw [hnil] at hle ⊢
        rw [List.append_nil] at hle ⊢
        exact hle.trans (List.prefix_append _ _)
      · rw [← heq]
        exact List.prefix_append_right_inj _ |>.2 (splitExponent_longest he hbehind)

/-- No numeral in front of a text is longer than the one that is split off. -/
theorem split_longest {n : Numeral} (hn : n.Valid) {cs : List Char} (h : n.text <+: cs) :
    n.text <+: (split cs).1.text := by
  obtain ⟨whole, f, e⟩ := n
  rw [text, List.append_assoc] at h
  rw [text, text, split, List.append_assoc, List.append_assoc]
  have htail := not_inRun_of_tail f hn.exponent
  obtain ⟨hnil, hle⟩ | ⟨heq, htail⟩ := run_longest hn.whole.2 htail h
  · rw [hnil, List.append_nil]
    exact hle.trans (List.prefix_append _ _)
  · rw [heq]
    exact List.prefix_append_right_inj _ |>.2 (splitFraction_longest hn.fraction hn.exponent htail)

/-! ## Numerals without underscores -/

theorem isDigit_of_mem_digitsOf {run : List Char} (h : ∀ c ∈ run, inRun c) :
    ∀ c ∈ digitsOf run, Text.isDigit c := by
  intro c hc
  obtain ⟨hmem, hne⟩ := List.mem_filter.1 hc
  have hrun := h c hmem
  rw [inRun, Bool.or_eq_true] at hrun
  obtain hd | hunder := hrun
  · exact hd
  · rw [beq_iff_eq.1 hunder] at hne
    cases hne

theorem IsRun.digitsOf_eq_cons {run : List Char} (h : IsRun run) :
    ∃ d ds, digitsOf run = d :: ds ∧ Text.isDigit d := by
  obtain ⟨⟨d, r, rfl, hd⟩, -⟩ := h
  refine ⟨d, digitsOf r, List.filter_cons_of_pos ?_, hd⟩
  rw [bne_iff_ne]
  rintro rfl
  cases hd

/-- The text of an exponent without its underscores. -/
def Exponent.plain (e : Exponent) : List Char := e.mark :: e.sign.toList ++ digitsOf e.digits

theorem Exponent.Valid.digitsOf_text {e : Exponent} (h : e.Valid) : digitsOf e.text = e.plain := by
  have hmark : digitsOf [e.mark] = [e.mark] := by
    obtain hm | hm := h.mark
    · rw [hm]
      rfl
    · rw [hm]
      rfl
  have hsign : digitsOf e.sign.toList = e.sign.toList := by
    obtain hs | hs | hs := h.sign
    · rw [hs]
      rfl
    · rw [hs]
      rfl
    · rw [hs]
      rfl
  have hsplit : e.text = [e.mark] ++ e.sign.toList ++ e.digits := rfl
  rw [hsplit, digitsOf, List.filter_append, List.filter_append]
  exact congrArg₂ _ (congrArg₂ _ hmark hsign) rfl

theorem Valid.digitsOf_text {n : Numeral} (h : n.Valid) :
    digitsOf n.text = digitsOf n.whole ++ n.fraction.elim [] ('.' :: digitsOf ·) ++
      n.exponent.elim [] Exponent.plain := by
  obtain ⟨whole, f, e⟩ := n
  rw [text, digitsOf, List.filter_append, List.filter_append]
  refine congrArg₂ _ (congrArg₂ _ rfl ?_) ?_
  · cases f with
    | none => rfl
    | some f => rfl
  · cases e with
    | none => rfl
    | some e => exact (h.exponent e rfl).digitsOf_text

end Numeral

namespace Double

open Numeral

/-- A text that starts with a digit is no word. -/
theorem word_ne {d : Char} (hd : Text.isDigit d) (cs : List Char) {word : String} {c : Char}
    {rest : List Char} (hword : word.toList = c :: rest) (hc : Text.isDigit c = false) :
    (String.ofList ((d :: cs).map Char.toLower) == word) = false := by
  rw [beq_eq_false_iff_ne]
  rintro rfl
  have hlower : d.toLower = d := by
    rcases Text.isDigit_cases hd with rfl | rfl | rfl | rfl | rfl | rfl | rfl | rfl | rfl | rfl
    all_goals rfl
  rw [String.toList_ofList, List.map_cons, hlower] at hword
  cases hword
  rw [hd] at hc
  cases hc

/-- The digits and the sign of an exponent are read as its value. -/
theorem exponent?_plain {e : Exponent} (h : e.Valid) {x : Int} (hx : e.value? = some x) :
    exponent? (e.sign.toList ++ digitsOf e.digits) = some x := by
  have hdigits := isDigit_of_mem_digitsOf h.digits
  rw [Exponent.value?] at hx
  generalize digitsOf e.digits = ds at hdigits hx ⊢
  cases ds with
  | nil => cases hx
  | cons d ds =>
      have hall : (!(d :: ds).isEmpty && (d :: ds).all Text.isDigit) = true :=
        List.all_eq_true.2 hdigits
      obtain hs | hs | hs := h.sign
      · obtain ⟨hplus, hminus⟩ := ne_sign_of_inRun (inRun_of_isDigit (hdigits d (by simp)))
        rw [hs] at hx ⊢
        rw [Option.toList_none, List.nil_append, exponent?, if_pos hall, Int.one_mul]
        · exact hx
        · rintro _ ⟨⟩
          exact hminus rfl
        · rintro _ ⟨⟩
          exact hplus rfl
      · rw [hs] at hx ⊢
        rw [Option.toList_some, List.singleton_append, exponent?, if_pos hall, Int.one_mul]
        exact hx
      · rw [hs] at hx ⊢
        rw [Option.toList_some, List.singleton_append, exponent?, if_pos hall, Int.neg_one_mul]
        exact hx

/-- An exponent starts with a letter. -/
theorem head_plain {e : Option Exponent} (he : ∀ y ∈ e, y.Valid) :
    ∀ c ∈ (e.elim [] Exponent.plain).head?, Text.isDigit c = false ∧ c ≠ '.' := by
  cases e with
  | none => simp
  | some y =>
      rintro _ ⟨⟩
      obtain hm | hm := (he y rfl).mark
      · rw [hm]
        decide
      · rw [hm]
        decide

/-- Behind the digits, what is left is read as the exponent. -/
theorem ofParts_plain {e : Option Exponent} (he : ∀ y ∈ e, y.Valid) {x : Int}
    (hx : e.elim (some 0) Exponent.value? = some x) (whole fraction : List Char) :
    (match e.elim [] Exponent.plain with
      | [] => some (ofParts whole fraction 0)
      | c :: r =>
        if c == 'e' || c == 'E' then (exponent? r).map (ofParts whole fraction) else none) =
      some (ofParts whole fraction x) := by
  cases e with
  | none =>
      cases hx
      rfl
  | some y =>
      have hmark : (y.mark == 'e' || y.mark == 'E') = true := by simpa using (he y rfl).mark
      have hexponent := exponent?_plain (he y rfl) hx
      simp only [Option.elim_some, Exponent.plain, List.cons_append, hmark, if_true, hexponent,
        Option.map_some]

/-- Digits, then a fraction and an exponent if there are any, are read as the double of these
parts. -/
theorem magnitude?_plain {d : Char} {ds : List Char} (hwhole : ∀ c ∈ d :: ds, Text.isDigit c)
    {f : Option (List Char)} (hf : ∀ r ∈ f, ∀ c ∈ r, Text.isDigit c) {e : Option Exponent}
    (he : ∀ y ∈ e, y.Valid) {x : Int} (hx : e.elim (some 0) Exponent.value? = some x) :
    magnitude? (d :: ds ++ (f.elim [] ('.' :: ·) ++ e.elim [] Exponent.plain)) =
      some (ofParts (d :: ds) (f.getD []) x) := by
  have hd : Text.isDigit d := hwhole d (List.mem_cons_self ..)
  have hbehind : ∀ c ∈ (e.elim [] Exponent.plain).head?, Text.isDigit c = false :=
    fun c hc => (head_plain he c hc).1
  have hrest : ∀ c ∈ (f.elim [] ('.' :: ·) ++ e.elim [] Exponent.plain).head?,
      Text.isDigit c = false := by
    cases f with
    | none => exact hbehind
    | some r =>
        rintro _ ⟨⟩
        rfl
  obtain ⟨htake, hdrop⟩ := takeWhile_append_of_stop hwhole hrest
  rw [List.cons_append] at htake hdrop ⊢
  rw [magnitude?, word_ne hd _ rfl rfl, word_ne hd _ rfl rfl, word_ne hd _ rfl rfl, Bool.or_self,
    if_neg Bool.false_ne_true, if_neg Bool.false_ne_true, htake, hdrop]
  cases f with
  | none =>
      have hpoint : ∀ r, e.elim [] Exponent.plain = '.' :: r → False := fun r hr =>
        (head_plain he '.' (by rw [hr]; rfl)).2 rfl
      have hread := ofParts_plain he hx (d :: ds) []
      rw [Option.elim_none, List.nil_append]
      generalize e.elim [] Exponent.plain = tail at hpoint hread ⊢
      dsimp only
      split
      next r => exact (hpoint r rfl).elim
      next => exact hread
  | some r =>
      obtain ⟨htake, hdrop⟩ := takeWhile_append_of_stop (hf r rfl) hbehind
      simp only [Option.elim_some, List.cons_append, htake, hdrop]
      exact ofParts_plain he hx (d :: ds) r

/-- Without its underscores, a numeral is read as the double of its parts. -/
theorem ofText?_plain {n : Numeral} (h : n.Valid) {x : Int}
    (hx : n.exponent.elim (some 0) Exponent.value? = some x) :
    ofText? (String.ofList (digitsOf n.text)) =
      some (ofParts (digitsOf n.whole) (digitsOf (n.fraction.getD [])) x) := by
  obtain ⟨d, ds, hwhole, hd⟩ := h.whole.digitsOf_eq_cons
  have hdigits := isDigit_of_mem_digitsOf h.whole.2
  have hfraction : ∀ r ∈ n.fraction.map digitsOf, ∀ c ∈ r, Text.isDigit c := by
    intro r hr
    obtain ⟨f, hf, rfl⟩ := Option.mem_map.1 hr
    exact isDigit_of_mem_digitsOf (h.fraction f hf).2
  rw [hwhole] at hdigits
  have hread := magnitude?_plain hdigits hfraction h.exponent hx
  have hfractions : n.fraction.elim [] ('.' :: digitsOf ·) =
      (n.fraction.map digitsOf).elim [] ('.' :: ·) := by
    cases n.fraction with
    | none => rfl
    | some f => rfl
  have htext : digitsOf n.text = d :: ds ++
      ((n.fraction.map digitsOf).elim [] ('.' :: ·) ++ n.exponent.elim [] Exponent.plain) := by
    rw [h.digitsOf_text, hwhole, hfractions, List.append_assoc]
  obtain ⟨hplus, hminus⟩ := ne_sign_of_inRun (inRun_of_isDigit hd)
  have hgetD : (n.fraction.map digitsOf).getD [] = digitsOf (n.fraction.getD []) := by
    cases n.fraction with
    | none => rfl
    | some f => rfl
  rw [ofText?, String.toList_ofList, htext, hwhole, ← hgetD, ← hread]
  split
  next heq => exact absurd (List.cons.inj heq).1 hminus
  next heq => exact absurd (List.cons.inj heq).1 hplus
  next => rfl

end Double

/-! ## What a numeral denotes -/

/-- The number that decimal digits denote, the last being that of the ones. -/
def Text.decimal (ds : List Char) : Nat := Nat.ofDigits 10 (ds.reverse.map digitValue)

theorem Text.digitsValue_eq_decimal (ds : List Char) : digitsValue ds = decimal ds := by
  induction ds using List.reverseRecOn with
  | nil => rfl
  | append_singleton ds c ih =>
      rw [decimal] at ih
      rw [digitsValue, List.foldl_concat, decimal, List.reverse_append, List.reverse_singleton,
        List.singleton_append, List.map_cons, Nat.ofDigits_cons, ← ih]
      exact Nat.add_comm _ _

namespace Numeral

/-- What a numeral denotes, told from its text without the underscores. -/
inductive Denotes (n : Numeral) : Token.Kind → Prop where
  /-- An exponent without a digit denotes nothing. -/
  | dangling {e : Exponent} : n.exponent = some e → (∀ c ∈ e.digits, Text.isDigit c = false) →
      Denotes n .invalid
  /-- With a fraction or an exponent, a double. -/
  | float {x : Double} : n.fraction ≠ none ∨ n.exponent ≠ none →
      (∀ e ∈ n.exponent, ∃ c ∈ e.digits, Text.isDigit c) →
      Double.ofText? (String.ofList (digitsOf n.text)) = some x → Denotes n (.float x)
  /-- Otherwise an integer. -/
  | integer : n.fraction = none → n.exponent = none → Text.decimal (digitsOf n.text) < 2 ^ 63 →
      Denotes n (.integer (Text.decimal (digitsOf n.text)))
  /-- An integer can be too large. -/
  | tooLarge : n.fraction = none → n.exponent = none → 2 ^ 63 ≤ Text.decimal (digitsOf n.text) →
      Denotes n .invalid

/-- An exponent without a value has no digit. -/
theorem Exponent.not_isDigit {e : Exponent} (h : e.value? = none) :
    ∀ c ∈ e.digits, Text.isDigit c = false := by
  rw [value?] at h
  split at h
  next hempty =>
    intro c hc
    have hfilter := List.filter_eq_nil_iff.1 (List.isEmpty_iff.1 hempty) c hc
    rw [bne_iff_ne, not_not] at hfilter
    rw [hfilter]
    rfl
  next => cases h

/-- An exponent with a value has a digit. -/
theorem Exponent.Valid.exists_digit {e : Exponent} (he : e.Valid) {x : Int}
    (h : e.value? = some x) : ∃ c ∈ e.digits, Text.isDigit c := by
  rw [value?] at h
  split at h
  next => cases h
  next hne =>
    rw [List.isEmpty_iff] at hne
    obtain ⟨c, ds, hcons⟩ := List.exists_cons_of_ne_nil hne
    have hc : c ∈ digitsOf e.digits := by simp [hcons]
    exact ⟨c, List.mem_of_mem_filter hc, isDigit_of_mem_digitsOf he.digits c hc⟩

/-- The kind of a numeral is what it denotes. -/
theorem Valid.denotes {n : Numeral} (h : n.Valid) : n.Denotes n.kind := by
  obtain ⟨whole, f, e⟩ := n
  cases e with
  | some e =>
      cases hx : e.value? with
      | none =>
          have hkind : kind ⟨whole, f, some e⟩ = .invalid := by simp only [kind, hx]
          rw [hkind]
          exact .dangling rfl (Exponent.not_isDigit hx)
      | some x =>
          have hkind : kind ⟨whole, f, some e⟩ =
              .float (Double.ofParts (digitsOf whole) (digitsOf (f.getD [])) x) := by
            simp only [kind, hx]
          rw [hkind]
          refine .float (Or.inr (by simp)) ?_ (Double.ofText?_plain h hx)
          rintro _ ⟨⟩
          exact (h.exponent e rfl).exists_digit hx
  | none =>
      cases f with
      | some f => exact .float (Or.inl (by simp)) (by simp) (Double.ofText?_plain h rfl)
      | none =>
          have htext : Text.digitsValue (digitsOf whole) =
              Text.decimal (digitsOf (text ⟨whole, none, none⟩)) := by
            rw [Text.digitsValue_eq_decimal, text]
            simp
          have hbound : integerBound = 2 ^ 63 := rfl
          simp only [kind, htext, hbound]
          split
          next hlt => exact .integer rfl rfl hlt
          next hge => exact .tooLarge rfl rfl (Nat.le_of_not_lt hge)

/-- A text is spelled by at most one numeral. -/
theorem eq_of_text_eq {n n' : Numeral} (h : n.Valid) (h' : n'.Valid) (htext : n.text = n'.text) :
    n = n' := by
  have hends : Ends [] := nofun
  have hsplit := split_text h (by simp) hends
  have hsplit' := split_text h' (by simp) hends
  rw [htext, hsplit'] at hsplit
  exact (congrArg Prod.fst hsplit).symm

end Numeral

/-! ## Sources -/

/-- A token that starts with a digit is the longest numeral that stands there.  Its text is that of
a numeral, and of only one; no numeral in front of the rest of the source is longer; and it is of
the kind that the numeral denotes. -/
theorem Tokens.numeral_of_mem {source : String} {t : Token} (ht : t ∈ (ofSource source).items)
    {c : Char} {cs : List Char} (htext : t.text = c :: cs) (hc : Text.isDigit c) :
    ∃ (n : Numeral) (remaining : List Char), GoesOn source t.start.offset remaining ∧
      n.Valid ∧ n.text = t.text ∧ (∀ n' : Numeral, n'.Valid → n'.text = t.text → n' = n) ∧
      t.text <+: remaining ∧
      (∀ n' : Numeral, n'.Valid → n'.text <+: remaining → n'.text.length ≤ t.text.length) ∧
      n.Denotes t.kind := by
  have hs : GoesOn source Position.start.offset source.toList := ⟨[], rfl, rfl⟩
  obtain ⟨d, ds, hgoes, -, hkind, hlexeme, -⟩ := (ofSource_taken source).exists_lexeme hs t ht
  have happend := lexeme_append d ds
  rw [← hlexeme, htext] at happend
  obtain rfl : c = d := (List.cons.inj happend).1
  rw [lexeme_of_isDigit hc] at hkind hlexeme
  obtain ⟨hvalid, hsplit⟩ := Numeral.split_spec hc ds
  refine ⟨_, c :: ds, hgoes, hvalid, hlexeme.symm, ?_, ?_, ?_, ?_⟩
  · intro n' hn' heq
    exact Numeral.eq_of_text_eq hn' hvalid (heq.trans hlexeme)
  · rw [hlexeme]
    exact ⟨_, hsplit⟩
  · intro n' hn' hle
    rw [hlexeme]
    exact (Numeral.split_longest hn' hle).length_le
  · rw [hkind]
    exact hvalid.denotes

/-- The point and the sign belong to this numeral, and its exponent has no digit. -/
theorem Tokens.numeral_of_mem_dangling :
    (⟨.invalid, ['1', '_', '.', '5', 'e', '+'], ⟨2, 1, 3⟩, ⟨8, 1, 9⟩⟩ : Token) ∈
      (ofSource "v=1_.5e+").items ∧
    Text.isDigit '1' ∧
    ∃ n : Numeral, n.Valid ∧ n.text = ['1', '_', '.', '5', 'e', '+'] ∧ n.Denotes .invalid := by
  have ht : (⟨.invalid, ['1', '_', '.', '5', 'e', '+'], ⟨2, 1, 3⟩, ⟨8, 1, 9⟩⟩ : Token) ∈
      (ofSource "v=1_.5e+").items := by decide +kernel
  obtain ⟨n, -, -, hn, htext, -, -, -, hdenotes⟩ := numeral_of_mem ht rfl (by decide)
  exact ⟨ht, by decide, n, hn, htext, hdenotes⟩

-- underscores do not count, and two to the power 63 is too large
example : (Tokens.ofSource "9_223372036854775807 9223372036854775808").items.map Token.kind =
    [.integer 9223372036854775807, .invalid] := by
  decide +kernel

end BlockScript
