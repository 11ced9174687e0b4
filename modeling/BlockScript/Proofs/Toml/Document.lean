import BlockScript.Proofs.Toml.Quoted
import BlockScript.Proofs.Token.Spelling
import BlockScript.Toml.Document
import Mathlib.Data.List.Forall2

/-!
# Written documents are read back

A document that is written has one line for each value, with a bare key in front of an equals sign.
`IsLine` says which text of a line stands for which pair, and `sections?_lines` that a document of
such lines is read as these pairs.
-/

namespace BlockScript.Toml

/-! ## Keys -/

/-- A key that needs no quotes. -/
def IsBareKey (cs : List Char) : Prop := cs ≠ [] ∧ ∀ c ∈ cs, isBare c

instance (cs : List Char) : Decidable (IsBareKey cs) :=
  decidable_of_iff (!cs.isEmpty && cs.all isBare) (by simp [IsBareKey])

theorem IsBareKey.exists_cons {cs : List Char} (h : IsBareKey cs) :
    ∃ c r, cs = c :: r ∧ isBare c := by
  obtain ⟨c, r, rfl⟩ := List.exists_cons_of_ne_nil h.1
  exact ⟨c, r, rfl, h.2 c List.mem_cons_self⟩

theorem ne_of_isBare {c d : Char} (hc : isBare c) (hd : isBare d = false) : c ≠ d := by
  rintro rfl
  simp [hd] at hc

theorem lineString?_eq_none {c : Char} (hdouble : c ≠ '"') (hsingle : c ≠ '\'') (cs : List Char) :
    lineString? (c :: cs) = none := by
  rw [lineString?]
  all_goals simp_all

theorem reads_keyPart? {cs : List Char} (h : IsBareKey cs) (rest : List Char) :
    Reads keyPart? (cs ++ ' ' :: rest) (String.ofList cs) (' ' :: rest) := by
  have hstop : ∀ c ∈ (' ' :: rest).head?, isBare c = false := by
    rintro c ⟨⟩
    decide
  obtain ⟨htake, hdrop⟩ := takeWhile_append_of_stop h.2 hstop
  have hne := h.1
  obtain ⟨c, r, rfl, hc⟩ := h.exists_cons
  have hnone : lineString? (c :: r ++ ' ' :: rest) = none :=
    lineString?_eq_none (ne_of_isBare hc (by decide)) (ne_of_isBare hc (by decide)) _
  refine ⟨by simp only [List.length_append, List.length_cons]; omega, ?_⟩
  simp only [keyPart?, hnone, htake, hdrop]
  rw [dif_pos hne]

theorem skipBlanks_eq_self {c : Char} (h : isBlank c = false) (cs : List Char) :
    skipBlanks (c :: cs) = c :: cs := by
  simp [skipBlanks, h]

theorem IsBareKey.skipBlanks {cs : List Char} (h : IsBareKey cs) (rest : List Char) :
    skipBlanks (cs ++ rest) = cs ++ rest := by
  obtain ⟨c, r, rfl, hc⟩ := h.exists_cons
  refine skipBlanks_eq_self ?_ _
  have hblank := ne_of_isBare hc (d := ' ') (by decide)
  have htab := ne_of_isBare hc (d := '\t') (by decide)
  simp [isBlank, hblank, htab]

theorem reads_keyParts? {cs : List Char} (h : IsBareKey cs) (rest : List Char) :
    Reads (keyParts? []) (cs ++ ' ' :: '=' :: rest) [String.ofList cs] ('=' :: rest) := by
  have hreads := reads_keyPart? h ('=' :: rest)
  rw [← h.skipBlanks (' ' :: '=' :: rest)] at hreads
  obtain ⟨hlt, hpart⟩ := hreads
  refine ⟨by simp only [List.length_append, List.length_cons]; omega, ?_⟩
  rw [keyParts?]
  split
  · rename_i hnone
    cases hpart.symm.trans hnone
  · rename_i p hsome
    cases hpart.symm.trans hsome
    rfl

theorem reads_key? {cs : List Char} (h : IsBareKey cs) (rest : List Char) :
    Reads key? (cs ++ ' ' :: '=' :: rest) ⟨[], String.ofList cs⟩ ('=' :: rest) := by
  obtain ⟨hlt, hparts⟩ := reads_keyParts? h rest
  refine ⟨hlt, ?_⟩
  simp only [key?, hparts]
  rfl

theorem reads_pair? {read : Reader Node} {key : List Char} (hkey : IsBareKey key) {c : Char}
    (hc : isBlank c = false) {cs rest : List Char} {v : Node} (h : Reads read (c :: cs) v rest) :
    Reads (pair? read) (key ++ ' ' :: '=' :: ' ' :: c :: cs) ⟨⟨[], String.ofList key⟩, v⟩ rest := by
  obtain ⟨hltkey, hreadkey⟩ := reads_key? hkey (' ' :: c :: cs)
  have hskip : skipBlanks (' ' :: c :: cs) = c :: cs := skipBlanks_eq_self hc cs
  obtain ⟨hlt, h⟩ := h
  refine ⟨by simp only [List.length_append, List.length_cons] at hlt ⊢; omega, ?_⟩
  -- the matches of `pair?` keep their equations for the length, so they cannot be rewritten
  grind [pair?]

/-! ## Integers -/

theorem digitRun?_eq_some {isD : Char → Bool} (hunderscore : isD '_' = false) {cs : List Char}
    (hne : cs ≠ []) (h : ∀ c ∈ cs, isD c) : digitRun? isD cs = some cs := by
  induction cs with
  | nil => contradiction
  | cons c cs ih =>
      obtain ⟨hc, hcs⟩ := List.forall_mem_cons.1 h
      cases cs with
      | nil => simp [digitRun?, hc]
      | cons d cs =>
          have hd : d ≠ '_' := by
            rintro rfl
            simp [hunderscore] at hcs
          rw [digitRun?, if_pos hc, ih (List.cons_ne_nil d cs) hcs]
          · rfl
          · simp
          · rintro r ⟨⟩
            exact hd rfl

/-- The digits of a number do not start with a zero, unless it is zero. -/
theorem head_toDigits_ne {n : Nat} (h : 0 < n) :
    ∀ c ∈ (Nat.toDigits 10 n).head?, c ≠ '0' := by
  induction n using Nat.strongRecOn with
  | ind n ih =>
      by_cases hn : n < 10
      · rw [Nat.toDigits_of_lt_base hn]
        have hdigit : ∀ n < 10, 0 < n → n.digitChar ≠ '0' := by decide
        rintro c ⟨⟩
        exact hdigit n hn h
      · rw [Nat.toDigits_of_base_le (by decide) (by omega),
          List.head?_append_of_ne_nil _ Nat.toDigits_ne_nil]
        exact ih (n / 10) (by omega) (by omega)

theorem wholeRun?_toDigits (n : Nat) :
    wholeRun? (Nat.toDigits 10 n) = some (Nat.toDigits 10 n) := by
  obtain rfl | hn := Nat.eq_zero_or_pos n
  · rfl
  have hrun : digitRun? Text.isDigit (Nat.toDigits 10 n) = some (Nat.toDigits 10 n) :=
    digitRun?_eq_some (by decide) Nat.toDigits_ne_nil
      fun c hc => Nat.isDigit_of_mem_toDigits (by decide) (by decide) hc
  rw [wholeRun?, hrun]
  intro d r hcons
  exact head_toDigits_ne hn '0' (by rw [hcons]; rfl) rfl

theorem not_mem_toDigits {c : Char} (h : c.isDigit = false) (n : Nat) :
    c ∉ Nat.toDigits 10 n := by
  intro hc
  have hdigit := Nat.isDigit_of_mem_toDigits (by decide) (by decide) hc
  simp [h] at hdigit

/-- The digits of an integer of the format are read as it. -/
theorem integer?_toDigits {n : Nat} (h : n ≤ maxInteger) :
    integer? (Nat.toDigits 10 n) = some (n : Int) := by
  have hvalue : Text.digitsValue (Nat.toDigits 10 n) = n := Nat.ofDigitChars_ten_toDigits
  have hsign : splitSign (Nat.toDigits 10 n) = (false, Nat.toDigits 10 n) := by
    rw [splitSign]
    · intro r hr
      exact not_mem_toDigits (c := '-') rfl n (by rw [hr]; exact List.mem_cons_self)
    · intro r hr
      exact not_mem_toDigits (c := '+') rfl n (by rw [hr]; exact List.mem_cons_self)
  have hplain : ∀ c r, c.isDigit = false → Nat.toDigits 10 n ≠ '0' :: c :: r := by
    intro c r hc he
    exact not_mem_toDigits hc n (by simp [he])
  rw [integer?]
  · simp only [hsign, wholeRun?_toDigits, Option.bind_some, hvalue]
    simp
    omega
  · exact fun r => hplain 'x' r rfl
  · exact fun r => hplain 'o' r rfl
  · exact fun r => hplain 'b' r rfl

theorem isDateOrTime_eq_false {cs : List Char} (hcolon : ':' ∉ cs) (hdash : '-' ∉ cs) :
    isDateOrTime cs = false := by
  have htime : time? cs = none := by
    unfold time?
    split
    · simp at hcolon
    · rfl
  have hdate : date? cs = none := by
    unfold date?
    split
    · simp at hdash
    · rfl
  simp [isDateOrTime, htime, hdate]

theorem scalar?_toDigits {n : Nat} (h : n ≤ maxInteger) :
    scalar? (Nat.toDigits 10 n) = some (.integer n) := by
  have htrue : Nat.toDigits 10 n ≠ ['t', 'r', 'u', 'e'] := by
    intro he
    exact not_mem_toDigits (c := 't') rfl n (by simp [he])
  have hfalse : Nat.toDigits 10 n ≠ ['f', 'a', 'l', 's', 'e'] := by
    intro he
    exact not_mem_toDigits (c := 'f') rfl n (by simp [he])
  have hdate := isDateOrTime_eq_false (not_mem_toDigits (c := ':') rfl n)
    (not_mem_toDigits (c := '-') rfl n)
  rw [scalar?, if_neg htrue, if_neg hfalse, hdate, integer?_toDigits h]
  rfl

/-! ## Values -/

theorem reads_value?_of_flat? {c : Char} {cs rest : List Char} {v : Node} (hbracket : c ≠ '[')
    (hbrace : c ≠ '\x7b') (h : Reads flat? (c :: cs) v rest) (depth : Nat) :
    Reads (value? depth) (c :: cs) v rest := by
  obtain ⟨hlt, h⟩ := h
  refine ⟨hlt, ?_⟩
  cases depth with
  | zero => rw [value?, h]
  | succ depth =>
      rw [value?, h]
      · rintro r ⟨⟩
        exact hbracket rfl
      · rintro r ⟨⟩
        exact hbrace rfl

theorem reads_word? {cs : List Char} {v : Node} (hcs : ∀ c ∈ cs, inWord c)
    (hv : scalar? cs = some v) (rest : List Char) :
    Reads word? (cs ++ '\n' :: rest) v ('\n' :: rest) := by
  have hstop : ∀ c ∈ ('\n' :: rest).head?, inWord c = false := by
    rintro c ⟨⟩
    decide
  have hne : cs ≠ [] := by
    rintro rfl
    cases hv
  obtain ⟨htake, hdrop⟩ := takeWhile_append_of_stop hcs hstop
  refine ⟨by simpa using List.length_pos_iff.2 hne, ?_⟩
  grind [word?]

/-- The text `cs` at the end of a line is the value `v`. -/
structure IsValue (cs : List Char) (v : Node) : Prop where
  /-- It does not start with a blank. -/
  head : ∃ c r, cs = c :: r ∧ isBlank c = false
  /-- It is read up to the end of the line. -/
  reads : ∀ rest, Reads topValue? (cs ++ '\n' :: rest) v ('\n' :: rest)

theorem ne_of_inWord {c d : Char} (hc : inWord c) (hd : inWord d = false) : c ≠ d := by
  rintro rfl
  simp [hd] at hc

theorem reads_flat?_word {c : Char} (hc : inWord c) {cs rest : List Char} {v : Node}
    (h : Reads word? (c :: cs) v rest) : Reads flat? (c :: cs) v rest := by
  obtain ⟨hlt, h⟩ := h
  refine ⟨hlt, ?_⟩
  rw [flat?, h]
  · rintro r ⟨⟩
    exact ne_of_inWord hc (by decide) rfl
  · rintro r ⟨⟩
    exact ne_of_inWord hc (by decide) rfl

theorem isValue_word {cs : List Char} {v : Node} (hcs : ∀ c ∈ cs, inWord c)
    (hv : scalar? cs = some v) : IsValue cs v := by
  have hreads := reads_word? hcs hv
  cases cs with
  | nil => cases hv
  | cons c cs =>
      have hc : inWord c := hcs c List.mem_cons_self
      have hspace := ne_of_inWord hc (d := ' ') (by decide)
      have htab := ne_of_inWord hc (d := '\t') (by decide)
      refine ⟨⟨c, cs, rfl, by simp [isBlank, hspace, htab]⟩, ?_⟩
      intro rest
      exact reads_value?_of_flat? (ne_of_inWord hc (by decide)) (ne_of_inWord hc (by decide))
        (reads_flat?_word hc (hreads rest)) _

theorem isValue_boolean (b : Bool) : IsValue (toString b).toList (.boolean b) := by
  cases b with
  | false => exact isValue_word (List.all_eq_true.1 rfl) rfl
  | true => exact isValue_word (List.all_eq_true.1 rfl) rfl

theorem isValue_integer {n : Nat} (h : n ≤ maxInteger) :
    IsValue (toString n).toList (.integer n) := by
  rw [Nat.toString_eq_ofList_toDigits, String.toList_ofList]
  refine isValue_word ?_ (scalar?_toDigits h)
  intro c hc
  have hdigit : c.isDigit := Nat.isDigit_of_mem_toDigits (by decide) (by decide) hc
  simp [inWord, Char.isAlphanum, hdigit]

/-- A string is written with a quote in front. -/
theorem Form.exists_write (f : Form) (cs : List Char) :
    ∃ c r, f.write cs = c :: r ∧ (c = '"' ∨ c = '\'') := by
  cases f with
  | double => exact ⟨_, _, rfl, .inl rfl⟩
  | single => exact ⟨_, _, rfl, .inr rfl⟩
  | tripleDouble => exact ⟨_, _, rfl, .inl rfl⟩
  | tripleSingle => exact ⟨_, _, rfl, .inr rfl⟩

theorem reads_flat?_string {c : Char} (hquote : c = '"' ∨ c = '\'') {cs rest : List Char}
    {s : String} (h : Reads string? (c :: cs) s rest) : Reads flat? (c :: cs) (.string s) rest := by
  obtain ⟨hlt, h⟩ := h
  refine ⟨hlt, ?_⟩
  obtain rfl | rfl := hquote
  · rw [flat?, h]
    rfl
  · rw [flat?, h]
    rfl

theorem isValue_string (s : String) : IsValue (writeString s).toList (.string s) := by
  have hreads := reads_write_choose s.toList
  rw [writeString, String.toList_ofList]
  rw [String.ofList_toList] at hreads
  obtain ⟨c, r, hwrite, hquote⟩ := Form.exists_write (Form.choose s.toList) s.toList
  rw [hwrite] at hreads ⊢
  refine ⟨⟨c, r, rfl, ?_⟩, ?_⟩
  · obtain rfl | rfl := hquote
    · decide
    · decide
  · intro rest
    have hflat := reads_flat?_string hquote (hreads rest)
    obtain rfl | rfl := hquote
    · exact reads_value?_of_flat? (by decide) (by decide) hflat _
    · exact reads_value?_of_flat? (by decide) (by decide) hflat _

/-! ## Lines -/

/-- The text `line` is a line that gives a bare key a value. -/
inductive IsLine : String → Pair → Prop where
  | intro {key text : String} {v : Node} (hkey : IsBareKey key.toList)
      (hvalue : IsValue text.toList v) :
      IsLine (key ++ " = " ++ text ++ "\n") ⟨⟨[], key⟩, v⟩

/-- A line starts with its key. -/
theorem IsLine.exists_cons {line : String} {p : Pair} (h : IsLine line p) :
    ∃ c r, line.toList = c :: r ∧ isBare c := by
  obtain @⟨key, text, v, hkey, -⟩ := h
  obtain ⟨c, r, hcons, hc⟩ := hkey.exists_cons
  exact ⟨c, r ++ (" = " ++ text ++ "\n").toList, by simp [hcons], hc⟩

theorem IsBareKey.skipLines? {cs : List Char} (h : IsBareKey cs) (rest : List Char) :
    skipLines? false (cs ++ rest) = some (cs ++ rest) := by
  obtain ⟨c, r, rfl, hc⟩ := h.exists_cons
  rw [List.cons_append, Toml.skipLines?]
  · have hspace := ne_of_isBare hc (d := ' ') (by decide)
    have htab := ne_of_isBare hc (d := '\t') (by decide)
    have hhash := ne_of_isBare hc (d := '#') (by decide)
    simp [isBlank, hspace, htab, hhash]
  · exact ne_of_isBare hc (by decide)
  · rintro r rfl -
    exact ne_of_isBare hc (by decide) rfl

/-- A line that does not begin with a bracket is read as a pair. -/
theorem reads_content_pair {cs rest : List Char} {p : Pair}
    (hreads : Reads (pair? topValue?) cs p rest) (hne : ∀ r, cs ≠ '[' :: r) :
    Reads entry? cs (.pair p) rest := by
  obtain ⟨hlt, hreads⟩ := hreads
  refine ⟨hlt, ?_⟩
  unfold entry?
  split
  next r => exact absurd rfl (hne _)
  next r _ => exact absurd rfl (hne r)
  next =>
    rw [hreads]
    rfl

theorem IsBareKey.reads_content {cs : List Char} (h : IsBareKey cs) {more rest : List Char}
    {p : Pair} (hreads : Reads (pair? topValue?) (cs ++ more) p rest) :
    Reads entry? (cs ++ more) (.pair p) rest := by
  refine reads_content_pair hreads ?_
  obtain ⟨c, r, rfl, hc⟩ := h.exists_cons
  rintro _ ⟨⟩
  exact ne_of_isBare hc (by decide) rfl

/-- A line is read, and its end. -/
theorem sections?_line {line : String} {p : Pair} (h : IsLine line p) (found : List Section)
    (header : Header) (pairs : List Pair) (rest : List Char) :
    sections? found header pairs (line.toList ++ rest) =
      sections? found header (p :: pairs) rest := by
  obtain @⟨key, text, v, hkey, ⟨⟨c, r, hcons, hc⟩, hreads⟩⟩ := h
  rw [hcons] at hreads
  have htext : (key ++ " = " ++ text ++ "\n").toList ++ rest =
      key.toList ++ ' ' :: '=' :: ' ' :: c :: (r ++ '\n' :: rest) := by
    simp [hcons]
  have hpair := reads_pair? hkey hc (hreads rest)
  rw [String.ofList_toList, List.append_eq] at hpair
  have hskip := hkey.skipLines? (' ' :: '=' :: ' ' :: c :: (r ++ '\n' :: rest))
  have hend : endLine? ('\n' :: rest) = some rest := rfl
  obtain ⟨hlt, hentry⟩ := hkey.reads_content hpair
  rw [htext, sections?]
  grind

theorem sections?_nil (found : List Section) (header : Header) (pairs : List Pair) :
    sections? found header pairs [] = some ((⟨header, pairs.reverse⟩ :: found).reverse) := by
  rw [sections?]
  rfl

/-- Lines are read in order. -/
theorem sections?_lines {lines : List String} {ps : List Pair} (h : List.Forall₂ IsLine lines ps)
    (found : List Section) (header : Header) (pairs : List Pair) :
    sections? found header pairs (lines.flatMap String.toList) =
      some ((⟨header, pairs.reverse ++ ps⟩ :: found).reverse) := by
  induction h generalizing pairs with
  | nil =>
      rw [List.append_nil]
      exact sections?_nil found header pairs
  | @cons line p lines ps hline _ ih =>
      rw [List.flatMap_cons, sections?_line hline, ih]
      simp

/-- A document of lines is the table of their pairs. -/
theorem parse?_join {lines : List String} {ps : List Pair} (h : List.Forall₂ IsLine lines ps) :
    parse? (String.join lines) = Entries.addPairs ps [] := by
  have hsections := sections?_lines h [] .top []
  have hmark : ∀ r, lines.flatMap String.toList ≠ '\uFEFF' :: r := by
    intro r hr
    cases h with
    | nil => cases hr
    | cons hline _ =>
        obtain ⟨c, r', hcons, hc⟩ := hline.exists_cons
        rw [List.flatMap_cons, hcons] at hr
        cases hr
        exact ne_of_isBare hc (by decide) rfl
  -- the text has no byte order mark, by `hmark`
  have hparse : parse? (String.join lines) =
      (sections? [] .top [] (lines.flatMap String.toList)).bind
        (·.foldlM Entries.addSection []) := by
    simp only [parse?, String.toList_join]
  rw [hparse, hsections]
  simp [Entries.addSection]

end BlockScript.Toml
