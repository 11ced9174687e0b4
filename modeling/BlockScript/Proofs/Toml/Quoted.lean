import BlockScript.Toml.Quoted
import Mathlib.Tactic.SplitIfs

/-!
# Quoted strings are read back

Whatever characters a string has, reading takes back what `Form.write` writes in the form that
`Form.choose` takes.

Between three quotes a quote may stand for itself or begin the end of the string, and which of the
two is seen only further on.  The two statements about such strings (`insideTripleDouble_write` and
`insideTripleSingle_append`) therefore keep the quotes of the run that is going on in front of the
text that is still to be read.
-/

namespace BlockScript.Toml

/-- The reader takes `v` off the front of `cs` and leaves `rest`. -/
def Reads {α : Type} (read : Reader α) (cs : List Char) (v : α) (rest : List Char) : Prop :=
  ∃ h, read cs = some ⟨v, rest, h⟩

/-! ## Escapes -/

theorem charOf?_toNat (c : Char) : charOf? c.toNat = some c := dif_pos c.valid

theorem hexNumber?_hexDigits4 : ∀ n < 128, hexNumber? (hexDigits4 n) = some n := by
  decide

theorem length_hexDigits4 : ∀ n < 128, (hexDigits4 n).length = 4 := by
  decide

theorem toNat_lt_of_isControl {c : Char} (h : isControl c) : c.toNat < 128 := by
  simp only [isControl, Bool.or_eq_true, Bool.and_eq_true, decide_eq_true_eq, beq_iff_eq] at h
  omega

/-- A character that may stand on the lines of a string is no carriage return. -/
theorem ne_carriageReturn {c : Char} (h : c = '\n' ∨ isControl c = false) : c ≠ '\r' := by
  rintro rfl
  revert h
  decide

/-- The numeric escape of a character of seven bits is read back. -/
theorem reads_escape?_hexDigits4 {c : Char} (h : c.toNat < 128) (rest : List Char) :
    Reads escape? ('u' :: hexDigits4 c.toNat ++ rest) c rest := by
  have hnumber := hexNumber?_hexDigits4 c.toNat h
  have hlength := length_hexDigits4 c.toNat h
  match hds : hexDigits4 c.toNat, hlength with
  | [d₁, d₂, d₃, d₄], _ =>
    rw [hds] at hnumber
    refine ⟨by simp only [List.length_append, List.length_cons]; omega, ?_⟩
    simp [escape?, hnumber, charOf?_toNat]

/-- An escape that is written is read back. -/
theorem exists_of_escapeOf? {c : Char} {e : List Char} (h : escapeOf? c = some e) :
    ∃ body, e = '\\' :: body ∧ ∀ rest, Reads escape? (body ++ rest) c rest := by
  simp only [escapeOf?, beq_iff_eq] at h
  split_ifs at h with _ _ _ _ _ hcontrol
  -- the five escapes with a letter of their own
  iterate 5
    · subst_vars
      cases h
      exact ⟨_, rfl, fun rest => ⟨by simp, rfl⟩⟩
  · cases h
    have hlt := toNat_lt_of_isControl (Bool.and_eq_true _ _ ▸ hcontrol).2
    exact ⟨_, rfl, reads_escape?_hexDigits4 hlt⟩

/-- What an escape starts with starts no line end. -/
theorem skipContinuation?_of_reads {cs rest : List Char} {c : Char}
    (h : Reads escape? cs c rest) : skipContinuation? cs = none := by
  obtain ⟨hlt, h⟩ := h
  unfold escape? at h
  split at h
  all_goals first | rfl | cases h

/-- A character that has no escape in every form is not a control character, unless it is a line
feed, and not a backslash. -/
theorem of_escapeOf?_eq_none {c : Char} (h : escapeOf? c = none) :
    c ≠ '\\' ∧ (c = '\n' ∨ isControl c = false) := by
  simp only [escapeOf?, beq_iff_eq] at h
  split_ifs at h with _ _ _ _ hbackslash hcontrol
  refine ⟨hbackslash, ?_⟩
  simpa [Classical.or_iff_not_imp_left] using hcontrol

/-! ## Between double quotes -/

theorem insideDouble_escape {cs rest : List Char} {c : Char} (h : Reads escape? cs c rest)
    (found : List Char) : insideDouble found ('\\' :: cs) = insideDouble (c :: found) rest := by
  obtain ⟨hlt, h⟩ := h
  rw [insideDouble, h]

theorem insideDouble_plain {c : Char} (hquote : c ≠ '"') (hbackslash : c ≠ '\\')
    (hcontrol : isControl c = false) (found cs : List Char) :
    insideDouble found (c :: cs) = insideDouble (c :: found) cs := by
  rw [insideDouble, if_neg (by simp [hcontrol])]
  · exact hquote
  · exact hbackslash

/-- A character that is written between double quotes is read back. -/
theorem insideDouble_writeDouble (c : Char) (found cs : List Char) :
    insideDouble found (writeDouble c ++ cs) = insideDouble (c :: found) cs := by
  unfold writeDouble
  split
  · rename_i e he
    obtain ⟨body, rfl, hreads⟩ := exists_of_escapeOf? he
    exact insideDouble_escape (hreads cs) found
  · rename_i hnone
    obtain ⟨hbackslash, hplain⟩ := of_escapeOf?_eq_none hnone
    split_ifs with hline hquote
    · cases beq_iff_eq.1 hline
      exact insideDouble_escape ⟨_, rfl⟩ found
    · cases beq_iff_eq.1 hquote
      exact insideDouble_escape ⟨_, rfl⟩ found
    · exact insideDouble_plain (by simpa using hquote) hbackslash
        (hplain.resolve_left (by simpa using hline)) found cs

theorem insideDouble_write (cs rest found : List Char) :
    insideDouble found (cs.flatMap writeDouble ++ '"' :: rest) =
      Inside.close (cs.reverse ++ found) rest := by
  induction cs generalizing found with
  | nil =>
      rw [List.flatMap_nil, List.nil_append, insideDouble]
      rfl
  | cons c cs ih =>
      rw [List.flatMap_cons, List.append_assoc, insideDouble_writeDouble, ih]
      simp

/-! ## Between single quotes -/

theorem insideSingle_append {cs : List Char} (h : ∀ c ∈ cs, c ≠ '\'' ∧ isControl c = false)
    (rest found : List Char) :
    insideSingle found (cs ++ '\'' :: rest) = Inside.close (cs.reverse ++ found) rest := by
  induction cs generalizing found with
  | nil => rfl
  | cons c cs ih =>
      obtain ⟨⟨hquote, hcontrol⟩, hcs⟩ := List.forall_mem_cons.1 h
      rw [List.cons_append, insideSingle, if_neg (by simp [hcontrol]), ih hcs]
      · simp
      · exact hquote

/-! ## Between three double quotes -/

/-- One or two quotes with another character behind them stand for themselves. -/
theorem insideTripleDouble_quotes {run : Nat} (hrun : run ≤ 2) {c : Char} (hc : c ≠ '"')
    (cs found : List Char) :
    insideTripleDouble found (List.replicate run '"' ++ c :: cs) =
      insideTripleDouble (List.replicate run '"' ++ found) (c :: cs) := by
  have hcontrol : isControl '"' = false := by decide
  match run, hrun with
  | 0, _ => rfl
  | 1, _ => simp [insideTripleDouble, hc, hcontrol]
  | 2, _ => simp [insideTripleDouble, hc, hcontrol]

/-- Up to two quotes may stand before the three that end a string. -/
theorem insideTripleDouble_end {run : Nat} (hrun : run ≤ 2) {c : Char} (hc : c ≠ '"')
    (cs found : List Char) :
    insideTripleDouble found (List.replicate run '"' ++ '"' :: '"' :: '"' :: c :: cs) =
      Inside.close (List.replicate run '"' ++ found) (c :: cs) := by
  match run, hrun with
  | 0, _ => simp [insideTripleDouble, hc]
  | 1, _ => simp [insideTripleDouble, hc]
  | 2, _ => simp [insideTripleDouble]

theorem insideTripleDouble_escape {cs rest : List Char} {c : Char} (h : Reads escape? cs c rest)
    (found : List Char) :
    insideTripleDouble found ('\\' :: cs) = insideTripleDouble (c :: found) rest := by
  have hnone := skipContinuation?_of_reads h
  obtain ⟨hlt, h⟩ := h
  rw [insideTripleDouble, hnone, h]

theorem insideTripleDouble_plain {c : Char} (hquote : c ≠ '"') (hbackslash : c ≠ '\\')
    (hcontrol : c = '\n' ∨ isControl c = false) (found cs : List Char) :
    insideTripleDouble found (c :: cs) = insideTripleDouble (c :: found) cs := by
  have hreturn := ne_carriageReturn hcontrol
  rw [insideTripleDouble, if_neg (by simpa [Classical.or_iff_not_imp_left] using hcontrol)]
  all_goals simp_all

theorem replicate_append_cons (run : Nat) (q : Char) (cs : List Char) :
    List.replicate run q ++ q :: cs = List.replicate (run + 1) q ++ cs := by
  simp [List.replicate_succ']

/-- What is written behind `run` quotes is read back, together with these quotes. -/
theorem insideTripleDouble_write (cs : List Char) {run : Nat} (hrun : run ≤ 2) {c : Char}
    (hc : c ≠ '"') (rest found : List Char) :
    insideTripleDouble found (List.replicate run '"' ++ writeTripleDouble run cs ++
        '"' :: '"' :: '"' :: c :: rest) =
      Inside.close (cs.reverse ++ List.replicate run '"' ++ found) (c :: rest) := by
  induction cs generalizing run found with
  | nil => simpa [writeTripleDouble] using insideTripleDouble_end hrun hc rest found
  | cons d cs ih =>
      -- anything but a plain quote shows that the quotes before it stand for themselves
      have hnext := fun found => ih (Nat.zero_le 2) (d :: (List.replicate run '"' ++ found))
      simp only [List.replicate_zero, List.nil_append, List.append_nil, List.reverse_cons,
        List.append_assoc, List.singleton_append] at hnext ⊢
      rw [writeTripleDouble]
      split
      · rename_i e he
        obtain ⟨body, rfl, hreads⟩ := exists_of_escapeOf? he
        simp only [List.cons_append, List.append_assoc]
        rw [insideTripleDouble_quotes hrun (by decide), insideTripleDouble_escape (hreads _), hnext]
      · rename_i hnone
        obtain ⟨hbackslash, hplain⟩ := of_escapeOf?_eq_none hnone
        split_ifs with hquote hfull
        · cases beq_iff_eq.1 hquote
          simp only [List.cons_append]
          rw [insideTripleDouble_quotes hrun (by decide),
            insideTripleDouble_escape ⟨by simp, rfl⟩, hnext]
        · -- a plain quote goes on with the run, and nothing is read yet
          cases beq_iff_eq.1 hquote
          have hmore := ih (show run + 1 ≤ 2 by omega) found
          rw [List.append_assoc] at hmore
          rw [List.cons_append, replicate_append_cons, hmore, List.replicate_succ]
          simp
        · have hd : d ≠ '"' := by simpa using hquote
          simp only [List.cons_append]
          rw [insideTripleDouble_quotes hrun hd,
            insideTripleDouble_plain hd hbackslash hplain, hnext]

/-! ## Between three single quotes -/

theorem insideTripleSingle_quotes {run : Nat} (hrun : run ≤ 2) {c : Char} (hc : c ≠ '\'')
    (cs found : List Char) :
    insideTripleSingle found (List.replicate run '\'' ++ c :: cs) =
      insideTripleSingle (List.replicate run '\'' ++ found) (c :: cs) := by
  have hcontrol : isControl '\'' = false := by decide
  match run, hrun with
  | 0, _ => rfl
  | 1, _ => simp [insideTripleSingle, hc, hcontrol]
  | 2, _ => simp [insideTripleSingle, hc, hcontrol]

theorem insideTripleSingle_end {run : Nat} (hrun : run ≤ 2) {c : Char} (hc : c ≠ '\'')
    (cs found : List Char) :
    insideTripleSingle found (List.replicate run '\'' ++ '\'' :: '\'' :: '\'' :: c :: cs) =
      Inside.close (List.replicate run '\'' ++ found) (c :: cs) := by
  match run, hrun with
  | 0, _ => simp [insideTripleSingle, hc]
  | 1, _ => simp [insideTripleSingle, hc]
  | 2, _ => simp [insideTripleSingle]

theorem insideTripleSingle_plain {c : Char} (hquote : c ≠ '\'')
    (hcontrol : c = '\n' ∨ isControl c = false) (found cs : List Char) :
    insideTripleSingle found (c :: cs) = insideTripleSingle (c :: found) cs := by
  have hreturn := ne_carriageReturn hcontrol
  rw [insideTripleSingle, if_neg (by simpa [Classical.or_iff_not_imp_left] using hcontrol)]
  all_goals simp_all

theorem le_longestRun (q : Char) (now longest : Nat) (cs : List Char) :
    longest ≤ longestRun q now longest cs := by
  induction cs generalizing now longest with
  | nil => exact Nat.le_max_right now longest
  | cons c cs ih =>
      rw [longestRun]
      split
      · exact ih _ _
      · exact Nat.le_trans (Nat.le_max_right now longest) (ih _ _)

/-- Characters behind `run` quotes are read back together with these, if no run is too long. -/
theorem insideTripleSingle_append {cs : List Char}
    (hcontrol : ∀ c ∈ cs, c = '\n' ∨ isControl c = false) {run longest : Nat}
    (hrun : longestRun '\'' run longest cs ≤ 2) {c : Char} (hc : c ≠ '\'')
    (rest found : List Char) :
    insideTripleSingle found (List.replicate run '\'' ++ cs ++
        '\'' :: '\'' :: '\'' :: c :: rest) =
      Inside.close (cs.reverse ++ List.replicate run '\'' ++ found) (c :: rest) := by
  induction cs generalizing run longest found with
  | nil =>
      have hshort : run ≤ 2 := Nat.le_trans (Nat.le_max_left run longest) hrun
      simpa using insideTripleSingle_end hshort hc rest found
  | cons d cs ih =>
      obtain ⟨hd, hcs⟩ := List.forall_mem_cons.1 hcontrol
      rw [longestRun] at hrun
      split_ifs at hrun with hquote
      · cases beq_iff_eq.1 hquote
        have hmore := ih hcs hrun found
        simp only [List.append_assoc] at hmore ⊢
        rw [List.cons_append, replicate_append_cons, hmore, List.replicate_succ]
        simp
      · have hne : d ≠ '\'' := by simpa using hquote
        have hshort : run ≤ 2 := by
          have hmax := le_longestRun '\'' 0 (max run longest) cs
          omega
        have hnext := ih hcs hrun (d :: (List.replicate run '\'' ++ found))
        simp only [List.replicate_zero, List.nil_append, List.append_nil, List.reverse_cons,
          List.append_assoc, List.cons_append] at hnext ⊢
        rw [insideTripleSingle_quotes hshort hne, insideTripleSingle_plain hne hd, hnext]

/-! ## Strings -/

theorem reads_lineString?_double {cs rest : List Char} {s : String}
    (h : insideDouble [] cs = some (s, rest)) : Reads lineString? ('"' :: cs) s rest := by
  refine ⟨Nat.lt_succ_of_lt (insideDouble_length_lt h), ?_⟩
  grind [lineString?]

theorem reads_lineString?_single {cs rest : List Char} {s : String}
    (h : insideSingle [] cs = some (s, rest)) : Reads lineString? ('\'' :: cs) s rest := by
  refine ⟨Nat.lt_succ_of_lt (insideSingle_length_lt h), ?_⟩
  grind [lineString?]

theorem reads_string?_tripleDouble {cs ds rest : List Char} {s : String}
    (hdrop : dropLineEnd cs = ds) (h : insideTripleDouble [] ds = some (s, rest)) :
    Reads string? ('"' :: '"' :: '"' :: cs) s rest := by
  subst hdrop
  have hinside := insideTripleDouble_length_lt h
  have hdrop := dropLineEnd_length_le cs
  refine ⟨by simp only [List.length_cons]; omega, ?_⟩
  grind [string?]

theorem reads_string?_tripleSingle {cs ds rest : List Char} {s : String}
    (hdrop : dropLineEnd cs = ds) (h : insideTripleSingle [] ds = some (s, rest)) :
    Reads string? ('\'' :: '\'' :: '\'' :: cs) s rest := by
  subst hdrop
  have hinside := insideTripleSingle_length_lt h
  have hdrop := dropLineEnd_length_le cs
  refine ⟨by simp only [List.length_cons]; omega, ?_⟩
  grind [string?]

/-- A string whose opening quotes are not three is a string on one line. -/
theorem reads_string?_of_lineString? {cs rest : List Char} {s : String}
    (hdouble : ∀ r, cs ≠ '"' :: '"' :: '"' :: r) (hsingle : ∀ r, cs ≠ '\'' :: '\'' :: '\'' :: r)
    (h : Reads lineString? cs s rest) : Reads string? cs s rest := by
  obtain ⟨hlt, h⟩ := h
  refine ⟨hlt, ?_⟩
  rw [string?, h]
  · exact hdouble
  · exact hsingle

/-- The line end that is written in front of a string on several lines does not count, and no other
string starts with one. -/
theorem dropLineEnd_first {cs body : List Char}
    (h : '\n' ∉ cs → ∃ c r, body = c :: r ∧ c ≠ '\n' ∧ c ≠ '\r') :
    dropLineEnd ((if cs.contains '\n' then ['\n'] else []) ++ body) = body := by
  split_ifs with hline
  · rfl
  · obtain ⟨c, r, rfl, hline, hreturn⟩ := h (by simpa using hline)
    rw [List.nil_append, dropLineEnd]
    all_goals simp_all

/-! ## Forms -/

/-- Between single quotes only a string on one line is written, without such quotes in it. -/
theorem Form.of_choose_eq_single {cs : List Char} (h : Form.choose cs = .single) :
    ∀ c ∈ cs, c ≠ '\'' ∧ isControl c = false := by
  simp only [Form.choose] at h
  split_ifs at h with hdouble hsingle
  have hcs : ((∀ c ∈ cs, c ≠ '\n' → isControl c = false) ∧ '\'' ∉ cs) ∧ '\n' ∉ cs := by
    simpa using hsingle
  obtain ⟨⟨hcontrol, hquote⟩, hline⟩ := hcs
  intro c hc
  exact ⟨ne_of_mem_of_not_mem hc hquote, hcontrol c hc (ne_of_mem_of_not_mem hc hline)⟩

/-- Between three single quotes only a string is written that has no three such quotes in a row. -/
theorem Form.of_choose_eq_tripleSingle {cs : List Char} (h : Form.choose cs = .tripleSingle) :
    (∀ c ∈ cs, c = '\n' ∨ isControl c = false) ∧ longestRun '\'' 0 0 cs ≤ 2 := by
  simp only [Form.choose] at h
  split_ifs at h with hdouble hsingle htripleDouble htripleSingle
  simpa [Classical.or_iff_not_imp_left] using htripleSingle

theorem exists_writeDouble (c : Char) : ∃ d r, writeDouble c = d :: r ∧ d ≠ '"' := by
  unfold writeDouble
  split
  · rename_i e he
    obtain ⟨body, rfl, -⟩ := exists_of_escapeOf? he
    exact ⟨_, _, rfl, by decide⟩
  · split_ifs with hline hquote
    · exact ⟨_, _, rfl, by decide⟩
    · exact ⟨_, _, rfl, by decide⟩
    · exact ⟨_, _, rfl, by simpa using hquote⟩

theorem reads_write_double (cs : List Char) (rest : List Char) :
    Reads string? (Form.double.write cs ++ '\n' :: rest) (String.ofList cs) ('\n' :: rest) := by
  have hinside := insideDouble_write cs ('\n' :: rest) []
  have hline : Reads lineString? (Form.double.write cs ++ '\n' :: rest) (String.ofList cs)
      ('\n' :: rest) := by
    simpa [Form.write] using reads_lineString?_double (by simpa [Inside.close] using hinside)
  refine reads_string?_of_lineString? ?_ ?_ hline
  · intro r
    cases cs with
    | nil => simp [Form.write]
    | cons c cs =>
        obtain ⟨d, ds, hd, hne⟩ := exists_writeDouble c
        simp [Form.write, hd, hne]
  · simp [Form.write]

theorem reads_write_single {cs : List Char} (h : ∀ c ∈ cs, c ≠ '\'' ∧ isControl c = false)
    (rest : List Char) :
    Reads string? (Form.single.write cs ++ '\n' :: rest) (String.ofList cs) ('\n' :: rest) := by
  have hinside := insideSingle_append h ('\n' :: rest) []
  have hline : Reads lineString? (Form.single.write cs ++ '\n' :: rest) (String.ofList cs)
      ('\n' :: rest) := by
    simpa [Form.write] using reads_lineString?_single (by simpa [Inside.close] using hinside)
  refine reads_string?_of_lineString? ?_ ?_ hline
  · simp [Form.write]
  · intro r
    cases cs with
    | nil => simp [Form.write]
    | cons c cs => simp [Form.write, (h c List.mem_cons_self).1]

theorem exists_writeTripleDouble {c : Char} (hline : c ≠ '\n') (cs : List Char) :
    ∃ d r, writeTripleDouble 0 (c :: cs) = d :: r ∧ d ≠ '\n' ∧ d ≠ '\r' := by
  rw [writeTripleDouble]
  split
  · rename_i e he
    obtain ⟨body, rfl, -⟩ := exists_of_escapeOf? he
    exact ⟨_, _, rfl, by decide, by decide⟩
  · rename_i hnone
    obtain ⟨-, hplain⟩ := of_escapeOf?_eq_none hnone
    split_ifs with hquote
    · exact ⟨_, _, rfl, by decide, by decide⟩
    · exact ⟨_, _, rfl, by decide, by decide⟩
    · exact ⟨_, _, rfl, hline, ne_carriageReturn hplain⟩

theorem reads_write_tripleDouble (cs : List Char) (rest : List Char) :
    Reads string? (Form.tripleDouble.write cs ++ '\n' :: rest) (String.ofList cs)
      ('\n' :: rest) := by
  have hdrop : dropLineEnd ((if cs.contains '\n' then ['\n'] else []) ++
      (writeTripleDouble 0 cs ++ '"' :: '"' :: '"' :: '\n' :: rest)) =
      writeTripleDouble 0 cs ++ '"' :: '"' :: '"' :: '\n' :: rest := by
    refine dropLineEnd_first fun hline => ?_
    cases cs with
    | nil => exact ⟨_, _, rfl, by decide, by decide⟩
    | cons c cs =>
        have hc := Ne.symm (List.ne_of_not_mem_cons hline)
        obtain ⟨d, r, hd, hne⟩ := exists_writeTripleDouble hc cs
        exact ⟨d, _, by rw [hd]; rfl, hne⟩
  have hinside := insideTripleDouble_write cs (Nat.zero_le 2) (c := '\n') (by decide) rest []
  have hreads := reads_string?_tripleDouble hdrop (by simpa [Inside.close] using hinside)
  simpa [Form.write] using hreads

theorem reads_write_tripleSingle {cs : List Char} (h : ∀ c ∈ cs, c = '\n' ∨ isControl c = false)
    (hrun : longestRun '\'' 0 0 cs ≤ 2) (rest : List Char) :
    Reads string? (Form.tripleSingle.write cs ++ '\n' :: rest) (String.ofList cs)
      ('\n' :: rest) := by
  have hdrop : dropLineEnd ((if cs.contains '\n' then ['\n'] else []) ++
      (cs ++ '\'' :: '\'' :: '\'' :: '\n' :: rest)) =
      cs ++ '\'' :: '\'' :: '\'' :: '\n' :: rest := by
    refine dropLineEnd_first fun hline => ?_
    cases cs with
    | nil => exact ⟨_, _, rfl, by decide, by decide⟩
    | cons c cs =>
        have hc := Ne.symm (List.ne_of_not_mem_cons hline)
        exact ⟨c, _, rfl, hc, ne_carriageReturn (h c List.mem_cons_self)⟩
  have hinside := insideTripleSingle_append h hrun (c := '\n') (by decide) rest []
  have hreads := reads_string?_tripleSingle hdrop (by simpa [Inside.close] using hinside)
  simpa [Form.write] using hreads

/-- Every string is read back from the form that is taken for it. -/
theorem reads_write_choose (cs : List Char) (rest : List Char) :
    Reads string? ((Form.choose cs).write cs ++ '\n' :: rest) (String.ofList cs)
      ('\n' :: rest) := by
  cases h : Form.choose cs with
  | double => exact reads_write_double cs rest
  | single => exact reads_write_single (Form.of_choose_eq_single h) rest
  | tripleDouble => exact reads_write_tripleDouble cs rest
  | tripleSingle =>
      obtain ⟨hcontrol, hrun⟩ := Form.of_choose_eq_tripleSingle h
      exact reads_write_tripleSingle hcontrol hrun rest

end BlockScript.Toml
